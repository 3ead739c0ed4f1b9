import Provision.Digest
import Provision.Disk
import Provision.Local.Types
import Provision.Provider

/-!
# Local resources

Files and symbolic links as resources on a disk.  Nothing is overwritten that
was there before, except the file that an update is about, and nothing but a
link is removed in the place of a link.
-/

namespace Provision

namespace Local

/-- What an operation leads to: its outcome with the fields it leaves. -/
abbrev Outcome (α : Type) := (Except String α × Bindings) × Disk

/-- A failure behind a description of what was attempted. -/
def because (attempt cause : String) : String :=
  attempt ++ ": " ++ cause

/-- A field that holds a text. -/
def textField (fields : Bindings) (name : String) : Except String String :=
  match fields.get? name with
  | some (.text s) => .ok s
  | some other => .error ("field `" ++ name ++ "` must be a string, got " ++ other.label)
  | none => .error ("field `" ++ name ++ "` is not set")

/-- The field that says where a resource is. -/
def placeField (fields : Bindings) : Except String Path := do
  .ok ⟨← textField fields "path"⟩

/-- Makes the directory that a path stands in, when it names one. -/
def makeParent (path : Path) (disk : Disk) : Except String Unit × Disk :=
  match path.above? with
  | none => (.ok (), disk)
  | some parent =>
    if parent.text.isEmpty then (.ok (), disk)
    else
      match disk.makeDirectories parent with
      | (.ok (), disk) => (.ok (), disk)
      | (.error e, disk) =>
        (.error (because ("failed to create directory: " ++ parent.text) e.message), disk)

/-! ## Files -/

/-- The greatest permission. -/
def modeLimit : Nat := 0o7777

/-- An octal digit. -/
def octalDigit? (c : Char) : Option Nat :=
  if '0' ≤ c ∧ c ≤ '7' then some (c.toNat - '0'.toNat) else none

/-- The number that octal digits stand for. -/
def ofOctal? (digits : List Char) : Option Nat :=
  if digits.isEmpty then none
  else digits.foldlM (fun n c => (octalDigit? c).map fun d => n * 8 + d) 0

/-- A number in octal digits. -/
def octal (n : Nat) : String :=
  String.ofList (Nat.toDigits 8 n)

/-- Reads a permission: octal digits, with a plus sign if need be. -/
def modeOf (text : String) : Except String Nat :=
  let digits :=
    match text.toList with
    | '+' :: rest => rest
    | all => all
  match ofOctal? digits with
  | some mode =>
    if mode ≤ modeLimit then .ok mode
    else .error ("mode must be an octal string such as '644', got '" ++ text ++ "'")
  | none => .error ("mode must be an octal string such as '644', got '" ++ text ++ "'")

/-- The permission that the fields ask for, as it is written. -/
def modeField? (fields : Bindings) : Option String :=
  (fields.get? "mode").bind Value.asText?

/-- Gives a file the permission that the fields ask for. -/
def applyMode (path : Path) (fields : Bindings) (disk : Disk) : Except String Disk :=
  match modeField? fields with
  | none => .ok disk
  | some text => do
    let mode ← modeOf text
    (disk.setMode path mode).mapError fun e =>
      because ("failed to set mode of " ++ path.text) e.message

/-- Writes the file that the fields describe and notes its digest.  What was written stays when the
permission cannot be set. -/
def writeFile (fields : Bindings) (disk : Disk) : Outcome Unit :=
  let prepared := do
    let path ← placeField fields
    .ok (path, Utf8.encode (← textField fields "content"))
  match prepared with
  | .error message => ((.error message, fields), disk)
  | .ok (path, bytes) =>
    match makeParent path disk with
    | (.error message, disk) => ((.error message, fields), disk)
    | (.ok (), disk) =>
      match disk.write path bytes with
      | .error e => ((.error (because ("failed to write " ++ path.text) e.message), fields), disk)
      | .ok disk =>
        match applyMode path fields disk with
        | .error message => ((.error message, fields), disk)
        | .ok disk => ((.ok (), fields.set "sha256" (.text (Digest.sha256 bytes))), disk)

/-- The fields with the permission that a file has, unless they ask for just that one. -/
def withMode (mode : Nat) (fields : Bindings) : Bindings :=
  match modeField? fields with
  | none => fields
  | some text =>
    match modeOf text with
    | .ok recorded => if recorded = mode then fields else fields.set "mode" (.text (octal mode))
    | .error _ => fields.set "mode" (.text (octal mode))

/-- Reloads what a file holds. -/
def refreshFile (_ : Call) (fields : Bindings) (disk : Disk) : Outcome Bool :=
  match placeField fields with
  | .error message => ((.error message, fields), disk)
  | .ok path =>
    match disk.inspect .target path with
    | .error .notFound => ((.ok false, fields), disk)
    | .error e => ((.error (because ("failed to read " ++ path.text) e.message), fields), disk)
    | .ok (.file mode bytes) =>
      let fields := fields.set "sha256" (.text (Digest.sha256 bytes))
      let fields := fields.set "content" (.text (Utf8.decodeLossy bytes))
      ((.ok true, withMode mode fields), disk)
    | .ok _ =>
      ((.error (because ("failed to read " ++ path.text) DiskError.isDirectory.message), fields), disk)

/-- Creates a file where nothing is yet. -/
def createFile (_ : Call) (fields : Bindings) (disk : Disk) : Outcome Unit :=
  match placeField fields with
  | .error message => ((.error message, fields), disk)
  | .ok path =>
    if disk.leadsSomewhere path then ((.error (path.text ++ " already exists"), fields), disk)
    else writeFile fields disk

/-- Writes a file again when something about it changes. -/
def updateFile (_ : Call) (_ pending : Bindings) (changed : List String) (disk : Disk) : Outcome Unit :=
  if changed.isEmpty then ((.ok (), pending), disk) else writeFile pending disk

/-- Removes a file; one that is gone already is no failure. -/
def deleteFile (_ : Call) (fields : Bindings) (disk : Disk) : Except String Unit × Disk :=
  match placeField fields with
  | .error message => (.error message, disk)
  | .ok path =>
    match disk.remove path with
    | .ok disk => (.ok (), disk)
    | .error .notFound => (.ok (), disk)
    | .error e => (.error (because ("failed to remove " ++ path.text) e.message), disk)

/-! ## Symbolic links -/

/-- What stands at a path, if anything does; a link is not followed. -/
def standing? (path : Path) (disk : Disk) : Except String (Option DiskEntry) :=
  match disk.inspect .itself path with
  | .ok entry => .ok (some entry)
  | .error .notFound => .ok none
  | .error e => .error (because ("failed to inspect " ++ path.text) e.message)

/-- Whether a link at `path` that points to `actual` leads to `wanted`, dots resolved without a
look at the disk. -/
def pointsTo (path : Path) (actual wanted : String) : Bool :=
  (path.directory.joined ⟨actual⟩).normalize.same (Path.normalize ⟨wanted⟩)

/-- Reloads where a link points. -/
def refreshLink (_ : Call) (fields : Bindings) (disk : Disk) : Outcome Bool :=
  let outcome : Except String (Bool × Bindings) := do
    let path ← placeField fields
    match ← standing? path disk with
    | none => .ok (false, fields)
    | some (.link actual) => do
      let wanted ← textField fields "target"
      if pointsTo path actual wanted then .ok (true, fields)
      else .ok (true, fields.set "target" (.text actual))
    | some _ => .error (path.text ++ " exists but is not a symlink")
  match outcome with
  | .ok (there, fields) => ((.ok there, fields), disk)
  | .error message => ((.error message, fields), disk)

/-- Creates a link where nothing is yet, not even a link that leads nowhere. -/
def createLink (_ : Call) (fields : Bindings) (disk : Disk) : Outcome Unit :=
  let prepared := do
    let path ← placeField fields
    let target ← textField fields "target"
    match ← standing? path disk with
    | some _ => .error (path.text ++ " already exists")
    | none => .ok (path, target)
  match prepared with
  | .error message => ((.error message, fields), disk)
  | .ok (path, target) =>
    match makeParent path disk with
    | (.error message, disk) => ((.error message, fields), disk)
    | (.ok (), disk) =>
      match disk.makeLink target path with
      | .ok disk => ((.ok (), fields), disk)
      | .error e =>
        ((.error (because ("failed to create symlink " ++ path.text ++ " -> " ++ target) e.message),
          fields), disk)

/-- Removes a link, and nothing that is not one; a link that is gone already is no failure. -/
def deleteLink (_ : Call) (fields : Bindings) (disk : Disk) : Except String Unit × Disk :=
  let path? := do
    let path ← placeField fields
    match ← standing? path disk with
    | none => .ok none
    | some (.link _) => .ok (some path)
    | some _ => .error ("refusing to remove " ++ path.text ++ ": not a symlink")
  match path? with
  | .error message => (.error message, disk)
  | .ok none => (.ok (), disk)
  | .ok (some path) =>
    match disk.remove path with
    | .ok disk => (.ok (), disk)
    | .error e => (.error (because ("failed to remove " ++ path.text) e.message), disk)

/-- The provider of files and links. -/
def provider : Provider Disk where
  refresh call := if call.type.name = symlinkName then refreshLink call else refreshFile call
  create call := if call.type.name = symlinkName then createLink call else createFile call
  update := updateFile
  delete call := if call.type.name = symlinkName then deleteLink call else deleteFile call

end Local

end Provision

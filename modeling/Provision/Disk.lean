import Provision.Path
import Provision.Table
import Provision.Utf8

/-!
# Disks

A disk in memory: files, directories and links by their place below the root.
Every place but the root has a directory above it.  Looking up a path follows
links, so the place that is found may be another than the one that was named.
-/

namespace Provision

/-- The name of an entry of a directory. -/
abbrev FileName := List Char

/-- A place on a disk: the names that lead there from the root. -/
abbrev Place := List FileName

/-- What is at a place. -/
inductive DiskEntry where
  | directory
  | file (mode : Nat) (bytes : List UInt8)
  | link (target : String)
deriving DecidableEq, Repr

/-- Why an operation on a disk fails. -/
inductive DiskError where
  | notFound
  | occupied
  | notDirectory
  | isDirectory
  | notALink
  | nameTooLong
  | tooManyLinks
  | nullCharacter
deriving DecidableEq, Repr

/-- The wording of a disk error. -/
def DiskError.message : DiskError → String
  | notFound => "No such file or directory (os error 2)"
  | occupied => "File exists (os error 17)"
  | notDirectory => "Not a directory (os error 20)"
  | isDirectory => "Is a directory (os error 21)"
  | notALink => "Invalid argument (os error 22)"
  | nameTooLong => "File name too long (os error 36)"
  | tooManyLinks => "Too many levels of symbolic links (os error 40)"
  | nullCharacter => "file name contained an unexpected NUL byte"

/-- The entries below the root, and the directory from which relative paths start. -/
structure Disk where
  entries : Table Place DiskEntry := []
  home : Place := []

/-- What a path leads to. -/
inductive Located where
  /-- An entry, at the place that is left when every link is followed. -/
  | found (place : Place) (entry : DiskEntry)
  /-- A free name in a directory; `slash` when the path asks for a directory there. -/
  | vacant (place : Place) (slash : Bool)

namespace Disk

/-- The entry at a place; the root is a directory. -/
def entry? (disk : Disk) (place : Place) : Option DiskEntry :=
  if place.isEmpty then some .directory else disk.entries.get? place

/-- Puts an entry at a place. -/
def put (disk : Disk) (place : Place) (entry : DiskEntry) : Disk :=
  { disk with entries := disk.entries.set place entry }

/-- Takes away the entry at a place. -/
def drop (disk : Disk) (place : Place) : Disk :=
  { disk with entries := disk.entries.erase place }

/-- Takes away the entry at a place and everything below it. -/
def dropTree (disk : Disk) (place : Place) : Disk :=
  { disk with entries := disk.entries.filter fun entry => !place.isPrefixOf entry.1 }

/-- The names of a path, dots included. -/
def segments (text : List Char) : List FileName :=
  (Text.split '/' text).filter fun segment => !segment.isEmpty

/-- Whether a path ends with a slash. -/
def endsWithSlash (text : List Char) : Bool :=
  text.getLast? == some '/'

/-- How many bytes a name may have. -/
def nameLimit : Nat := 255

/-- How many bytes a path may have, and the target of a link. -/
def pathLimit : Nat := 4095

/-- How many links a look-up may follow. -/
def linkLimit : Nat := 40

/-- What is to be done about a link: where it stands, where it points, the names behind it, and
whether a directory is asked for. -/
abbrev OnLink := (above : Place) → (target : String) → (rest : List FileName) → (slash : Bool) →
  Except DiskError Located

/-- What is wanted at the end of a path. -/
inductive Ending where
  /-- What stands there itself; a link is followed only when a directory is asked for. -/
  | itself
  /-- What a link there leads to. -/
  | target
  /-- A file to be written, where a link there leads; a directory must not be asked for. -/
  | written
deriving DecidableEq, Repr

/-- Walks along names from a directory.  Links on the way go to `onLink`, and one at the very end
when it is to be followed.  With `slash` the path asks for a directory. -/
def walk (disk : Disk) (ending : Ending) (slash : Bool) (onLink : OnLink) :
    Place → List FileName → Except DiskError Located
  | place, [] => .ok (.found place .directory)
  | place, name :: rest =>
    if name = ['.'] then walk disk ending slash onLink place rest
    else if name = ['.', '.'] then walk disk ending slash onLink place.dropLast rest
    else if ending = .written && slash && rest.isEmpty then .error .isDirectory
    else if (String.ofList name).utf8ByteSize > nameLimit then .error .nameTooLong
    else
      let next := place ++ [name]
      match disk.entry? next with
      | none => if rest.isEmpty then .ok (.vacant next slash) else .error .notFound
      | some .directory => walk disk ending slash onLink next rest
      | some (.file mode bytes) =>
        if rest.isEmpty && !slash then .ok (.found next (.file mode bytes)) else .error .notDirectory
      | some (.link target) =>
        if rest.isEmpty && !slash && ending = .itself then .ok (.found next (.link target))
        else onLink place target rest slash

/-- Walks along names and follows up to so many links. -/
def walkLinks (disk : Disk) (ending : Ending) :
    Nat → (slash : Bool) → Place → List FileName → Except DiskError Located
  | 0, slash => walk disk ending slash fun _ _ _ _ => .error .tooManyLinks
  | links + 1, slash =>
    walk disk ending slash fun above target rest slash =>
      let text := target.toList
      walkLinks disk ending links (slash || (rest.isEmpty && endsWithSlash text))
        (if text.head? = some '/' then [] else above) (segments text ++ rest)

/-- Refuses what cannot be a path or the target of a link: nothing at all, a null character, too
many bytes. -/
def checkPath (text : String) : Except DiskError Unit :=
  if text.isEmpty then .error .notFound
  else if text.toList.any fun c => c.toNat = 0 then .error .nullCharacter
  else if text.utf8ByteSize > pathLimit then .error .nameTooLong
  else .ok ()

/-- Looks up the names of a path, its ending aside. -/
def locateNames (disk : Disk) (ending : Ending) (slash : Bool) (path : Path) :
    Except DiskError Located := do
  checkPath path.text
  walkLinks disk ending linkLimit slash (if path.isAbsolute then [] else disk.home)
    (segments path.text.toList)

/-- Looks up a path. -/
def locate (disk : Disk) (ending : Ending) (path : Path) : Except DiskError Located :=
  locateNames disk ending (endsWithSlash path.text.toList) path

/-- The absolute path of a place. -/
def pathOf (place : Place) : Path :=
  ⟨String.ofList ('/' :: Text.join ['/'] place)⟩

/-- A bound on how far imports can lead from file to file. -/
def reach (disk : Disk) : Nat :=
  (disk.entries.length + 1) * (linkLimit + 1)

/-! ## Questions -/

/-- The absolute path, free of links and dots, of an entry. -/
def canonical? (disk : Disk) (path : Path) : Except DiskError Path :=
  match disk.locate .target path with
  | .error e => .error e
  | .ok (.vacant ..) => .error .notFound
  | .ok (.found place _) => .ok (pathOf place)

/-- What stands at the end of a path. -/
def inspect (disk : Disk) (ending : Ending) (path : Path) : Except DiskError DiskEntry :=
  match disk.locate ending path with
  | .error e => .error e
  | .ok (.vacant ..) => .error .notFound
  | .ok (.found _ entry) => .ok entry

/-- Whether a path leads to something once links are followed. -/
def leadsSomewhere (disk : Disk) (path : Path) : Bool :=
  (disk.inspect .target path).isOk

/-- Whether a path leads to a directory once links are followed. -/
def leadsToDirectory (disk : Disk) (path : Path) : Bool :=
  match disk.inspect .target path with
  | .ok .directory => true
  | _ => false

/-- The bytes of a file. -/
def read (disk : Disk) (path : Path) : Except DiskError (List UInt8) :=
  match disk.inspect .target path with
  | .error e => .error e
  | .ok (.file _ bytes) => .ok bytes
  | .ok _ => .error .isDirectory

/-- The text of a file, if it can be read and is one. -/
def readText? (disk : Disk) (path : Path) : Option String :=
  match disk.read path with
  | .error _ => none
  | .ok bytes => Utf8.decode? bytes

/-- Where a link points. -/
def readLink (disk : Disk) (path : Path) : Except DiskError String :=
  match disk.inspect .itself path with
  | .error e => .error e
  | .ok (.link target) => .ok target
  | .ok _ => .error .notALink

/-! ## Changes -/

/-- The permission of a new file. -/
def newFileMode : Nat := 0o644

/-- Writes a file.  One that is there keeps its permission. -/
def write (disk : Disk) (path : Path) (bytes : List UInt8) : Except DiskError Disk :=
  match disk.locate .written path with
  | .error e => .error e
  | .ok (.vacant place _) => .ok (disk.put place (.file newFileMode bytes))
  | .ok (.found place (.file mode _)) => .ok (disk.put place (.file mode bytes))
  | .ok (.found _ _) => .error .isDirectory

/-- Puts a whole new file in the place of whatever is at a path, unless that is a directory. -/
def replace (disk : Disk) (path : Path) (mode : Nat) (bytes : List UInt8) : Except DiskError Disk :=
  match disk.locateNames .itself false path with
  | .error e => .error e
  | .ok (.found _ .directory) => .error .isDirectory
  | .ok (.found place _) => .ok (disk.put place (.file mode bytes))
  | .ok (.vacant place _) => .ok (disk.put place (.file mode bytes))

/-- Makes a directory. -/
def makeDirectory (disk : Disk) (path : Path) : Except DiskError Disk :=
  match disk.locateNames .itself false path with
  | .error e => .error e
  | .ok (.found ..) => .error .occupied
  | .ok (.vacant place _) => .ok (disk.put place .directory)

/-- Makes the directory with the given components, last one first, and those above it that are
missing.  What was made before a failure stays. -/
def makeDirectoriesFor (disk : Disk) : List Path.Component → Except DiskError Unit × Disk
  | [] => (.ok (), disk)
  | part :: above =>
    if part = .root then (.ok (), disk)
    else
      let path := Path.ofComponents (part :: above).reverse
      match disk.makeDirectory path with
      | .ok after => (.ok (), after)
      | .error .notFound =>
        match disk.makeDirectoriesFor above with
        | (.error e, after) => (.error e, after)
        | (.ok (), after) =>
          match after.makeDirectory path with
          | .ok done => (.ok (), done)
          | .error e => (if after.leadsToDirectory path then .ok () else .error e, after)
      | .error e => (if disk.leadsToDirectory path then .ok () else .error e, disk)

/-- Makes a directory and those above it that are missing. -/
def makeDirectories (disk : Disk) (path : Path) : Except DiskError Unit × Disk :=
  disk.makeDirectoriesFor path.components.reverse

/-- Removes a file or a link. -/
def remove (disk : Disk) (path : Path) : Except DiskError Disk :=
  match disk.locateNames .itself false path with
  | .error e => .error e
  | .ok (.vacant ..) => .error .notFound
  | .ok (.found _ .directory) => .error .isDirectory
  | .ok (.found place _) =>
    if endsWithSlash path.text.toList then .error .notDirectory else .ok (disk.drop place)

/-- Removes whatever is at a path, a directory with all it holds. -/
def removeTree (disk : Disk) (path : Path) : Except DiskError Disk :=
  match disk.locate .itself path with
  | .error e => .error e
  | .ok (.vacant ..) => .error .notFound
  | .ok (.found place _) => .ok (disk.dropTree place)

/-- Makes a link. -/
def makeLink (disk : Disk) (target : String) (path : Path) : Except DiskError Disk := do
  checkPath target
  match ← disk.locateNames .itself false path with
  | .found .. => .error .occupied
  | .vacant place _ =>
    if endsWithSlash path.text.toList then .error .notFound else .ok (disk.put place (.link target))

/-- Sets the permission of a file; that of a directory is not kept. -/
def setMode (disk : Disk) (path : Path) (mode : Nat) : Except DiskError Disk :=
  match disk.locate .target path with
  | .error e => .error e
  | .ok (.vacant ..) => .error .notFound
  | .ok (.found place (.file _ bytes)) => .ok (disk.put place (.file mode bytes))
  | .ok (.found ..) => .ok disk

end Disk

end Provision

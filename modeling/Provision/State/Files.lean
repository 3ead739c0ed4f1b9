import Provision.Disk
import Provision.State.Store

/-!
# State files on a disk

State files stand beside the configuration files they belong to.  Each is put in
place as a whole, so a reader never sees a part of one.
-/

namespace Provision

/-- The permission of a state file. -/
def stateFileMode : Nat := 0o600

/-- Reads a state file from a disk. -/
def readState (path : Path) (disk : Disk) : Except StateError (Option String) :=
  match disk.read path with
  | .error .notFound => .ok none
  | .error _ => .error (.read path)
  | .ok bytes =>
    match Utf8.decode? bytes with
    | some text => .ok (some text)
    | none => .error (.read path)

/-- The directory in which the text of a state file is prepared. -/
def stagingDirectory (path : Path) : Path :=
  match path.parent? with
  | none => ⟨"."⟩
  | some parent => if parent.text.isEmpty then ⟨"."⟩ else parent

/-- Writes a state file to a disk. -/
def writeState (path : Path) (text : String) (disk : Disk) : Except StateError Unit × Disk :=
  if !disk.leadsToDirectory (stagingDirectory path) then (.error (.write path), disk)
  else
    match disk.replace path stateFileMode (Utf8.encode text) with
    | .ok after => (.ok (), after)
    | .error _ => (.error (.persist path), disk)

/-- Removes a state file from a disk. -/
def removeState (path : Path) (disk : Disk) : Except StateError Unit × Disk :=
  match disk.remove path with
  | .ok after => (.ok (), after)
  | .error .notFound => (.ok (), disk)
  | .error _ => (.error (.remove path), disk)

/-- State files on a disk. -/
def stateFiles : StateStore Disk where
  read := readState
  write := writeState
  remove := removeState
  reach := Disk.reach

end Provision

import Provision.Command.Footprint

/-!
# The program

Brings the files that a run looks at into memory, runs the command line on them,
and writes back what it changed.  `IO` tells neither permissions nor the text of
links, so a file is taken to have the permission that the state records for it,
and a link to point to the file it leads to.  Nor can `IO` make links.
-/

namespace Provision.Main

/-- What is really at a place, if anything is. -/
def realEntry? (place : Place) : IO (Option DiskEntry) := do
  let text := (Disk.pathOf place).text
  try
    let leadsTo := toString (← IO.FS.realPath text)
    if leadsTo ≠ text then pure (some (.link leadsTo))
    else pure (some (.file Disk.newFileMode (← IO.FS.readBinFile text).toList))
  catch
    | .inappropriateType .. => pure (some .directory)
    | _ => pure none

/-- Brings the entries that lead along some names into memory. -/
partial def fetch (disk : Disk) (place : Place) : List FileName → IO Disk
  | [] => pure disk
  | name :: rest =>
    if name = ['.'] then fetch disk place rest
    else if name = ['.', '.'] then fetch disk place.dropLast rest
    else do
      let next := place ++ [name]
      let entry? ← match disk.entry? next with
        | some entry => pure (some entry)
        | none => realEntry? next
      match entry? with
      | none => pure disk
      | some (.link target) => fetch (disk.put next (.link target)) [] (Disk.segments target.toList ++ rest)
      | some entry => fetch (disk.put next entry) next rest

/-- Brings the entries that a path leads along into memory. -/
def fetchPath (disk : Disk) (path : Path) : IO Disk :=
  fetch disk (if path.isAbsolute then [] else disk.home) (Disk.segments path.text.toList)

/-- Brings everything into memory that a run looks at. -/
partial def gather (arguments : List String) (disk : Disk) (known : List Path) : IO Disk := do
  let wanted := (Command.footprint arguments disk).filter fun path => !known.contains path
  if wanted.isEmpty then pure disk
  else gather arguments (← wanted.foldlM fetchPath disk) (known ++ wanted)

/-- Gives the files in memory the permissions that the state records. -/
def withRecordedModes (arguments : List String) (disk : Disk) : Disk :=
  (Command.recordedModes arguments disk).foldl (fun disk entry =>
    (disk.setMode entry.1 entry.2).toOption.getD disk) disk

/-- The permission with the given bits. -/
def rights (mode : Nat) : IO.FileRight :=
  let access (bits : Nat) : IO.AccessRight := ⟨bits.testBit 2, bits.testBit 1, bits.testBit 0⟩
  ⟨access (mode / 64), access (mode / 8), access mode⟩

/-- Makes an entry real. -/
def writeBack (place : Place) (entry : DiskEntry) : IO Unit := do
  let text := (Disk.pathOf place).text
  match entry with
  | .directory => IO.FS.createDirAll text
  | .file mode bytes =>
    IO.FS.writeBinFile text bytes.toByteArray
    IO.setAccessRights text (rights mode)
  | .link target => throw (IO.userError ("cannot make the link " ++ text ++ " -> " ++ target))

/-- Makes the changes from one disk to another real. -/
def commit (before after : Disk) : IO Unit := do
  for (place, _) in before.entries do
    if (after.entry? place).isNone then IO.FS.removeFile (Disk.pathOf place).text
  for (place, entry) in after.entries do
    if before.entry? place ≠ some entry then writeBack place entry

end Provision.Main

/-- Runs the command line on the files of this machine. -/
def main (arguments : List String) : IO UInt32 := do
  let home := Provision.Disk.segments (toString (← IO.currentDir)).toList
  let start ← Provision.Main.fetch { home := home } [] home
  let gathered ← Provision.Main.gather arguments start []
  let before := Provision.Main.withRecordedModes arguments gathered
  let (shown, after) := Provision.Command.run arguments before
  Provision.Main.commit before after
  IO.print shown.output
  match shown.error with
  | some error => IO.eprintln error
  | none => pure ()
  pure (UInt32.ofNat shown.exitCode)

import Provision.Evaluation.Definitions

/-!
# Following imports

Reads files and whatever they import, breadth first.  A file is read once, also
when imports form a cycle.
-/

namespace Provision

open Provision.Language (SourceFile)

/-- The files that the imports of a file name, resolved against the directory of `path`. -/
def importTargets (path : Path) (file : SourceFile) : List Path :=
  file.imports.map fun entry => importTarget path entry.1

/-- What reading some files led to. -/
structure ReadFiles where
  files : List SourceFile
  /-- The files they import, in order. -/
  targets : List Path
  /-- Every path that was looked at so far. -/
  seen : List Path

/-- Reads the files of a list that were not read before.  `read` answers nothing for a file that
can be passed over. -/
def readFiles {ε : Type} (read : Path → Except ε (Option SourceFile)) :
    List Path → List Path → Except ε ReadFiles
  | [], seen => .ok ⟨[], [], seen⟩
  | path :: rest, seen =>
    if path.isIn seen then readFiles read rest seen
    else do
      let found ← read path
      let later ← readFiles read rest (seen ++ [path])
      match found with
      | none => .ok later
      | some file =>
        .ok ⟨file :: later.files, importTargets path file ++ later.targets, later.seen⟩

/-- Reads the files of a list, then the files these import, and so on, for a number of rounds. -/
def followImports {ε : Type} (read : Path → Except ε (Option SourceFile)) :
    (rounds : Nat) → List Path → List Path → Except ε (List SourceFile)
  | 0, _, _ => .ok []
  | rounds + 1, paths, seen =>
    if paths.isEmpty then .ok []
    else do
      let found ← readFiles read paths seen
      let later ← followImports read rounds found.targets found.seen
      .ok (found.files ++ later)

end Provision

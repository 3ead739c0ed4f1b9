import Provision.Disk
import Provision.Imports
import Provision.Language.Parser

/-!
# Configuration files

Reads a configuration: its root file and every file that is imported from there,
in the order in which they are reached.
-/

namespace Provision

open Provision.Language (SourceFile ParseError parse)

/-- Why a configuration cannot be read. -/
inductive SourceError where
  | missingRoot (path : Path)
  | unreadable (path : Path)
  | parse (error : ParseError)
deriving DecidableEq, Repr

/-- The wording of a source error. -/
def SourceError.message : SourceError → String
  | missingRoot path => "configuration file not found: " ++ path.text
  | unreadable path => "failed to read configuration file: " ++ path.text
  | parse e => e.text

/-- Reads and parses one file. -/
def readSource (read : Path → Option String) (path : Path) : Except SourceError (Option SourceFile) :=
  match read path with
  | none => .error (.unreadable path)
  | some text =>
    match parse path.text text with
    | .error e => .error (.parse e)
    | .ok file => .ok (some file)

/-- The files that are reached from a root in so many rounds of imports. -/
def readSources (read : Path → Option String) (rounds : Nat) (root : Path) :
    Except SourceError (List SourceFile) :=
  followImports (readSource read) rounds [root] []

/-- The configuration on a disk whose root file a path leads to. -/
def loadSources (disk : Disk) (path : Path) : Except SourceError (List SourceFile) :=
  match disk.canonical? path with
  | .error _ => .error (.missingRoot path)
  | .ok root => readSources disk.readText? disk.reach root

end Provision

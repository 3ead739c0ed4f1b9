import Provision.Evaluation.Passes
import Provision.Imports
import Provision.State.Error
import Provision.State.Rendering

/-!
# Loading and saving state

State is kept file by file in a store of any kind.  Loading starts from some
configuration files and follows the imports that their state records; saving
writes the files in order and stops at the first that fails.
-/

namespace Provision

open Provision.Language (SourceFile parse)

/-- A place where state files are kept, as part of a world. -/
structure StateStore (ω : Type) where
  /-- The text of a state file, if there is one. -/
  read : Path → ω → Except StateError (Option String)
  /-- Writes a state file as a whole. -/
  write : Path → String → ω → Except StateError Unit × ω
  /-- Removes a state file; one that is not there is no error. -/
  remove : Path → ω → Except StateError Unit × ω
  /-- A bound on how far imports lead from file to file. -/
  reach : ω → Nat

namespace StateStore

variable {ω : Type}

/-- The state of a configuration file, as a source that goes by the name of that file. -/
def source (store : StateStore ω) (world : ω) (path : Path) :
    Except StateError (Option SourceFile) := do
  match ← store.read (statePath path) world with
  | none => .ok none
  | some text => do
    let file ← (parse (statePath path).text text).mapError StateError.parse
    .ok (some { file with path := path.text })

/-- The state recorded for some configuration files and for every file their state imports. -/
def load (store : StateStore ω) (registry : Registry) (paths : List Path) (world : ω) :
    Except StateError Inventory := do
  let files ← followImports (store.source world) (store.reach world) paths []
  (evaluateState registry files).mapError StateError.eval

/-- Writes the state of a file, or removes it when there is nothing to record. -/
def saveFile (store : StateStore ω) (file : FileScope) (world : ω) : Except StateError Unit × ω :=
  if file.isEmpty then store.remove (statePath file.path) world
  else store.write (statePath file.path) (stateText file) world

/-- Saves files in order up to the first that fails. -/
def saveFiles (store : StateStore ω) : List FileScope → ω → Except StateError Unit × ω
  | [], world => (.ok (), world)
  | file :: rest, world =>
    match store.saveFile file world with
    | (.error e, after) => (.error e, after)
    | (.ok (), after) => saveFiles store rest after

/-- Saves every file of an inventory. -/
def save (store : StateStore ω) (inventory : Inventory) (world : ω) : Except StateError Unit × ω :=
  store.saveFiles inventory.files world

end StateStore

/-- Reads the state of some files back from its text. -/
def reload (registry : Registry) (files : List FileScope) : Except StateError Inventory := do
  let sources ← files.mapM fun file =>
    (parse file.path.text (stateText file)).mapError StateError.parse
  (evaluateState registry sources).mapError StateError.eval

end Provision

import Provision.Evaluation.Statement
import Provision.Language.Printer

/-!
# State files

The state of a configuration file is written in the configuration language
itself, next to the file it belongs to.  Handles are written as references, and
two reserved pairs keep what the fields alone do not say.
-/

namespace Provision

open Provision.Language (Node Entry SourceFile)

/-- The state file of a configuration file. -/
def statePath (path : Path) : Path :=
  ⟨path.text ++ ".state"⟩

/-- A pair without a place. -/
def pairNode (key : String) (value : Node) : Node :=
  .pair ⟨key, value, Span.generated⟩

/-- `@name: argument`. -/
def noteNode (name argument : String) : Node :=
  .directive ⟨name, [.text argument], [], true, [], [], Span.generated⟩

mutual

/-- A value as an expression. -/
def valueNode : Value → Node
  | .null => .null
  | .bool b => .bool b
  | .number x => .number x
  | .text s => .text s
  | .list items => .list (valueNodes items)
  | .map entries => .map (valueEntries entries)
  | .resource key => .ref key.type.text (some (.text key.name)) [] Span.generated

/-- Values as expressions. -/
def valueNodes : List Value → List Node
  | [] => []
  | item :: rest => valueNode item :: valueNodes rest

/-- The entries of a map as entries of an expression. -/
def valueEntries : List (String × Value) → List Entry
  | [] => []
  | (key, item) :: rest => ⟨key, valueNode item, Span.generated⟩ :: valueEntries rest

end

/-- A resource as a block. -/
def resourceNode (resource : Resource) : Node :=
  let fields := resource.fields.map fun entry => pairNode entry.1 (valueNode entry.2)
  let configured := pairNode configuredFieldsKey (.list (resource.configured.map Node.text))
  let dependsOn :=
    if resource.dependsOn.isEmpty then []
    else [pairNode dependsOnKey (.list (resource.dependsOn.map fun key => Node.text key.text))]
  .resource resource.key.type.text (.text resource.key.name)
    (fields ++ configured :: dependsOn ++ [noteNode "uses-credentials" resource.credentials])
    Span.generated

/-- The state of a file as a syntax tree: plugins, imports as seen from the file, resources. -/
def stateFile (file : FileScope) : SourceFile where
  path := (statePath file.path).text
  body :=
    file.plugins.map (noteNode "plugin") ++
    file.imports.map (fun path => noteNode "import" (Path.relativeTo file.path.directory path).text) ++
    (Table.values file.resources).map resourceNode

/-- The text of the state of a file. -/
def stateText (file : FileScope) : String :=
  (stateFile file).print

/-- The state paths and texts of the files that hold something. -/
def stateTexts (inventory : Inventory) : List (Path × String) :=
  (inventory.files.filter fun file => !file.isEmpty).map fun file =>
    (statePath file.path, stateText file)

end Provision

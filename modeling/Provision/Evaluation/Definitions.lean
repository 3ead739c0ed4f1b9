import Provision.Evaluation.Statement

/-!
# Definitions

Imports, plugins, templates and workflows of a file take effect before any
statement is evaluated.
-/

namespace Provision

open Provision.Language (Node Directive SourceFile)

/-- The text of the first argument, when it is a plain string. -/
def firstText? (arguments : List Node) : Option String :=
  arguments.head?.bind Node.asText?

/-- The plain string that a directive needs as its first argument. -/
def literalArgument (d : Directive) : Except EvalError String :=
  match firstText? d.arguments with
  | some s => .ok s
  | none => .error (.invalidDirective d.span d.name "expects a literal string argument")

/-- A stage of a workflow from its `@stage:` line. -/
def Stage.ofDirective (d : Directive) : Except EvalError Stage :=
  let invalid (message : String) : Except EvalError Stage :=
    .error (.invalidDirective d.span d.name message)
  let option (name : String) := (d.clause? name).bind fun clause => firstText? clause.arguments
  match firstText? d.arguments with
  | none => invalid "expects a literal stage name"
  | some name =>
    match option "action" with
    | some "create" => .ok ⟨name, .create, option "description"⟩
    | some "delete" => .ok ⟨name, .delete, option "description"⟩
    | _ => invalid "expects `-action 'create'` or `-action 'delete'`"

/-- The stages of a workflow from the lines of its body. -/
def stagesOf (d : Directive) : List Node → Except EvalError (List Stage)
  | [] => .ok []
  | .directive line :: rest =>
    if line.name = "stage" then do
      let stage ← Stage.ofDirective line
      let stages ← stagesOf d rest
      .ok (stage :: stages)
    else .error (.invalidDirective d.span d.name "may only contain `@stage:` lines")
  | _ :: _ => .error (.invalidDirective d.span d.name "may only contain `@stage:` lines")

/-- A workflow from its directive. -/
def Workflow.ofDirective (d : Directive) : Except EvalError Workflow :=
  match firstText? d.arguments with
  | none => .error (.invalidDirective d.span d.name "expects a literal workflow name")
  | some name =>
    match (d.clause? "for-type").bind fun clause => firstText? clause.arguments with
    | none => .error (.invalidDirective d.span d.name "expects `-for-type 'namespace::kind'`")
    | some forType => do
      let type ← typeAt d.span forType
      let stages ← stagesOf d d.body
      if stages.isEmpty then .error (.invalidDirective d.span d.name "needs at least one stage")
      else .ok ⟨name, type, stages⟩

/-- The parameters that the body of a template declares. -/
def parametersOf : List Node → Except EvalError (List String)
  | [] => .ok []
  | .directive d :: rest =>
    if d.name = "param" then do
      let name ← literalArgument d
      let names ← parametersOf rest
      .ok (name :: names)
    else parametersOf rest
  | _ :: rest => parametersOf rest

/-- Whether a node declares a parameter. -/
def isParameter : Node → Bool
  | .directive d => d.name = "param"
  | _ => false

/-- Defines a template. -/
def defineVirtual (inventory : Inventory) (d : Directive) : Except EvalError Inventory := do
  let name ← literalArgument d
  let type ← typeAt d.span name
  if (inventory.registry.type? type).isSome then
    .error (.invalidDirective d.span d.name ("cannot redefine provider type `" ++ type.text ++ "`"))
  else if (inventory.virtual? type).isSome then
    .error (.invalidDirective d.span d.name ("defines `" ++ type.text ++ "` twice"))
  else do
    let parameters ← parametersOf d.body
    let body := d.body.filter fun node => !isParameter node
    .ok { inventory with
      virtuals := Table.set inventory.virtuals type ⟨type, parameters, body, d.span⟩ }

/-- The file that an import names, resolved against the importing file. -/
def importTarget (file : Path) (text : String) : Path :=
  (file.directory.joined ⟨text⟩).normalize

/-- Takes up one definition of the file at a position. -/
def takeDefinition (path : Path) (index : Nat) (inventory : Inventory) (d : Directive) :
    Except EvalError Inventory :=
  if d.name = "import" then do
    let text ← literalArgument d
    .ok (inventory.modifyFile index fun file => file.addImport (importTarget path text))
  else if d.name = "plugin" then do
    let space ← literalArgument d
    if inventory.registry.hasNamespace space then
      .ok (inventory.modifyFile index fun file => file.addPlugin space)
    else .error (.unknownPlugin d.span space)
  else if d.name = "virtual" then defineVirtual inventory d
  else if d.name = "workflow" then do
    let workflow ← Workflow.ofDirective d
    .ok { inventory with workflows := inventory.workflows ++ [workflow] }
  else .ok inventory

/-- Takes up the definitions among some statements. -/
def takeDefinitions (path : Path) (index : Nat) : Inventory → List Node → Except EvalError Inventory
  | inventory, [] => .ok inventory
  | inventory, .directive d :: rest => do
    let inventory ← takeDefinition path index inventory d
    takeDefinitions path index inventory rest
  | inventory, _ :: rest => takeDefinitions path index inventory rest

/-- Whether a statement only defines something for its file. -/
def isDefinition : Node → Bool
  | .directive d => isDefinitionName d.name
  | _ => false

/-! ## The types that a statement may declare -/

mutual

/-- The types of the resource blocks in a statement, however deep. -/
def typesIn : Node → List TypeName
  | .resource type _ body _ =>
    (match TypeName.ofText type with
      | .ok name => [name]
      | .error _ => []) ++ typesInAll body
  | .block _ body _ => typesInAll body
  | .directive ⟨_, _, _, _, body, branches, _⟩ => typesInAll body ++ typesInBranches branches
  | _ => []

/-- The types of the resource blocks in several statements. -/
def typesInAll : List Node → List TypeName
  | [] => []
  | node :: rest => typesIn node ++ typesInAll rest

/-- The types of the resource blocks in the branches of a directive. -/
def typesInBranches : List Language.Branch → List TypeName
  | [] => []
  | ⟨_, _, body, _⟩ :: rest => typesInAll body ++ typesInBranches rest

end

/-- The types together with those in the bodies of the templates among them, to some depth. -/
def expandTypes (virtuals : Table TypeName VirtualType) : Nat → List TypeName → List TypeName
  | 0, types => types
  | depth + 1, types =>
    let inner := types.flatMap fun type =>
      match Table.get? virtuals type with
      | some template => typesInAll template.body
      | none => []
    expandTypes virtuals depth (Sorted.union types inner)

/-- The types of the resources that a statement may declare, directly or through instances. -/
def declaredTypes (inventory : Inventory) (node : Node) : List TypeName :=
  (expandTypes inventory.virtuals inventory.virtuals.length (Sorted.ofList (typesIn node))).filter
    fun type => (inventory.virtual? type).isNone

end Provision

import Provision.Evaluation.Expression

/-!
# Statements

What a statement does to the evaluation.  Each statement means a `Step`, which
changes the progress made so far and may end early; what it did before stays
done.  A body is a list of steps: the deferred ones are tried again while every
pass gets some of them done.
-/

namespace Provision

open Provision.Language (Node Entry Branch Directive)

/-- Whether configuration or recorded state is evaluated. -/
inductive Mode where
  | configuration
  | state
deriving DecidableEq, Repr

/-- An instance or iteration that encloses a statement. -/
inductive SiteStep where
  | instance_ (span : Span)
  | iteration (span : Span) (index : Nat)
deriving DecidableEq, Repr

/-- The place of a step. -/
def SiteStep.span : SiteStep → Span
  | instance_ span => span
  | iteration span _ => span

/-- Tells the repeated evaluation of a declaration from another declaration of the same key. -/
structure Site where
  path : List SiteStep
  origin : Span
deriving DecidableEq, Repr

/-- The place to show for a declaration: its outermost instance or loop, or its own. -/
def Site.location (site : Site) : Span :=
  match site.path with
  | step :: _ => step.span
  | [] => site.origin

/-- Where a statement is evaluated. -/
structure Frame where
  file : Nat
  /-- The instance being expanded. -/
  qualifier : Option String := none
  inResource : Bool := false
  /-- Dependencies of the parameters, which every resource of the instance has. -/
  inherited : List Key := []
  site : List SiteStep := []

/-- What stays fixed while one statement of a file is evaluated. -/
structure Setting where
  mode : Mode
  /-- The recorded inventory that unset fields are filled from. -/
  current : Option Inventory
  /-- Types that other statements may still declare. -/
  undeclared : List TypeName

/-- What evaluation has brought about so far. -/
structure Progress where
  inventory : Inventory
  /-- Where each resource was declared. -/
  declared : Table Key Site
  scope : Scope
  /-- The resources read in the innermost body. -/
  reads : List Key
  /-- The credentials named in the innermost body. -/
  credentials : Option String

/-- A computation that changes the progress and may end early. -/
abbrev Step := ExceptT Interrupt (StateM Progress)

namespace Step

/-- Ends with an error. -/
def fail {α : Type} (error : EvalError) : Step α :=
  throw (.failed error)

/-- An outcome without deferrals as a step. -/
def settled {α : Type} : Except EvalError α → Step α
  | .ok a => pure a
  | .error e => fail e

/-- Runs a step in another scope and gives back what became of that scope.  The scope outside is
as before, however the step ends. -/
def inScope (enter : Scope → Scope) (step : Step Unit) : Step Scope :=
  ExceptT.mk fun progress =>
    let (outcome, after) := step.run { progress with scope := enter progress.scope }
    (outcome.map fun _ => after.scope, { after with scope := progress.scope })

/-- Runs a step as a body of its own and gives back its reads and credentials.  Those of the
body outside are as before, however the step ends. -/
def collecting {α : Type} (step : Step α) : Step (α × List Key × Option String) :=
  ExceptT.mk fun progress =>
    let (outcome, after) := step.run { progress with reads := [], credentials := none }
    (outcome.map fun a => (a, after.reads, after.credentials),
      { after with reads := progress.reads, credentials := progress.credentials })

/-- Steps one after another, ending with the first that ends early. -/
def sequence : List (Step Unit) → Step Unit
  | [] => pure ()
  | step :: rest => do
    step
    sequence rest

/-- Tries every step once.  Gives back those that were deferred, with the reasons. -/
def pass : List (Step Unit) → Step (List (Step Unit) × List Deferral)
  | [] => pure ([], [])
  | step :: rest => do
    let waiting ← ExceptT.mk fun progress =>
      match step.run progress with
      | (.ok (), after) => (.ok none, after)
      | (.error (.deferred reasons), after) => (.ok (some reasons), after)
      | (.error (.failed e), after) => (.error (.failed e), after)
    let (steps, reasons) ← pass rest
    match waiting with
    | none => pure (steps, reasons)
    | some first => pure (step :: steps, first ++ reasons)

/-- Makes passes over the deferred steps while each gets some done; `bound` is at least the number
of steps. -/
def settle : (bound : Nat) → List (Step Unit) → Step Unit
  | 0, _ => pure ()
  | bound + 1, steps => do
    let (deferred, reasons) ← pass steps
    if deferred.isEmpty then pure ()
    else if deferred.length = steps.length then throw (.deferred reasons)
    else settle bound deferred

/-- Evaluates a body: its steps in order, the deferred ones again while that helps. -/
def body (steps : List (Step Unit)) : Step Unit :=
  settle steps.length steps

end Step

/-- How statements evaluate: the fixed setting and what an instance of a template does. -/
structure Evaluator where
  setting : Setting
  expand : VirtualType → Frame → Span → Step Unit

/-- The view that an expression gets from the progress. -/
def Progress.view (progress : Progress) (setting : Setting) (frame : Frame) (location : Span) : View :=
  ⟨progress.inventory, progress.scope, frame.qualifier, setting.undeclared, location⟩

/-- Runs a recording on the current view and keeps what it recorded. -/
def Evaluator.reading {α : Type} (e : Evaluator) (frame : Frame) (location : Span)
    (run : View → Recording α) : Step α :=
  ExceptT.mk fun progress =>
    let (outcome, reads) := (run (progress.view e.setting frame location)).run progress.reads
    (outcome, { progress with reads := reads })

/-- The reserved pair that records which fields were set in configuration. -/
def configuredFieldsKey : String := "_configured-fields"

/-- The reserved pair that records the dependencies of a resource. -/
def dependsOnKey : String := "_depends-on"

/-- The texts of a list, or a single text. -/
def textsOf : Value → List String
  | .text s => [s]
  | .list items => items.filterMap Value.asText?
  | _ => []

/-- What the body of a resource evaluated to. -/
structure EvaluatedBody where
  fields : Bindings
  credentials : Option String
  reads : List Key

/-- The keys that a recorded list of dependencies names. -/
def recordedKeys (origin : Span) : List String → Except EvalError (List Key)
  | [] => .ok []
  | text :: rest =>
    match Key.ofText text with
    | .error cause => .error (.invalidIdentity origin cause)
    | .ok key => do
      let keys ← recordedKeys origin rest
      .ok (key :: keys)

/-- Checks the names of fields against the schema. -/
def checkFields (mode : Mode) (schema : Schema) (key : Key) (origin : Span) :
    Bindings → Except EvalError Unit
  | [] => .ok ()
  | (name, _) :: rest =>
    match schema.field? name with
    | none => .error (.unknownField origin key name)
    | some spec =>
      if spec.output && mode = .configuration then .error (.outputField origin key name)
      else checkFields mode schema key origin rest

/-- The names of the fields that are not outputs. -/
def inputNames (schema : Schema) (fields : Bindings) : List String :=
  (Table.keys fields).filter fun name =>
    match schema.field? name with
    | some spec => !spec.output
    | none => false

/-- Adds the fields of the recorded resource that neither side configures. -/
def fillFrom (configured : List String) (recorded : Option Resource) (fields : Bindings) : Bindings :=
  match recorded with
  | none => fields
  | some resource =>
    resource.fields.foldl (fun all entry =>
      if configured.contains entry.1 || resource.configured.contains entry.1 ||
          Table.has all entry.1 then all
      else Table.set all entry.1 entry.2) fields

/-- The fields in schema order. -/
def inSchemaOrder (schema : Schema) (fields : Bindings) : Bindings :=
  (schema.foldl (fun (taken : Bindings × Bindings) spec =>
    match Table.get? taken.2 spec.name with
    | some value => (Table.set taken.1 spec.name value, Table.erase taken.2 spec.name)
    | none => taken) ([], fields)).1

/-- Makes a resource of what its body evaluated to. -/
def finishResource (setting : Setting) (key : Key) (type : ResourceType) (origin : Span)
    (body : EvaluatedBody) : Except EvalError Resource := do
  let inState := setting.mode = .state
  let recordedNames :=
    if inState then (Table.get? body.fields configuredFieldsKey).map textsOf else none
  let withoutNames := if inState then Table.erase body.fields configuredFieldsKey else body.fields
  let recordedTexts :=
    if inState then ((Table.get? withoutNames dependsOnKey).map textsOf).getD [] else []
  let raw := if inState then Table.erase withoutNames dependsOnKey else withoutNames
  let recorded ← recordedKeys origin recordedTexts
  checkFields setting.mode type.schema key origin raw
  let configured := Sorted.ofList (recordedNames.getD (inputNames type.schema raw))
  let handles := (Table.values raw).flatMap Value.handles
  let dependsOn := Sorted.erase key (Sorted.union (Sorted.union body.reads recorded) handles)
  let fields := fillFrom configured (setting.current.bind fun c => c.resource? key) raw
  let missing := type.schema.find? fun spec =>
    !spec.nullable && !spec.output && !Table.has fields spec.name
  match setting.mode, missing with
  | .configuration, some spec => .error (.missingField origin key spec.name)
  | _, _ =>
    .ok {
      key := key
      type := type
      fields := inSchemaOrder type.schema fields
      configured := configured
      credentials := body.credentials.getD defaultCredentials
      dependsOn := dependsOn
      origin := origin }

/-- Adds a resource to the inventory.  The same declaration evaluated again replaces it; any
other declaration of its key is an error. -/
def register (frame : Frame) (resource : Resource) : Step Unit := do
  let progress ← get
  let site : Site := ⟨frame.site, resource.origin⟩
  let clash :=
    match Table.get? progress.declared resource.key with
    | some first => if first = site then none else some first.location
    | none =>
      match progress.inventory.resource? resource.key with
      | some existing => if existing.origin = resource.origin then none else some existing.origin
      | none => none
  match clash with
  | some first => Step.fail (.duplicateResource resource.key first site.location)
  | none =>
    set { progress with
      inventory := progress.inventory.insertAt frame.file resource
      declared := Table.set progress.declared resource.key site }

/-- Runs the steps of a resource body in a scope inside the current one.  Pairs and blocks come
before directives, so that `@extends` never overrides a field that is set. -/
def resourceBody (frame : Frame) (steps : List (Bool × Step Unit)) : Step EvaluatedBody := do
  let plain := (steps.filter fun step => !step.1).map Prod.snd
  let directives := (steps.filter fun step => step.1).map Prod.snd
  let (scope, reads, credentials) ←
    Step.collecting (Step.inScope Scope.child (Step.body (plain ++ directives)))
  pure ⟨scope.fields, credentials, Sorted.union reads frame.inherited⟩

/-- Evaluates a resource block of a registered type and adds the resource. -/
def declareResource (e : Evaluator) (frame : Frame) (type : ResourceType) (name : String)
    (source : List Node) (span : Span) (steps : List (Bool × Step Unit)) : Step Unit := do
  let key ← Step.settled (keyAt span type.name (qualify frame.qualifier name))
  let body ← resourceBody frame steps
  let resource ← Step.settled (finishResource e.setting key type span body)
  let progress ← get
  let declaration : Option Declaration :=
    if e.setting.mode = .configuration then
      some ⟨source, progress.scope.flatten, frame.qualifier, frame.inherited⟩
    else none
  register frame { resource with declaration := declaration }

/-- Expands an instance: its block binds the parameters, then the body of the template runs in a
scope that holds only those. -/
def instantiate (e : Evaluator) (frame : Frame) (template : VirtualType) (name : String) (span : Span)
    (steps : List (Step Unit)) : Step Unit := do
  let (arguments, reads, _) ← Step.collecting (Step.inScope Scope.child (Step.body steps))
  let values := arguments.values
  match template.parameters.find? fun parameter => !Table.has values parameter with
  | some parameter => Step.fail (.missingParameter span template.name parameter)
  | none =>
    match (Table.keys values).find? fun name => !template.parameters.contains name with
    | some unknown => Step.fail (.unknownParameter span template.name unknown)
    | none =>
      let inner : Frame :=
        { file := frame.file
          qualifier := some (qualify frame.qualifier name)
          inResource := false
          inherited := Sorted.union frame.inherited reads
          site := frame.site ++ [.instance_ span] }
      let _ ← Step.inScope (fun _ => Scope.withValues values) (e.expand template inner span)
      pure ()

/-- Items in groups of `size`; the last group is filled up with nulls. -/
def chunks (size : Nat) : Nat → List Value → List (List Value)
  | 0, _ => []
  | _, [] => []
  | bound + 1, items =>
    let chunk := items.take size
    (chunk ++ List.replicate (size - chunk.length) .null) :: chunks size bound (items.drop size)

/-- The values that the variables of a loop take, iteration by iteration. -/
def iterations (d : Directive) (count : Nat) : Value → Except EvalError (List (List Value))
  | .list items => .ok (chunks count items.length items)
  | .map entries =>
    if 2 < count then
      .error (.invalidDirective d.span d.name "binds at most a key and a value over a map")
    else .ok (entries.map fun entry => [Value.text entry.1, entry.2].take count)
  | .null => .ok []
  | other => .error (.notIterable d.span other.label)

/-- The names of the loop variables. -/
def loopNames (d : Directive) : List Node → Except EvalError (List String)
  | [] => .ok []
  | node :: rest =>
    match node.asText? with
    | none => .error (.invalidDirective d.span d.name "loop variables must be plain names")
    | some name => do
      let names ← loopNames d rest
      .ok (name :: names)

/-- Runs the iterations of a loop, each in a scope of its own, and collects their blocks. -/
def runIterations (frame : Frame) (span : Span) (names : List String)
    (run : Frame → Step Unit) : Nat → List (List Value) → Step Blocks
  | _, [] => pure []
  | index, values :: rest => do
    let enter (scope : Scope) : Scope :=
      (names.zip values).foldl (fun s entry => s.put entry.1 entry.2) scope.child
    let inner := { frame with site := frame.site ++ [.iteration span index] }
    let scope ← Step.inScope enter (run inner)
    let later ← runIterations frame span names run (index + 1) rest
    pure (later.foldl (fun all entry => Blocks.append all entry.1 entry.2) scope.blocks)

/-- A loop: the blocks of its body reach the enclosing scope only when every iteration is done. -/
def runLoop (e : Evaluator) (frame : Frame) (d : Directive) (run : Frame → Step Unit) : Step Unit := do
  let names ← Step.settled (loopNames d d.arguments)
  if names.isEmpty then
    Step.fail (.invalidDirective d.span d.name "expects at least one loop variable")
  else
    match (d.clause? "in").bind fun clause => clause.arguments.head? with
    | none => Step.fail (.invalidDirective d.span d.name "expects `in <list or map>`")
    | some source =>
      let value ← e.reading frame d.span fun view => evaluate view source
      let rounds ← Step.settled (iterations d names.length value)
      let blocks ← runIterations frame d.span names run 0 rounds
      modify fun progress => { progress with scope := progress.scope.extendBlocks blocks }

/-- The fields of a resource that were set in configuration. -/
def configuredValues (inventory : Inventory) (key : Key) : Bindings :=
  match inventory.resource? key with
  | some resource => resource.fields.filter fun entry => resource.isConfigured entry.1
  | none => []

/-- The names that an `-exclude` argument lists. -/
def excludedNames (d : Directive) : Value → Except EvalError (List String)
  | .list items =>
    if items.all fun item => item.asText?.isSome then .ok (items.filterMap Value.asText?)
    else .error (.invalidDirective d.span d.name "`-exclude` expects field names")
  | .text name => .ok [name]
  | _ => .error (.invalidDirective d.span d.name "`-exclude` expects field names")

/-- Removes the entries that the arguments of `-exclude` name. -/
def exclude (e : Evaluator) (frame : Frame) (d : Directive) : List Node → Bindings → Step Bindings
  | [], entries => pure entries
  | argument :: rest, entries => do
    let value ← e.reading frame d.span fun view => evaluate view argument
    let names ← Step.settled (excludedNames d value)
    exclude e frame d rest (names.foldl (fun all name => Table.erase all name) entries)

/-- The bindings of a scope with further entries merged in. -/
def extendScope (scope : Scope) (entries : Bindings) : Scope :=
  entries.foldl (fun s entry =>
    match s.get? entry.1 with
    | some existing => s.put entry.1 (existing.merge entry.2)
    | none => s.put entry.1 entry.2) scope

/-- The entries that a value extends a scope with. -/
def extension (inventory : Inventory) (d : Directive) : Value → Except EvalError Bindings
  | .map entries => .ok entries
  | .resource key => .ok (configuredValues inventory key)
  | other => .error (.invalidDirective d.span d.name ("cannot extend a " ++ other.label))

/-- `@extends`: merges a map, or the set fields of a resource, into the scope. -/
def runExtends (e : Evaluator) (frame : Frame) (d : Directive) : Step Unit :=
  match d.arguments.head? with
  | none => Step.fail (.invalidDirective d.span d.name "expects a map or resource to extend")
  | some source => do
    let value ← e.reading frame d.span fun view => evaluate view source
    let progress ← get
    let entries ← Step.settled (extension progress.inventory d value)
    let excluded := ((d.clause? "exclude").map fun clause => clause.arguments).getD []
    let entries ← exclude e frame d excluded entries
    modify fun progress => { progress with scope := extendScope progress.scope entries }

/-- `@uses-credentials`: names the credentials of the resource around it. -/
def runCredentials (e : Evaluator) (frame : Frame) (d : Directive) : Step Unit :=
  if !frame.inResource then Step.fail (.misplacedDirective d.span d.name "outside a resource")
  else
    match d.arguments.head? with
    | none => Step.fail (.invalidDirective d.span d.name "expects a credentials name")
    | some argument => do
      let value ← e.reading frame d.span fun view => evaluate view argument
      match value with
      | .text name => modify fun progress => { progress with credentials := some name }
      | _ => Step.fail (.invalidDirective d.span d.name "expects a credentials name")

/-- The directives that define something for a whole file. -/
def isDefinitionName (name : String) : Bool :=
  name == "import" || name == "plugin" || name == "virtual" || name == "workflow"

/-- Whether a node is a directive. -/
def isDirective : Node → Bool
  | .directive _ => true
  | _ => false

mutual

/-- The step that a statement means in a frame. -/
def runStatement (e : Evaluator) : Node → Frame → Step Unit
  | .pair ⟨key, node, span⟩, frame => do
    let value ← e.reading frame span fun view => evaluate view node
    modify fun progress => { progress with scope := progress.scope.put key value }
  | .resource typeText name source span, frame => do
    let type ← Step.settled (typeAt span typeText)
    let name ← e.reading frame span fun view => do
      let value ← evaluate view name
      nameOf view value
    let progress ← get
    match progress.inventory.virtual? type with
    | some template =>
      instantiate e frame template name span
        (runStatements e source { frame with inResource := false })
    | none =>
      match progress.inventory.registry.type? type with
      | none => Step.fail (.unknownType span type)
      | some type =>
        declareResource e frame type name source span
          (runMarked e source { frame with inResource := true })
  | .block key source span, frame =>
    if !frame.inResource then Step.fail (.misplacedBlock span key)
    else do
      let scope ← Step.inScope Scope.child (Step.body (runStatements e source frame))
      modify fun progress => { progress with scope := progress.scope.addBlock key (.map scope.fields) }
  | .directive d, frame => runDirective e d frame
  | .null, _ => Step.fail (.unexpectedNode Span.generated "a statement" "a literal")
  | .bool _, _ => Step.fail (.unexpectedNode Span.generated "a statement" "a literal")
  | .number _, _ => Step.fail (.unexpectedNode Span.generated "a statement" "a literal")
  | .text _, _ => Step.fail (.unexpectedNode Span.generated "a statement" "a literal")
  | .interpolated _, _ => Step.fail (.unexpectedNode Span.generated "a statement" "a string")
  | .list _, _ => Step.fail (.unexpectedNode Span.generated "a statement" "a list")
  | .map _, _ => Step.fail (.unexpectedNode Span.generated "a statement" "a map")
  | .var _ span, _ => Step.fail (.unexpectedNode span "a statement" "a reference")
  | .ref _ _ _ span, _ => Step.fail (.unexpectedNode span "a statement" "a reference")
  | .binary _ _ _, _ => Step.fail (.unexpectedNode Span.generated "a statement" "an expression")

/-- The steps of several statements. -/
def runStatements (e : Evaluator) : List Node → Frame → List (Step Unit)
  | [], _ => []
  | node :: rest, frame => runStatement e node frame :: runStatements e rest frame

/-- The steps of several statements, each with whether it is a directive. -/
def runMarked (e : Evaluator) : List Node → Frame → List (Bool × Step Unit)
  | [], _ => []
  | node :: rest, frame => (isDirective node, runStatement e node frame) :: runMarked e rest frame

/-- The step that a directive means. -/
def runDirective (e : Evaluator) : Directive → Frame → Step Unit
  | ⟨name, arguments, clauses, bodyless, body, branches, span⟩, frame =>
    let d : Directive := ⟨name, arguments, clauses, bodyless, body, branches, span⟩
    if name = "if" then
      match arguments.head? with
      | none => Step.fail (.invalidDirective span name "expects a condition")
      | some condition => do
        let value ← e.reading frame span fun view => evaluate view condition
        if value.isTruthy then Step.body (runStatements e body frame)
        else runBranches e span branches frame
    else if name = "for" then
      runLoop e frame d fun inner => Step.sequence (runStatements e body inner)
    else if name = "extends" then runExtends e frame d
    else if name = "uses-credentials" then runCredentials e frame d
    else if isDefinitionName name then Step.fail (.misplacedDirective span name "inside a block")
    else if name = "param" then Step.fail (.misplacedDirective span name "outside `@virtual`")
    else if name = "stage" then Step.fail (.misplacedDirective span name "outside `@workflow`")
    else Step.fail (.unknownDirective span name)

/-- The first branch without a guard, or with one that holds. -/
def runBranches (e : Evaluator) (span : Span) : List Branch → Frame → Step Unit
  | [], _ => pure ()
  | ⟨_, arguments, body, _⟩ :: rest, frame =>
    match arguments.head? with
    | none => Step.body (runStatements e body frame)
    | some condition => do
      let value ← e.reading frame span fun view => evaluate view condition
      if value.isTruthy then Step.body (runStatements e body frame)
      else runBranches e span rest frame

end

/-- The evaluator that may nest instances to the given depth. -/
def Evaluator.atDepth (setting : Setting) : Nat → Evaluator
  | 0 => ⟨setting, fun template _ span => Step.fail (.nestedInstances span template.name)⟩
  | depth + 1 =>
    ⟨setting, fun template frame _ =>
      Step.body (runStatements (Evaluator.atDepth setting depth) template.body frame)⟩

end Provision

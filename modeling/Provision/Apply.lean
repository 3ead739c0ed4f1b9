import Provision.Evaluation.Passes
import Provision.Plan.Diff
import Provision.Provider
import Provision.State.Error
import Provision.State.Rendering

/-!
# Applying a plan

Carries out a plan one group at a time.  Every change evaluates its resource
again, calls the provider, notes the outcome in both inventories and saves the
state before the next change begins.
-/

namespace Provision

/-- Why a change fails. -/
inductive ApplyError where
  | provider (action : String) (key : Key) (message : String)
  | unsupported (key : Key) (action : String)
  | missingResource (key : Key) (side : String)
  | stage (workflow stage : String) (cause : ApplyError)
  | state (error : StateError)
  | eval (error : EvalError)

/-- The wording of the failure of a change. -/
def ApplyError.message : ApplyError → String
  | provider action key text => "failed to " ++ action ++ " " ++ key.text ++ ": " ++ text
  | unsupported key action => key.text ++ ": resource type cannot " ++ action
  | missingResource key side => key.text ++ " is missing from the " ++ side ++ " graph"
  | stage workflow name cause =>
    "workflow `" ++ workflow ++ "` stopped at stage `" ++ name ++ "`: " ++ cause.message
  | state e => e.message
  | eval e => e.message

/-- The two inventories that a run brings together, and the world it acts on. -/
structure Run (ω : Type) where
  pending : Inventory
  state : Inventory
  world : ω

/-- A part of a run that may fail; what was done before the failure stays done. -/
abbrev RunStep (ω : Type) := ExceptT ApplyError (StateM (Run ω))

/-- What a run acts through: the provider of the resources and the place where state is saved. -/
structure Backing (ω : Type) where
  provider : Provider ω
  save : Inventory → ω → Except StateError Unit × ω

variable {ω : Type}

namespace RunStep

/-- Ends with a failure. -/
def fail {α : Type} (error : ApplyError) : RunStep ω α :=
  throw error

/-- Acts on the world. -/
def act {α : Type} (action : ω → α × ω) : RunStep ω α :=
  ExceptT.mk fun run =>
    let (a, world) := action run.world
    (.ok a, { run with world := world })

end RunStep

/-- Evaluates the declaration of a resource again against what the run has brought about. -/
def refreshDeclaration (key : Key) : RunStep ω Unit :=
  ExceptT.mk fun run =>
    let (outcome, pending) := reevaluate instanceDepth run.pending run.state key
    (outcome.mapError ApplyError.eval, { run with pending := pending })

/-- Notes a resource with the fields that the provider returned, in both inventories. -/
def noteResource (file : Path) (resource : Resource) (fields : Bindings) : RunStep ω Unit :=
  modify fun run =>
    let noted := { resource with fields := fields }
    { run with
      pending := run.pending.insert file noted
      state := run.state.insert file noted }

/-- Creates the pending resource with a key. -/
def createResource (backing : Backing ω) (key : Key) : RunStep ω Unit := do
  let run ← get
  match run.pending.fileOf? key, run.pending.resource? key with
  | some file, some resource =>
    if !resource.type.capabilities.create then RunStep.fail (.unsupported key "create")
    else
      let (outcome, fields) ← RunStep.act (backing.provider.create resource.call resource.fields)
      match outcome with
      | .error message => RunStep.fail (.provider "create" key message)
      | .ok () => noteResource file resource fields
  | _, _ => RunStep.fail (.missingResource key "pending")

/-- Changes the recorded resource with a key into the pending one, in place. -/
def updateResource (backing : Backing ω) (key : Key) : RunStep ω Unit := do
  let run ← get
  match run.pending.fileOf? key with
  | none => RunStep.fail (.missingResource key "pending")
  | some file =>
    match run.pending.resource? key, run.state.resource? key with
    | some resource, some existing =>
      if !resource.type.capabilities.update then RunStep.fail (.unsupported key "update")
      else
        let changed := (changedFields resource existing).map FieldChange.field
        let (outcome, fields) ← RunStep.act
          (backing.provider.update resource.call existing.fields resource.fields changed)
        match outcome with
        | .error message => RunStep.fail (.provider "update" key message)
        | .ok () => noteResource file resource fields
    | _, _ => RunStep.fail (.missingResource key "current")

/-- Deletes the recorded resource with a key; nothing is done when there is none. -/
def deleteResource (backing : Backing ω) (key : Key) : RunStep ω Unit := do
  let run ← get
  match run.state.resource? key with
  | none => pure ()
  | some resource =>
    if !resource.type.capabilities.delete then RunStep.fail (.unsupported key "delete")
    else
      let outcome ← RunStep.act (backing.provider.delete resource.call resource.fields)
      match outcome with
      | .error message => RunStep.fail (.provider "delete" key message)
      | .ok () => modify fun run => { run with state := run.state.remove key }

/-- The imports to record for a file: those that the configuration declares, and those recorded
before whose files still hold something. -/
def recordedImports (declared recorded : Option FileScope) (state : Inventory) : List Path :=
  let fresh := (declared.map FileScope.imports).getD []
  ((recorded.map FileScope.imports).getD []).foldl (fun imports path =>
    let populated := (state.file? path).any fun file => !file.isEmpty
    if populated && !path.isIn imports then imports ++ [path] else imports) fresh

/-- Carries the imports and plugins of one file over to the state. -/
def carryDeclarations (pending : Inventory) (state : Inventory) (path : Path) : Inventory :=
  let declared := pending.file? path
  let recorded := state.file? path
  let imports := recordedImports declared recorded state
  let plugins := ((declared.or recorded).map FileScope.plugins).getD []
  let (state, index) := state.ensureFile path
  state.modifyFile index fun file => { file with imports := imports, plugins := plugins }

/-- The paths of the files of the state, and of the pending files it lacks. -/
def declarationPaths (pending state : Inventory) : List Path :=
  pending.files.foldl (fun paths file =>
    if paths.any fun path => path.same file.path then paths else paths ++ [file.path])
    (state.files.map FileScope.path)

/-- The state with the imports and plugins of the configuration. -/
def withDeclarations (pending state : Inventory) : Inventory :=
  (declarationPaths pending state).foldl (carryDeclarations pending) state

/-- Carries the declarations of the configuration over to the state and saves it. -/
def persist (backing : Backing ω) : RunStep ω Unit := do
  modify fun run => { run with state := withDeclarations run.pending run.state }
  let run ← get
  let outcome ← RunStep.act (backing.save run.state)
  match outcome with
  | .ok () => pure ()
  | .error e => RunStep.fail (.state e)

/-- Runs one stage of a workflow and saves the state. -/
def runStage (backing : Backing ω) (key : Key) (stage : Stage) : RunStep ω Unit := do
  match stage.action with
  | .create => createResource backing key
  | .delete => deleteResource backing key
  persist backing

/-- What executing a change led to. -/
structure Executed where
  stages : List String
  outcome : Except ApplyError Bool

/-- Runs the stages of a workflow in order.  Answers the names of those completed, and the failure
that stopped them. -/
def runStages (backing : Backing ω) (key : Key) (workflow : String) :
    List Stage → StateM (Run ω) (List String × Option ApplyError)
  | [] => pure ([], none)
  | stage :: rest => do
    match ← (runStage backing key stage).run with
    | .error cause => pure ([], some (.stage workflow stage.name cause))
    | .ok () =>
      let (names, failure) ← runStages backing key workflow rest
      pure (stage.name :: names, failure)

/-- A change whose steps have no stages. -/
def executePlain (step : RunStep ω Unit) : StateM (Run ω) Executed := do
  match ← step.run with
  | .ok () => pure ⟨[], .ok true⟩
  | .error e => pure ⟨[], .error e⟩

/-- Executes one change.  The outcome is whether it was applied; a replacement without a workflow
is not. -/
def executeChange (backing : Backing ω) (change : PlannedChange) : StateM (Run ω) Executed := do
  let key := change.key
  match change.kind with
  | .create => executePlain do
      refreshDeclaration key
      createResource backing key
      persist backing
  | .update => executePlain do
      refreshDeclaration key
      updateResource backing key
      persist backing
  | .delete => executePlain do
      deleteResource backing key
      persist backing
  | .replace =>
    let run ← get
    match run.pending.workflowFor? key.type with
    | none => pure ⟨[], .ok false⟩
    | some workflow =>
      match ← (refreshDeclaration key).run with
      | .error e => pure ⟨[], .error e⟩
      | .ok () =>
        let (stages, failure) ← runStages backing key workflow.name workflow.stages
        match failure with
        | some e => pure ⟨stages, .error e⟩
        | none => pure ⟨stages, .ok true⟩

/-- The account of a change. -/
def resultFor (change : PlannedChange) (status : ChangeStatus) (stages : List String)
    (error : Option String) : ChangeResult :=
  ⟨change.id, change.kind, change.key, status, stages, error⟩

/-- The account of some changes: what became of each, and the error lines. -/
structure Account where
  results : List ChangeResult
  errors : List String

/-- Two accounts one after the other. -/
def Account.append (a b : Account) : Account :=
  ⟨a.results ++ b.results, a.errors ++ b.errors⟩

/-- The note that the rest of a group was not attempted. -/
def abortNote (group : ChangeGroup) (remaining : Nat) : String :=
  group.text ++ " changes aborted after first failure due to fail-fast (" ++ toString remaining ++
    " change(s) not attempted)"

/-- Executes the changes of an approved group in order. -/
def runChanges (backing : Backing ω) (failFast : Bool) (group : ChangeGroup) :
    List PlannedChange → StateM (Run ω) Account
  | [] => pure ⟨[], []⟩
  | change :: rest => do
    let executed ← executeChange backing change
    match executed.outcome with
    | .ok true => do
      let later ← runChanges backing failFast group rest
      pure (Account.append ⟨[resultFor change .applied executed.stages none], []⟩ later)
    | .ok false => do
      let later ← runChanges backing failFast group rest
      pure (Account.append ⟨[resultFor change .skipped executed.stages change.hint], []⟩ later)
    | .error e =>
      let message := e.message
      let failed : Account :=
        ⟨[resultFor change .failed executed.stages (some message)],
          ["change " ++ toString change.id ++ " failed: " ++ message]⟩
      if failFast then
        pure (failed.append
          ⟨rest.map fun other => resultFor other .skipped [] none, [abortNote group rest.length]⟩)
      else do
        let later ← runChanges backing failFast group rest
        pure (failed.append later)

/-- Runs one group, when it is not empty and is approved. -/
def runGroup (backing : Backing ω) (approve : ChangeGroup → List PlannedChange → Bool)
    (failFast : Bool) (plan : Plan) (group : ChangeGroup) : StateM (Run ω) Account :=
  let changes := plan.changesIn group
  if changes.isEmpty then pure ⟨[], []⟩
  else if approve group changes then runChanges backing failFast group changes
  else pure ⟨changes.map fun change => resultFor change .declined [] none, []⟩

/-- Runs the given groups in order. -/
def runGroups (backing : Backing ω) (approve : ChangeGroup → List PlannedChange → Bool)
    (failFast : Bool) (plan : Plan) : List ChangeGroup → StateM (Run ω) Account
  | [] => pure ⟨[], []⟩
  | group :: rest => do
    let account ← runGroup backing approve failFast plan group
    let later ← runGroups backing approve failFast plan rest
    pure (account.append later)

/-- Carries out a plan.  What was applied is never rolled back; a failure ends its group when
`failFast` is set, and later groups still run. -/
def applyPlan (backing : Backing ω) (approve : ChangeGroup → List PlannedChange → Bool)
    (failFast : Bool) (plan : Plan) (run : Run ω) : ApplyReport × Run ω :=
  let (account, after) := (runGroups backing approve failFast plan ChangeGroup.all).run run
  (⟨plan, account.results, account.errors⟩, after)

end Provision

import Provision.Evaluation.Definitions
import Provision.Language.Printer

/-!
# Evaluation in passes

The statements of all files are tried in order, pass after pass.  A pass that
gets nothing done ends the evaluation, unless every stuck statement only waits
for a type to be fully declared: then one further pass answers type queries from
what is there.
-/

namespace Provision

open Provision.Language (Node SourceFile)

/-- A statement to be evaluated: the file it stands in, by its place among the sources and in the
inventory. -/
structure Task where
  source : Nat
  file : Nat
  node : Node

/-- The place of a statement. -/
def statementSpan (node : Node) : Span :=
  node.span?.getD Span.generated

/-- How a stuck statement is called. -/
def statementLabel : Node → String
  | .resource type name _ _ =>
    match name with
    | .text s => type ++ " " ++ s
    | other => type ++ " " ++ other.print
  | .pair entry => entry.key ++ ":"
  | .block key _ _ => key
  | .directive d => "@" ++ d.name
  | other => other.print

/-- The key that a statement declares, when it is a resource with a literal name. -/
def statementKey : Node → Option Key
  | .resource type (.text name) _ _ =>
    match TypeName.ofText type with
    | .ok type => (Key.make type name).toOption
    | .error _ => none
  | _ => none

/-- Where evaluation stands between two passes. -/
structure Round where
  inventory : Inventory
  declared : Table Key Site
  /-- The bindings of each source file. -/
  scopes : List Scope
  /-- The types that each unfinished statement may declare, by its place. -/
  unfinished : Table Span (List TypeName)
  /-- Type queries are answered although declarations may be missing. -/
  settling : Bool
  tasks : List Task

/-- The types that unfinished statements other than the one at `span` may declare. -/
def undeclaredBesides (unfinished : Table Span (List TypeName)) (span : Span) : List TypeName :=
  (unfinished.filter fun entry => entry.1 ≠ span).flatMap Prod.snd

/-- A statement that was deferred in a pass. -/
structure Deferred where
  task : Task
  stuck : StuckStatement

/-- How an evaluation is set up. -/
structure EvaluationSetup where
  mode : Mode
  current : Option Inventory
  /-- How deeply instances of templates may nest. -/
  depth : Nat

/-- Tries one statement.  Answers its deferral, if it has one. -/
def Round.attempt (setup : EvaluationSetup) (round : Round) (task : Task) :
    Except EvalError (Round × Option Deferred) :=
  let span := statementSpan task.node
  let undeclared := if round.settling then [] else undeclaredBesides round.unfinished span
  let evaluator := Evaluator.atDepth ⟨setup.mode, setup.current, undeclared⟩ setup.depth
  let progress : Progress :=
    ⟨round.inventory, round.declared, (round.scopes[task.source]?).getD {}, [], none⟩
  let (outcome, after) := (runStatement evaluator task.node { file := task.file }).run progress
  let next := { round with
    inventory := after.inventory
    declared := after.declared
    scopes := round.scopes.set task.source after.scope }
  match outcome with
  | .ok () => .ok ({ next with unfinished := Table.erase next.unfinished span }, none)
  | .error (.deferred reasons) =>
    .ok (next, some ⟨task,
      ⟨span, statementLabel task.node, statementKey task.node, dedupeDeferrals reasons⟩⟩)
  | .error (.failed e) => .error e

/-- Tries several statements in order.  Answers the deferred ones. -/
def Round.sweep (setup : EvaluationSetup) : Round → List Task → Except EvalError (Round × List Deferred)
  | round, [] => .ok (round, [])
  | round, task :: rest => do
    let (round, deferred) ← round.attempt setup task
    let (round, others) ← round.sweep setup rest
    .ok (round, deferred.toList ++ others)

/-- Whether deferrals only wait for types to be fully declared. -/
def onlyTypeQueries (deferred : List Deferred) : Bool :=
  deferred.all fun d => d.stuck.deferrals.all fun deferral =>
    match deferral.reason with
    | .pendingType _ => true
    | _ => false

/-- What a pass leads to. -/
inductive PassResult where
  | finished (round : Round)
  | again (round : Round)
  | stuck (round : Round) (statements : List StuckStatement)
  | failed (error : EvalError)

/-- One pass over the remaining statements. -/
def Round.pass (setup : EvaluationSetup) (round : Round) : PassResult :=
  match round.sweep setup round.tasks with
  | .error e => .failed e
  | .ok (after, deferred) =>
    let after := { after with tasks := deferred.map Deferred.task }
    if deferred.isEmpty then .finished after
    else if deferred.length = round.tasks.length then
      if round.settling || !onlyTypeQueries deferred then
        .stuck after (deferred.map Deferred.stuck)
      else .again { after with settling := true }
    else .again { after with settling := false }

/-- Makes passes until one is the last; `bound` is the number of passes allowed. -/
def Round.run (setup : EvaluationSetup) : (bound : Nat) → Round → Except EvalError Round
  | 0, _ => .error (.ofStuck [])
  | bound + 1, round =>
    match round.pass setup with
    | .finished after => .ok after
    | .again after => after.run setup bound
    | .stuck _ statements => .error (.ofStuck statements)
    | .failed e => .error e

/-- A bound on the number of passes: every second pass gets a statement done. -/
def passBound (tasks : List Task) : Nat :=
  2 * tasks.length + 1

/-- Makes a file of the inventory for every source.  Answers their positions. -/
def ensureFiles : Inventory → List SourceFile → Inventory × List Nat
  | inventory, [] => (inventory, [])
  | inventory, file :: rest =>
    let (inventory, index) := inventory.ensureFile ⟨file.path⟩
    let (inventory, indices) := ensureFiles inventory rest
    (inventory, index :: indices)

/-- Takes up the definitions of every source. -/
def takeAllDefinitions : Inventory → List (SourceFile × Nat) → Except EvalError Inventory
  | inventory, [] => .ok inventory
  | inventory, (file, index) :: rest => do
    let inventory ← takeDefinitions ⟨file.path⟩ index inventory file.body
    takeAllDefinitions inventory rest

/-- The statements of some sources that are not definitions. -/
def tasksOf (sources : List (SourceFile × Nat)) : List Task :=
  sources.zipIdx.flatMap fun entry =>
    (entry.1.1.body.filter fun node => !isDefinition node).map fun node =>
      ⟨entry.2, entry.1.2, node⟩

/-- The types that each statement may declare, by the place of the statement. -/
def unfinishedOf (inventory : Inventory) (tasks : List Task) : Table Span (List TypeName) :=
  tasks.foldl (fun table task =>
    let types := declaredTypes inventory task.node
    if types.isEmpty then table else Table.set table (statementSpan task.node) types) []

/-- The state before the first pass. -/
def Round.start (inventory : Inventory) (files : List SourceFile) : Except EvalError (Round × List Nat) := do
  let (inventory, indices) := ensureFiles inventory files
  let sources := files.zip indices
  let inventory ← takeAllDefinitions inventory sources
  let tasks := tasksOf sources
  .ok (⟨inventory, [], files.map fun _ => {}, unfinishedOf inventory tasks, false, tasks⟩, indices)

/-- The inventory of a finished evaluation, with the bindings of each file. -/
def Round.result (round : Round) (indices : List Nat) : Inventory :=
  (round.scopes.zip indices).foldl (fun inventory entry =>
    inventory.modifyFile entry.2 fun file => { file with bindings := entry.1.values })
    round.inventory

/-- Evaluates files into an inventory. -/
def evaluateFiles (setup : EvaluationSetup) (inventory : Inventory) (files : List SourceFile) :
    Except EvalError Inventory := do
  let (round, indices) ← Round.start inventory files
  let round ← round.run setup (passBound round.tasks)
  .ok (round.result indices)

/-- How deeply instances of templates may nest. -/
def instanceDepth : Nat := 10000

/-- Evaluates configuration.  Fields left unset are filled from the recorded inventory. -/
def evaluateConfiguration (registry : Registry) (current : Option Inventory)
    (files : List SourceFile) : Except EvalError Inventory :=
  evaluateFiles ⟨.configuration, current, instanceDepth⟩ (.empty registry) files

/-- Evaluates recorded state: reserved pairs are read and outputs are accepted. -/
def evaluateState (registry : Registry) (files : List SourceFile) : Except EvalError Inventory :=
  evaluateFiles ⟨.state, none, instanceDepth⟩ (.empty registry) files

/-- Evaluates the declaration of a resource again, so that references see outputs produced since.
A resource that was not evaluated from a declaration is left as it is.  What nested blocks have
registered stays, also when the body fails. -/
def reevaluate (depth : Nat) (pending current : Inventory) (key : Key) :
    Except EvalError Unit × Inventory :=
  match pending.resource? key, pending.fileIndexOf? key with
  | some resource, some file =>
    match resource.declaration with
    | none => (.ok (), pending)
    | some declaration =>
      let setting : Setting := ⟨.configuration, some current, []⟩
      let evaluator := Evaluator.atDepth setting depth
      let frame : Frame :=
        ⟨file, declaration.qualifier, true, declaration.inherited, []⟩
      let progress : Progress := ⟨pending, [], Scope.withValues declaration.bindings, [], none⟩
      let (outcome, after) :=
        (resourceBody frame (runMarked evaluator declaration.body frame)).run progress
      match outcome with
      | .error (.failed e) => (.error e, after.inventory)
      | .error (.deferred reasons) =>
        (.error (.unresolvable
          [⟨resource.origin, key.text, some key, dedupeDeferrals reasons⟩] []), after.inventory)
      | .ok body =>
        match finishResource setting key resource.type resource.origin body with
        | .error e => (.error e, after.inventory)
        | .ok again =>
          (.ok (), after.inventory.insertAt file { again with declaration := some declaration })
  | _, _ => (.ok (), pending)

end Provision

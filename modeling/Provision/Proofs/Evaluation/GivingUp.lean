import Provision.Proofs.Evaluation.AtOnce
import Provision.Proofs.Evaluation.Sound

/-!
# When evaluation gives up

Evaluation ends with an account of stuck statements only after a pass that got
nothing done.  If nothing is left of a deferred attempt, that pass has changed
nothing, so that one more pass over the same statements would end in the same
way.  A loop can leave something behind, though: then evaluation gives up on
statements that would get done if they were tried once more.
-/

namespace Provision

open Provision.Language (Node Directive SourceFile)

/-! ## Failures of definitions -/

section Definitions

theorem failsAs_literalArgument (d : Directive) :
    FailsAs EvalError.IsLocal (literalArgument d) := by
  unfold literalArgument
  split
  · exact failsAs_ok _
  · exact failsAs_error trivial

theorem failsAs_ofDirective (d : Directive) : FailsAs EvalError.IsLocal (Stage.ofDirective d) := by
  unfold Stage.ofDirective
  dsimp only
  split
  · exact failsAs_error trivial
  · split
    · exact failsAs_ok _
    · exact failsAs_ok _
    · exact failsAs_error trivial

theorem failsAs_stagesOf (d : Directive) (nodes : List Node) :
    FailsAs EvalError.IsLocal (stagesOf d nodes) := by
  induction nodes with
  | nil => exact failsAs_ok _
  | cons node rest ih =>
    cases node with
    | directive line =>
      unfold stagesOf
      split
      · exact (failsAs_ofDirective line).bind fun _ => ih.bind fun _ => failsAs_ok _
      · exact failsAs_error trivial
    | _ => exact failsAs_error trivial

theorem failsAs_workflow (d : Directive) : FailsAs EvalError.IsLocal (Workflow.ofDirective d) := by
  unfold Workflow.ofDirective
  split
  · exact failsAs_error trivial
  · split
    · exact failsAs_error trivial
    · refine (failsAs_typeAt _ _).bind fun _ => (failsAs_stagesOf _ _).bind fun stages => ?_
      split
      · exact failsAs_error trivial
      · exact failsAs_ok _

theorem failsAs_parametersOf (nodes : List Node) :
    FailsAs EvalError.IsLocal (parametersOf nodes) := by
  induction nodes with
  | nil => exact failsAs_ok _
  | cons node rest ih =>
    cases node with
    | directive d =>
      unfold parametersOf
      split
      · exact (failsAs_literalArgument d).bind fun _ => ih.bind fun _ => failsAs_ok _
      · exact ih
    | _ => exact ih

theorem failsAs_defineVirtual (inventory : Inventory) (d : Directive) :
    FailsAs EvalError.IsLocal (defineVirtual inventory d) := by
  unfold defineVirtual
  refine (failsAs_literalArgument d).bind fun _ => (failsAs_typeAt _ _).bind fun type => ?_
  split
  · exact failsAs_error trivial
  · split
    · exact failsAs_error trivial
    · exact (failsAs_parametersOf _).bind fun _ => failsAs_ok _

theorem failsAs_takeDefinition (path : Path) (index : Nat) (inventory : Inventory) (d : Directive) :
    FailsAs EvalError.IsLocal (takeDefinition path index inventory d) := by
  unfold takeDefinition
  split
  · exact (failsAs_literalArgument d).bind fun _ => failsAs_ok _
  · split
    · refine (failsAs_literalArgument d).bind fun _ => ?_
      split
      · exact failsAs_ok _
      · exact failsAs_error trivial
    · split
      · exact failsAs_defineVirtual inventory d
      · split
        · exact (failsAs_workflow d).bind fun _ => failsAs_ok _
        · exact failsAs_ok _

theorem failsAs_takeDefinitions (path : Path) (index : Nat) (inventory : Inventory)
    (nodes : List Node) :
    FailsAs EvalError.IsLocal (takeDefinitions path index inventory nodes) := by
  induction nodes generalizing inventory with
  | nil => exact failsAs_ok _
  | cons node rest ih =>
    cases node with
    | directive d => exact (failsAs_takeDefinition path index inventory d).bind fun _ => ih _
    | _ => exact ih inventory

theorem failsAs_takeAllDefinitions (inventory : Inventory) (sources : List (SourceFile × Nat)) :
    FailsAs EvalError.IsLocal (takeAllDefinitions inventory sources) := by
  induction sources generalizing inventory with
  | nil => exact failsAs_ok _
  | cons source rest ih => exact (failsAs_takeDefinitions _ _ _ _).bind fun _ => ih _

theorem failsAs_start (inventory : Inventory) (files : List SourceFile) :
    FailsAs EvalError.IsLocal (Round.start inventory files) :=
  (failsAs_takeAllDefinitions _ _).bind fun _ => failsAs_ok _

end Definitions

/-! ## Passes that get nothing done -/

namespace Round

variable {setup : EvaluationSetup} {round after last : Round} {task : Task} {tasks : List Task}
variable {deferred : List Deferred} {stuck : List StuckStatement}

theorem failsAs_attempt (setup : EvaluationSetup) (round : Round) (task : Task) :
    FailsAs EvalError.IsCause (round.attempt setup task) := by
  rw [attempt_eq]
  split
  · exact failsAs_ok _
  · exact failsAs_ok _
  · next error q hrun =>
    exact failsAs_error (runStatement_caused (atDepth_caused _ _) _ _ _ _ _ hrun)

theorem failsAs_sweep (setup : EvaluationSetup) (round : Round) (tasks : List Task) :
    FailsAs EvalError.IsCause (round.sweep setup tasks) := by
  induction tasks generalizing round with
  | nil => exact failsAs_ok _
  | cons task rest ih =>
    rw [sweep_cons]
    exact (failsAs_attempt setup round task).bind fun _ => (ih _).bind fun _ => failsAs_ok _

/-- What is deferred in a pass are some of its statements, in their order. -/
theorem sweep_sublist (h : round.sweep setup tasks = .ok (after, deferred)) :
    (deferred.map Deferred.task).Sublist tasks := by
  induction tasks generalizing round deferred with
  | nil =>
    cases h
    exact List.Sublist.slnil
  | cons task rest ih =>
    rw [sweep_cons] at h
    obtain ⟨⟨between, first⟩, hfirst, h⟩ := bind_eq_ok.1 h
    obtain ⟨⟨swept, others⟩, hrest, h⟩ := bind_eq_ok.1 h
    cases h
    cases first with
    | none => exact (ih hrest).cons task
    | some d =>
      have htask := task_of_deferred hfirst
      subst htask
      exact (ih hrest).cons_cons d.task

/-- The deferral of a statement tells where the statement stands. -/
theorem span_of_attempt {d : Deferred} (h : round.attempt setup task = .ok (after, some d)) :
    d.stuck.span = statementSpan task.node := by
  rw [attempt_eq] at h
  split at h
  · cases h
  · cases h
    rfl
  · cases h

theorem spans_of_sweep (h : round.sweep setup tasks = .ok (after, deferred)) :
    ∀ d ∈ deferred, d.stuck.span = statementSpan d.task.node := by
  induction tasks generalizing round deferred with
  | nil =>
    cases h
    intro d hd
    cases hd
  | cons task rest ih =>
    rw [sweep_cons] at h
    obtain ⟨⟨between, first⟩, hfirst, h⟩ := bind_eq_ok.1 h
    obtain ⟨⟨swept, others⟩, hrest, h⟩ := bind_eq_ok.1 h
    cases h
    intro d hd
    rcases List.mem_append.1 hd with hd | hd
    · rw [Option.mem_toList] at hd
      subst hd
      rw [span_of_attempt hfirst, task_of_deferred hfirst]
    · exact ih hrest d hd

theorem set_getD_getElem? {α : Type} (items : List α) (index : Nat) (default : α) :
    items.set index ((items[index]?).getD default) = items := by
  by_cases hindex : index < items.length
  · rw [List.getElem?_eq_getElem hindex, Option.getD_some, List.set_getElem_self]
  · rw [List.set_eq_of_length_le (Nat.le_of_not_lt hindex)]

/-- Nothing is left of a deferred attempt at a statement that is done at once. -/
theorem attempt_deferred (hatonce : AtOnce round.inventory.virtuals task.node) {d : Deferred}
    (h : round.attempt setup task = .ok (after, some d)) :
    after = round := by
  obtain ⟨upshot, -, hresult⟩ :=
    hatonce.statement ⟨setup.mode, setup.current, round.undeclared task⟩ setup.depth
      { file := task.file } (round.progress task) rfl rfl
  have hresult : upshot.Result (round.progress task)
      ((runStatement (setup.evaluator (round.undeclared task)) task.node
        { file := task.file }).run (round.progress task)) := hresult round.declared
  rw [attempt_eq] at h
  split at h
  · cases h
  · next reasons q hrun =>
    cases h
    rw [hrun] at hresult
    cases hresult with
    | waits hinventory hdeclared hscope =>
      unfold keeping
      rw [hinventory, hdeclared, hscope]
      unfold progress
      dsimp only
      rw [set_getD_getElem?]
  · cases h

/-- A pass that gets none of its statements done has changed nothing. -/
theorem sweep_idle (hatonce : ∀ task ∈ tasks, AtOnce round.inventory.virtuals task.node)
    (h : round.sweep setup tasks = .ok (after, deferred))
    (hlength : deferred.length = tasks.length) :
    after = round := by
  induction tasks generalizing round deferred with
  | nil =>
    cases h
    rfl
  | cons task rest ih =>
    rw [sweep_cons] at h
    obtain ⟨⟨between, first⟩, hfirst, h⟩ := bind_eq_ok.1 h
    obtain ⟨⟨swept, others⟩, hrest, h⟩ := bind_eq_ok.1 h
    cases h
    cases first with
    | none =>
      have hle := (sweep_sublist hrest).length_le
      rw [List.length_map] at hle
      simp only [Option.toList_none, List.nil_append, List.length_cons] at hlength
      omega
    | some d =>
      obtain rfl := attempt_deferred (hatonce task List.mem_cons_self) hfirst
      refine ih (fun other hother => hatonce other (List.mem_cons_of_mem _ hother)) hrest ?_
      simpa using hlength

theorem tasks_of_sweep (h : round.sweep setup tasks = .ok (after, deferred))
    (hlength : deferred.length = tasks.length) :
    deferred.map Deferred.task = tasks :=
  (sweep_sublist h).eq_of_length (by rw [List.length_map, hlength])

/-! ## What a pass leads to -/

/-- What one pass can lead to, told by how the statements fare in it. -/
inductive Passes (setup : EvaluationSetup) (round : Round) : PassResult → Prop
  | failed {e : EvalError} (hsweep : round.sweep setup round.tasks = .error e) :
      Passes setup round (.failed e)
  | finished {after : Round} (hsweep : round.sweep setup round.tasks = .ok (after, [])) :
      Passes setup round (.finished { after with tasks := [] })
  | again {after : Round} {deferred : List Deferred}
      (hsweep : round.sweep setup round.tasks = .ok (after, deferred)) (hne : deferred ≠ [])
      (hless : deferred.length < round.tasks.length) :
      Passes setup round
        (.again { after with tasks := deferred.map Deferred.task, settling := false })
  | settles {after : Round} {deferred : List Deferred}
      (hsweep : round.sweep setup round.tasks = .ok (after, deferred)) (hne : deferred ≠ [])
      (hall : deferred.length = round.tasks.length) (hsettling : round.settling = false) :
      Passes setup round
        (.again { after with tasks := deferred.map Deferred.task, settling := true })
  | stuck {after : Round} {deferred : List Deferred}
      (hsweep : round.sweep setup round.tasks = .ok (after, deferred)) (hne : deferred ≠ [])
      (hall : deferred.length = round.tasks.length) :
      Passes setup round (.stuck { after with tasks := deferred.map Deferred.task }
        (deferred.map Deferred.stuck))

theorem passes_pass (setup : EvaluationSetup) (round : Round) :
    round.Passes setup (round.pass setup) := by
  unfold pass
  cases hsweep : round.sweep setup round.tasks with
  | error e => exact .failed hsweep
  | ok swept =>
    obtain ⟨after, deferred⟩ := swept
    have hle := (sweep_sublist hsweep).length_le
    rw [List.length_map] at hle
    dsimp only
    by_cases hempty : deferred = []
    · subst hempty
      exact .finished hsweep
    · rw [if_neg (by rwa [List.isEmpty_iff])]
      by_cases hall : deferred.length = round.tasks.length
      · rw [if_pos hall]
        split
        · exact .stuck hsweep hempty hall
        · next hquery =>
          refine .settles hsweep hempty hall ?_
          simp only [Bool.or_eq_true, not_or, Bool.not_eq_true] at hquery
          exact hquery.1
      · rw [if_neg hall]
        exact .again hsweep hempty (by omega)

theorem virtuals_eq_of_sweep (h : round.sweep setup tasks = .ok (after, deferred)) :
    after.inventory.virtuals = round.inventory.virtuals :=
  (sweep_grown h).virtuals_eq

/-- When nothing is left of the deferred attempts, a pass that is stuck has changed nothing. -/
theorem eq_of_stuck (h : round.pass setup = .stuck last stuck)
    (hatonce : ∀ task ∈ last.tasks, AtOnce last.inventory.virtuals task.node) :
    last = round := by
  have hpass := passes_pass setup round
  rw [h] at hpass
  cases hpass with
  | stuck hsweep hne hall =>
    have htasks := tasks_of_sweep hsweep hall
    have hvirtuals := virtuals_eq_of_sweep hsweep
    dsimp only at hatonce
    rw [htasks, hvirtuals] at hatonce
    obtain rfl := sweep_idle hatonce hsweep hall
    rw [htasks]

/-- A pass that is stuck tells of its statements. -/
theorem spans_of_stuck (h : round.pass setup = .stuck last stuck) :
    stuck.map StuckStatement.span = last.tasks.map fun task => statementSpan task.node := by
  have hpass := passes_pass setup round
  rw [h] at hpass
  cases hpass with
  | stuck hsweep hne hall =>
    rw [List.map_map, List.map_map]
    exact List.map_congr_left (spans_of_sweep hsweep)

/-! ## The last pass -/

/-- The round in which evaluation gives up, with the statements it tells of. -/
def stuckAt? (setup : EvaluationSetup) : (bound : Nat) → Round → Option (Round × List StuckStatement)
  | 0, _ => none
  | bound + 1, round =>
    match round.pass setup with
    | .again after => after.stuckAt? setup bound
    | .stuck last statements => some (last, statements)
    | _ => none

/-- How many passes a round can still lead to: each gets a statement done or begins to settle. -/
def remaining (round : Round) : Nat :=
  2 * round.tasks.length + if round.settling then 0 else 1

theorem remaining_le_passBound (round : Round) : round.remaining ≤ passBound round.tasks := by
  unfold remaining passBound
  split <;> omega

theorem remaining_of_again (h : round.pass setup = .again after) :
    after.remaining < round.remaining ∧ 0 < after.remaining := by
  have hpass := passes_pass setup round
  rw [h] at hpass
  unfold remaining
  cases hpass with
  | again _ hne hless =>
    have := List.length_pos_iff.2 hne
    simp only [List.length_map, Bool.false_eq_true, if_false]
    omega
  | settles _ hne hall hsettling =>
    have := List.length_pos_iff.2 hne
    simp only [List.length_map, if_true, hsettling, Bool.false_eq_true, if_false]
    omega

/-- Passes that end with an error end with a cause or by getting stuck; they never run out. -/
theorem run_error {bound : Nat} {e : EvalError} (hbound : round.remaining ≤ bound)
    (hpositive : 0 < bound) (h : round.run setup bound = .error e) :
    e.IsCause ∨ ∃ last stuck, round.stuckAt? setup bound = some (last, stuck) ∧ e = .ofStuck stuck := by
  induction bound generalizing round with
  | zero => exact absurd hpositive (Nat.lt_irrefl 0)
  | succ bound ih =>
    have hpass := passes_pass setup round
    rw [run] at h
    rw [stuckAt?]
    cases hresult : round.pass setup with
    | finished last =>
      rw [hresult] at h
      cases h
    | failed cause =>
      rw [hresult] at h hpass
      cases h
      cases hpass with
      | failed hsweep => exact Or.inl (failsAs_sweep setup round round.tasks e hsweep)
    | stuck last statements =>
      rw [hresult] at h
      cases h
      exact Or.inr ⟨last, statements, rfl, rfl⟩
    | again next =>
      rw [hresult] at h
      obtain ⟨hless, hremaining⟩ := remaining_of_again hresult
      exact ih (by omega) (by omega) h

theorem tasks_of_again (h : round.pass setup = .again after) :
    after.tasks.Sublist round.tasks ∧ after.inventory.virtuals = round.inventory.virtuals := by
  have hpass := passes_pass setup round
  rw [h] at hpass
  cases hpass with
  | again hsweep =>
    have hvirtuals := virtuals_eq_of_sweep hsweep
    exact ⟨sweep_sublist hsweep, hvirtuals⟩
  | settles hsweep =>
    have hvirtuals := virtuals_eq_of_sweep hsweep
    exact ⟨sweep_sublist hsweep, hvirtuals⟩

theorem tasks_of_stuck (h : round.pass setup = .stuck last stuck) :
    last.tasks.Sublist round.tasks ∧ last.inventory.virtuals = round.inventory.virtuals := by
  have hpass := passes_pass setup round
  rw [h] at hpass
  cases hpass with
  | stuck hsweep =>
    have hvirtuals := virtuals_eq_of_sweep hsweep
    exact ⟨sweep_sublist hsweep, hvirtuals⟩

/-- The round in which evaluation gives up ends a pass that got stuck, on statements that were
given. -/
theorem exists_stuck_of_stuckAt? {bound : Nat} (h : round.stuckAt? setup bound = some (last, stuck)) :
    (∃ before : Round, before.pass setup = .stuck last stuck) ∧
      last.tasks.Sublist round.tasks ∧ last.inventory.virtuals = round.inventory.virtuals := by
  induction bound generalizing round with
  | zero => cases h
  | succ bound ih =>
    rw [stuckAt?] at h
    cases hresult : round.pass setup with
    | again next =>
      rw [hresult] at h
      obtain ⟨hbefore, hlast, hlastVirtuals⟩ := ih h
      obtain ⟨htasks, hvirtuals⟩ := tasks_of_again hresult
      exact ⟨hbefore, hlast.trans htasks, hlastVirtuals.trans hvirtuals⟩
    | stuck last' statements =>
      rw [hresult] at h
      cases h
      exact ⟨⟨round, hresult⟩, tasks_of_stuck hresult⟩
    | _ =>
      rw [hresult] at h
      cases h

/-- Evaluation that is stuck in a round tells of the statements of that round. -/
theorem run_of_stuckAt? {bound : Nat} (h : round.stuckAt? setup bound = some (last, stuck)) :
    round.run setup bound = .error (.ofStuck stuck) := by
  induction bound generalizing round with
  | zero => cases h
  | succ bound ih =>
    rw [stuckAt?] at h
    rw [run]
    cases hresult : round.pass setup with
    | again next =>
      rw [hresult] at h
      exact ih h
    | stuck last' statements =>
      rw [hresult] at h
      cases h
      rfl
    | _ =>
      rw [hresult] at h
      cases h

end Round

/-- When evaluation gives up, it tells of the statements that are left, and if each of them is done
at once, one more pass over them defers them all again and changes nothing. -/
theorem evaluateFiles_gives_up {setup : EvaluationSetup} {inventory : Inventory}
    {files : List SourceFile} {stuck : List StuckStatement} {cycles : List (List Key)}
    (h : evaluateFiles setup inventory files = .error (.unresolvable stuck cycles)) :
    ∃ start indices last, Round.start inventory files = .ok (start, indices) ∧
      start.stuckAt? setup (passBound start.tasks) = some (last, stuck) ∧
      stuck.map StuckStatement.span = last.tasks.map (fun task => statementSpan task.node) ∧
      ((∀ task ∈ last.tasks, AtOnce last.inventory.virtuals task.node) →
        last.pass setup = .stuck last stuck) := by
  unfold evaluateFiles at h
  cases hstart : Round.start inventory files with
  | error e =>
    rw [hstart] at h
    cases h
    exact (failsAs_start inventory files _ hstart).elim
  | ok started =>
    obtain ⟨start, indices⟩ := started
    rw [hstart, ok_bind] at h
    dsimp only at h
    cases hrun : start.run setup (passBound start.tasks) with
    | ok last =>
      rw [hrun] at h
      cases h
    | error e =>
      rw [hrun] at h
      cases h
      have hremaining : start.remaining ≤ passBound start.tasks := by
        unfold Round.remaining passBound
        split <;> omega
      rcases Round.run_error hremaining (Nat.succ_pos _) hrun with
        hcause | ⟨last, statements, hstuck, heq⟩
      · exact hcause.elim
      · obtain rfl : stuck = statements := by
          unfold EvalError.ofStuck at heq
          injection heq
        obtain ⟨⟨before, hbefore⟩, -, -⟩ := Round.exists_stuck_of_stuckAt? hstuck
        refine ⟨start, indices, last, rfl, hstuck, Round.spans_of_stuck hbefore, fun hatonce => ?_⟩
        obtain rfl := Round.eq_of_stuck hbefore hatonce
        exact hbefore

/-! ## Boxes -/

/-- A box has a path, two fields that change in place, and a sum that its provider computes. -/
def boxType : ResourceType :=
  ⟨⟨"m::box", rfl⟩,
    [⟨"path", false, false, true, false⟩, ⟨"v", true, true, false, false⟩,
      ⟨"w", true, true, false, false⟩, ⟨"sum", false, true, false, true⟩], {}⟩

/-- A registry with boxes alone. -/
def boxRegistry : Registry :=
  Registry.addType {} boxType

/-- Boxes are evaluated as configuration. -/
def boxSetup : EvaluationSetup :=
  ⟨.configuration, none, instanceDepth⟩

/-- The start of a line. -/
def lineStart (line : Nat) : Span :=
  ⟨"main", line, 1⟩

/-- A pair at a line. -/
def pairAt (line : Nat) (field : String) (value : Node) : Node :=
  .pair ⟨field, value, lineStart line⟩

/-- The value of a variable. -/
def variableAt (line : Nat) (name : String) : Node :=
  .var [name] (lineStart line)

/-- A field of the box with a name. -/
def boxField (line : Nat) (name field : String) : Node :=
  .ref boxType.name.text (some (.text name)) [field] (lineStart line)

/-- The declaration of a box at a line. -/
def boxBlock (line : Nat) (name : Node) (body : List Node) : Node :=
  .resource boxType.name.text name body (lineStart line)

/-- A loop that binds `n` to some names. -/
def loopAt (line : Nat) (names : List String) (body : List Node) : Node :=
  .directive ⟨"for", [.text "n"], [⟨"in", [.list (names.map Node.text)]⟩], false, body, [],
    lineStart line⟩

/-- What is done when `n` is the given name. -/
def whenNamed (line : Nat) (name : String) (body : List Node) : Node :=
  .directive ⟨"if", [.binary .eq (variableAt line "n") (.text name)], [], false, body, [],
    lineStart line⟩

/-- Two boxes that wait for each other. -/
def waitingBoxes : SourceFile :=
  ⟨"main", [
    boxBlock 1 (.text "a") [pairAt 2 "path" (.text "a"), pairAt 3 "v" (boxField 3 "b" "path")],
    boxBlock 5 (.text "b") [pairAt 6 "path" (.text "b"), pairAt 7 "v" (boxField 7 "a" "path")]]⟩

/-- Evaluation gives up on the two boxes, and one more pass would not help. -/
theorem evaluateFiles_gives_up_boxes :
    ∃ start indices last stuck cycles,
      evaluateFiles boxSetup (.empty boxRegistry) [waitingBoxes] =
        .error (.unresolvable stuck cycles) ∧
      stuck.map StuckStatement.label = ["m::box a", "m::box b"] ∧
      Round.start (.empty boxRegistry) [waitingBoxes] = .ok (start, indices) ∧
      start.stuckAt? boxSetup (passBound start.tasks) = some (last, stuck) ∧
      last.pass boxSetup = .stuck last stuck := by
  have hrun : (Round.start (.empty boxRegistry) [waitingBoxes]).toOption.bind (fun started =>
      (started.1.stuckAt? boxSetup (passBound started.1.tasks)).map fun given =>
        given.2.map StuckStatement.label) = some ["m::box a", "m::box b"] := by decide +kernel
  have htasks : (Round.start (.empty boxRegistry) [waitingBoxes]).toOption.map
      (fun started => (started.1.tasks, started.1.inventory.virtuals)) =
        some (waitingBoxes.body.map fun node => ⟨0, 0, node⟩, []) := rfl
  obtain ⟨⟨start, indices⟩, hstart, hrun⟩ := Option.bind_eq_some_iff.1 hrun
  obtain ⟨⟨last, stuck⟩, hstuck, hlabels⟩ := Option.map_eq_some_iff.1 hrun
  rw [toOption_eq_some] at hstart
  have hgiven : evaluateFiles boxSetup (.empty boxRegistry) [waitingBoxes] =
      .error (.ofStuck stuck) := by
    unfold evaluateFiles
    rw [hstart, ok_bind]
    dsimp only
    rw [Round.run_of_stuckAt? hstuck, error_bind]
  obtain ⟨_, _, last, hstart', hstuck', -, hidle⟩ := evaluateFiles_gives_up hgiven
  obtain ⟨rfl, rfl⟩ := Prod.mk.inj (Except.ok.inj (hstart.symm.trans hstart'))
  refine ⟨start, indices, last, stuck, _, hgiven, hlabels, hstart, hstuck', hidle ?_⟩
  obtain ⟨-, hsublist, hvirtuals⟩ := Round.exists_stuck_of_stuckAt? hstuck'
  rw [hstart] at htasks
  obtain ⟨htasks, hnone⟩ := Prod.mk.inj (Option.some.inj htasks)
  intro task htask
  have hmem := hsublist.subset htask
  rw [htasks] at hmem
  rw [hvirtuals, hnone]
  simp only [waitingBoxes, List.map_cons, List.map_nil, List.mem_cons, List.not_mem_nil,
    or_false] at hmem
  rcases hmem with rfl | rfl
  · exact .block (fun _ _ => rfl) rfl
  · exact .block (fun _ _ => rfl) rfl

/-- The first box waits for the box `r`, which a loop registers before it waits for the first
box. -/
def entangledBoxes : SourceFile :=
  ⟨"main", [
    boxBlock 1 (.text "a") [pairAt 2 "path" (.text "a"), pairAt 3 "v" (boxField 3 "r" "path")],
    loopAt 5 ["r", "s"] [
      boxBlock 6 (variableAt 6 "n") [pairAt 7 "path" (variableAt 7 "n"),
        whenNamed 8 "s" [pairAt 9 "v" (boxField 9 "a" "path")]]]]⟩

/-- Evaluation gives up on the box and the loop, although one more pass gets both of them done. -/
theorem entangled_boxes_give_up :
    ∃ start indices last stuck finished,
      Round.start (.empty boxRegistry) [entangledBoxes] = .ok (start, indices) ∧
      start.stuckAt? boxSetup (passBound start.tasks) = some (last, stuck) ∧
      evaluateFiles boxSetup (.empty boxRegistry) [entangledBoxes] = .error (.ofStuck stuck) ∧
      stuck.map StuckStatement.label = ["m::box a", "@for"] ∧
      last.pass boxSetup = .finished finished := by
  have hrun : (Round.start (.empty boxRegistry) [entangledBoxes]).toOption.bind (fun started =>
      (started.1.stuckAt? boxSetup (passBound started.1.tasks)).map fun given =>
        (given.2.map StuckStatement.label,
          match given.1.pass boxSetup with
          | .finished _ => true
          | _ => false)) = some (["m::box a", "@for"], true) := by decide +kernel
  obtain ⟨⟨start, indices⟩, hstart, hrun⟩ := Option.bind_eq_some_iff.1 hrun
  obtain ⟨⟨last, stuck⟩, hstuck, hrun⟩ := Option.map_eq_some_iff.1 hrun
  obtain ⟨hlabels, hpass⟩ := Prod.mk.inj hrun
  rw [toOption_eq_some] at hstart
  cases hresult : last.pass boxSetup with
  | finished finished =>
    refine ⟨start, indices, last, stuck, finished, hstart, hstuck, ?_, hlabels, hresult⟩
    have hgiven : start.run boxSetup (passBound start.tasks) = .error (.ofStuck stuck) :=
      Round.run_of_stuckAt? hstuck
    unfold evaluateFiles
    rw [hstart, ok_bind]
    dsimp only
    rw [hgiven, error_bind]
  | _ =>
    rw [hresult] at hpass
    cases hpass

end Provision

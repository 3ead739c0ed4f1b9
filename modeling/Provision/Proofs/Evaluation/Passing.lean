import Provision.Proofs.Evaluation.Ending
import Provision.Proofs.Evaluation.History
import Provision.Proofs.Evaluation.Reasons

/-!
# How many passes there are

The passes of an evaluation are counted without the bound that it is given.  A pass that is not the
last one gets a statement done or begins to settle, and settling is not begun again before a
statement is done.  So there are at most two passes for each statement, and of two passes in a row
that get nothing done the second is the last.  The statements that are left at the end are told of
with what they wait for.
-/

namespace Provision

open Provision.Language (Node SourceFile)

namespace Round

/-! ## Passes without a bound -/

/-- The passes from a round on, as many as there are: the rounds that they start from, and what they
end with. -/
inductive Unfolds (setup : EvaluationSetup) : Round → List Round → Except EvalError Round → Prop
  | finished {round last : Round} (hpass : round.pass setup = .finished last) :
      Unfolds setup round [round] (.ok last)
  | stuck {round last : Round} {statements : List StuckStatement}
      (hpass : round.pass setup = .stuck last statements) :
      Unfolds setup round [round] (.error (.ofStuck statements))
  | failed {round : Round} {e : EvalError} (hpass : round.pass setup = .failed e) :
      Unfolds setup round [round] (.error e)
  | again {round next : Round} {rounds : List Round} {outcome : Except EvalError Round}
      (hpass : round.pass setup = .again next) (hrest : Unfolds setup next rounds outcome) :
      Unfolds setup round (round :: rounds) outcome

/-- No attempt of the pass gets its statement done. -/
def Idle (setup : EvaluationSetup) (round : Round) : Prop :=
  ∀ attempt ∈ round.tries setup round.tasks, succeeds setup attempt = false

section Passing

variable {setup : EvaluationSetup} {round after first second : Round} {rounds back : List Round}
variable {outcome : Except EvalError Round} {tasks : List Task} {deferred : List Deferred}

/-- The passes come to an end, as there are ever fewer that can follow. -/
theorem exists_unfolds (setup : EvaluationSetup) (round : Round) :
    ∃ rounds outcome, round.Unfolds setup rounds outcome := by
  induction hremaining : round.remaining using Nat.strong_induction_on generalizing round with
  | _ remaining ih =>
    cases hpass : round.pass setup with
    | finished last => exact ⟨_, _, .finished hpass⟩
    | stuck last statements => exact ⟨_, _, .stuck hpass⟩
    | failed e => exact ⟨_, _, .failed hpass⟩
    | again next =>
      obtain ⟨hless, -⟩ := remaining_of_again hpass
      obtain ⟨rounds, outcome, hrest⟩ := ih next.remaining (hremaining ▸ hless) next rfl
      exact ⟨_, _, .again hpass hrest⟩

/-- Evaluation makes these passes as soon as its bound has room for them. -/
theorem Unfolds.run_eq (h : round.Unfolds setup rounds outcome) {bound : Nat}
    (hbound : rounds.length ≤ bound) :
    round.run setup bound = outcome := by
  induction h generalizing bound with
  | finished hpass | stuck hpass | failed hpass =>
    obtain ⟨bound, rfl⟩ := Nat.exists_eq_succ_of_ne_zero (Nat.one_le_iff_ne_zero.1 hbound)
    rw [run, hpass]
  | again hpass hrest ih =>
    cases bound with
    | zero => exact absurd hbound (Nat.not_succ_le_zero _)
    | succ bound =>
      rw [run, hpass]
      exact ih (Nat.le_of_succ_le_succ hbound)

/-- There are at most two passes for each statement, and one less when the first of them settles. -/
theorem Unfolds.length_le (h : round.Unfolds setup rounds outcome) (hsome : round.tasks ≠ []) :
    rounds.length + (if round.settling then 1 else 0) ≤ 2 * round.tasks.length := by
  induction h with
  | finished hpass | stuck hpass | failed hpass =>
    have hpositive := List.length_pos_iff.2 hsome
    rw [List.length_singleton]
    split <;> omega
  | @again round next rounds outcome hpass hrest ih =>
    have hresult := passes_pass setup round
    rw [hpass] at hresult
    cases hresult with
    | again hsweep hne hless =>
      have hrounds := ih fun hnil => hne (List.map_eq_nil_iff.1 hnil)
      simp only [Bool.false_eq_true, if_false, List.length_map] at hrounds
      rw [List.length_cons]
      split <;> omega
    | settles hsweep hne hall hsettling =>
      have hrounds := ih fun hnil => hne (List.map_eq_nil_iff.1 hnil)
      simp only [if_true, List.length_map, hall] at hrounds
      rw [List.length_cons, hsettling]
      simpa using hrounds

/-! ## Passes that get nothing done -/

/-- A sweep without a success leaves every statement. -/
theorem length_of_idle (h : round.sweep setup tasks = .ok (after, deferred))
    (hidle : ∀ attempt ∈ round.tries setup tasks, succeeds setup attempt = false) :
    deferred.length = tasks.length := by
  induction tasks generalizing round deferred with
  | nil =>
    cases h
    rfl
  | cons task rest ih =>
    rw [sweep_cons] at h
    obtain ⟨⟨between, found⟩, hfirst, h⟩ := bind_eq_ok.1 h
    obtain ⟨⟨swept, others⟩, hrest, h⟩ := bind_eq_ok.1 h
    cases h
    rw [tries, hfirst] at hidle
    cases found with
    | none =>
      have hfailed := hidle _ List.mem_cons_self
      rw [succeeds_of_done hfirst] at hfailed
      cases hfailed
    | some d =>
      have hlater := ih hrest fun attempt hattempt =>
        hidle attempt (List.mem_cons_of_mem _ hattempt)
      exact congrArg Nat.succ hlater

/-- A pass that gets nothing done and is not the last one begins to settle. -/
theorem settling_of_idle (h : first.pass setup = .again second) (hidle : first.Idle setup) :
    second.settling = true ∧ second.tasks ≠ [] := by
  have hresult := passes_pass setup first
  rw [h] at hresult
  cases hresult with
  | again hsweep hne hless =>
    exact absurd (length_of_idle hsweep hidle) (Nat.ne_of_lt hless)
  | settles hsweep hne hall hsettling => exact ⟨rfl, fun hnil => hne (List.map_eq_nil_iff.1 hnil)⟩

/-- A pass that settles and gets nothing done is the last one, and it ends with an error. -/
theorem Unfolds.error_of_idle (h : round.Unfolds setup (round :: back) outcome)
    (hsettling : round.settling = true) (hsome : round.tasks ≠ []) (hidle : round.Idle setup) :
    back = [] ∧ ∃ e, outcome = .error e := by
  have hresult := passes_pass setup round
  cases h with
  | finished hpass =>
    rw [hpass] at hresult
    cases hresult with
    | finished hsweep => exact absurd (length_of_idle hsweep hidle).symm (by simpa using hsome)
  | stuck hpass => exact ⟨rfl, _, rfl⟩
  | failed hpass => exact ⟨rfl, _, rfl⟩
  | again hpass hrest =>
    rw [hpass] at hresult
    cases hresult with
    | again hsweep hne hless => exact absurd (length_of_idle hsweep hidle) (Nat.ne_of_lt hless)
    | settles hsweep hne hall hnot => rw [hnot] at hsettling; cases hsettling

/-- The first of the rounds is the one that the passes start from. -/
theorem Unfolds.head (h : round.Unfolds setup (first :: back) outcome) : first = round := by
  cases h <;> rfl

/-- Passes that come later unfold from the round that they start from. -/
theorem Unfolds.later {front : List Round} (h : round.Unfolds setup (front ++ first :: back) outcome) :
    first.Unfolds setup (first :: back) outcome := by
  induction front generalizing round with
  | nil =>
    have hhead : first = round := h.head
    exact hhead ▸ h
  | cons other rest ih =>
    generalize hrounds : other :: rest ++ first :: back = rounds at h
    cases h with
    | again hpass hrest =>
      obtain ⟨-, rfl⟩ := List.cons.inj hrounds
      exact ih hrest
    | _ =>
      have hlength := congrArg List.length hrounds
      simp at hlength

/-- Of two passes in a row that get nothing done the second is the last, and it ends with an
error. -/
theorem Unfolds.error_of_idles {front : List Round}
    (h : round.Unfolds setup (front ++ first :: second :: back) outcome)
    (hfirst : first.Idle setup) (hsecond : second.Idle setup) :
    back = [] ∧ ∃ e, outcome = .error e := by
  cases h.later with
  | again hpass hrest =>
    obtain rfl := hrest.head
    obtain ⟨hsettling, hsome⟩ := settling_of_idle hpass hfirst
    exact hrest.error_of_idle hsettling hsome hsecond

end Passing

end Round

/-! ## What is told of stuck statements -/

/-- The account of a stuck statement: where it stands, what it is called and declares, and what it
waits for. -/
structure StuckStatement.Tells (statement : StuckStatement) (node : Node) : Prop where
  span : statement.span = statementSpan node
  label : statement.label = statementLabel node
  key : statement.key = statementKey node
  waits : statement.deferrals ≠ []

theorem dedupeDeferrals_ne_nil {deferrals : List Deferral} (h : deferrals ≠ []) :
    dedupeDeferrals deferrals ≠ [] := by
  cases deferrals with
  | nil => exact absurd rfl h
  | cons first rest =>
    have hkeeps : ∀ unique : List Deferral, unique ≠ [] → ∀ d ∈ rest,
        (if d ∈ unique then unique else unique ++ [d]) ≠ [] := by
      intro unique hunique d _
      split
      · exact hunique
      · exact List.append_ne_nil_of_left_ne_nil hunique _
    exact List.foldlRecOn (motive := fun unique => unique ≠ []) rest _ (List.cons_ne_nil _ _) hkeeps

namespace Round

section Reports

variable {setup : EvaluationSetup} {round after last : Round} {task : Task} {tasks : List Task}
variable {deferred : List Deferred} {d : Deferred} {stuck : List StuckStatement}

theorem tells_of_attempt (h : round.attempt setup task = .ok (after, some d)) :
    d.stuck.Tells task.node := by
  rw [attempt_eq] at h
  split at h
  · cases h
  · next reasons q hrun =>
    cases h
    have hreason := atDepth_reasoned ⟨setup.mode, setup.current, round.undeclared task⟩ setup.depth
      task.node { file := task.file } _ _ _ hrun
    exact ⟨rfl, rfl, rfl, dedupeDeferrals_ne_nil hreason⟩
  · cases h

theorem tells_of_sweep (h : round.sweep setup tasks = .ok (after, deferred)) :
    ∀ d ∈ deferred, d.stuck.Tells d.task.node := by
  induction tasks generalizing round deferred with
  | nil =>
    cases h
    exact fun d hd => nomatch hd
  | cons task rest ih =>
    rw [sweep_cons] at h
    obtain ⟨⟨between, first⟩, hfirst, h⟩ := bind_eq_ok.1 h
    obtain ⟨⟨swept, others⟩, hrest, h⟩ := bind_eq_ok.1 h
    cases h
    intro d hd
    rcases List.mem_append.1 hd with hd | hd
    · rw [Option.mem_toList] at hd
      subst hd
      exact task_of_deferred hfirst ▸ tells_of_attempt hfirst
    · exact ih hrest d hd

/-- A pass that is stuck tells of each statement that is left, in order. -/
theorem tells_of_stuck (h : round.pass setup = .stuck last stuck) :
    List.Forall₂ StuckStatement.Tells stuck (last.tasks.map Task.node) := by
  have hresult := passes_pass setup round
  rw [h] at hresult
  cases hresult with
  | stuck hsweep hne hall =>
    dsimp only
    rw [List.map_map, List.forall₂_map_left_iff, List.forall₂_map_right_iff, List.forall₂_same]
    exact tells_of_sweep hsweep

end Reports

end Round

/-! ## Evaluations -/

/-- The statements of files that are not definitions. -/
def topLevel (files : List SourceFile) : List Node :=
  files.flatMap fun file => file.body.filter fun node => !isDefinition node

theorem length_ensureFiles (inventory : Inventory) (files : List SourceFile) :
    (ensureFiles inventory files).2.length = files.length := by
  induction files generalizing inventory with
  | nil => rfl
  | cons file rest ih => exact congrArg Nat.succ (ih _)

theorem nodes_of_tasksOf (sources : List (SourceFile × Nat)) :
    (tasksOf sources).map Task.node = topLevel (sources.map Prod.fst) := by
  have hnodes : ∀ entry : (SourceFile × Nat) × Nat,
      ((entry.1.1.body.filter fun node => !isDefinition node).map fun node =>
        (⟨entry.2, entry.1.2, node⟩ : Task)).map Task.node =
          entry.1.1.body.filter fun node => !isDefinition node := by
    intro entry
    rw [List.map_map]
    exact List.map_id _
  unfold tasksOf topLevel
  rw [List.map_flatMap, List.flatMap_map]
  calc sources.zipIdx.flatMap (fun entry => _)
      = sources.zipIdx.flatMap (fun entry => entry.1.1.body.filter fun node => !isDefinition node) :=
        List.flatMap_congr fun entry _ => hnodes entry
    _ = (sources.zipIdx.map Prod.fst).flatMap
          (fun source => source.1.body.filter fun node => !isDefinition node) := by
        rw [List.flatMap_map]
    _ = sources.flatMap (fun source => source.1.body.filter fun node => !isDefinition node) := by
        rw [List.zipIdx_map_fst]

/-- The first pass has the statements of the files before it, in order. -/
theorem nodes_of_start {inventory : Inventory} {files : List SourceFile} {start : Round}
    {indices : List Nat} (h : Round.start inventory files = .ok (start, indices)) :
    start.tasks.map Task.node = topLevel files ∧ start.settling = false := by
  obtain ⟨taken, -, h⟩ := bind_eq_ok.1 h
  cases h
  refine ⟨?_, rfl⟩
  have hzip : (files.zip (ensureFiles inventory files).2).map Prod.fst = files :=
    List.map_fst_zip (Nat.le_of_eq (length_ensureFiles inventory files).symm)
  exact (nodes_of_tasksOf _).trans (congrArg topLevel hzip)

/-- An evaluation of some statements makes at most two passes for each of them, after the
definitions are taken up, however deeply their instances may nest.  Two passes in a row get nothing
done only when the second ends with an error, and an evaluation that gives up tells of statements
that are left, in order, each with what it waits for. -/
theorem evaluateFiles_bounded {setup : EvaluationSetup} {inventory : Inventory}
    {files : List SourceFile} (hsome : topLevel files ≠ []) :
    (∀ start indices, Round.start inventory files = .ok (start, indices) →
      ∃ rounds outcome, start.Unfolds setup rounds outcome ∧
        evaluateFiles setup inventory files = outcome.map (fun last => last.result indices) ∧
        rounds.length ≤ 2 * (topLevel files).length ∧
        ∀ front first second back, rounds = front ++ first :: second :: back →
          first.Idle setup → second.Idle setup → back = [] ∧ ∃ e, outcome = .error e) ∧
    ∀ stuck cycles, evaluateFiles setup inventory files = .error (.unresolvable stuck cycles) →
      ∃ nodes, nodes ≠ [] ∧ nodes.Sublist (topLevel files) ∧
        List.Forall₂ StuckStatement.Tells stuck nodes := by
  refine ⟨fun start indices hstart => ?_, fun stuck cycles hstuck => ?_⟩
  · obtain ⟨rounds, outcome, hunfolds⟩ := Round.exists_unfolds setup start
    obtain ⟨hnodes, hsettling⟩ := nodes_of_start hstart
    have htasks : start.tasks ≠ [] := fun hnil => hsome (by rw [← hnodes, hnil, List.map_nil])
    have hlength : start.tasks.length = (topLevel files).length := by
      rw [← hnodes, List.length_map]
    have hbound := hunfolds.length_le htasks
    rw [hsettling, hlength] at hbound
    have hpasses : rounds.length ≤ passBound start.tasks := by
      unfold passBound
      simp only [Bool.false_eq_true, if_false] at hbound
      omega
    refine ⟨rounds, outcome, hunfolds, ?_, hbound, ?_⟩
    · unfold evaluateFiles
      rw [hstart, ok_bind]
      dsimp only
      rw [hunfolds.run_eq hpasses]
      cases outcome <;> rfl
    · rintro front first second back rfl hfirst hsecond
      exact hunfolds.error_of_idles hfirst hsecond
  · suffices hfails : FailsAs (fun e => ∀ stuck cycles, e = .unresolvable stuck cycles →
        ∃ nodes, nodes ≠ [] ∧ nodes.Sublist (topLevel files) ∧
          List.Forall₂ StuckStatement.Tells stuck nodes) (evaluateFiles setup inventory files) from
      hfails _ hstuck stuck cycles rfl
    refine failsAs_evaluateFiles ?_ ?_
    · rintro _ hcause _ _ rfl
      exact hcause.elim
    · intro start indices before last told hstart hbefore hsublist stuck cycles heq
      obtain rfl : told = stuck := by
        unfold EvalError.ofStuck at heq
        injection heq
      have htells := Round.tells_of_stuck hbefore
      refine ⟨last.tasks.map Task.node, fun hnil => ?_, ?_, htells⟩
      · rw [hnil, List.forall₂_nil_right_iff] at htells
        exact Round.ne_nil_of_stuck hbefore htells
      · rw [← (nodes_of_start hstart).1]
        exact hsublist.map Task.node

/-- Two boxes that list the paths of all boxes. -/
def mutualListings : SourceFile :=
  ⟨"main", [
    boxBlock 1 (.text "a") [pairAt 2 "path" (.text "a"),
      pairAt 3 "v" (.ref boxType.name.text none ["path"] (lineStart 3))],
    boxBlock 5 (.text "b") [pairAt 6 "path" (.text "b"),
      pairAt 7 "v" (.ref boxType.name.text none ["path"] (lineStart 7))]]⟩

/-- The boxes that list each other are done in the second pass, as the first, which gets nothing
done, begins to settle; evaluation gives up on those that wait for each other. -/
theorem evaluateFiles_bounded_boxes :
    topLevel [mutualListings] ≠ [] ∧ topLevel [waitingBoxes] ≠ [] ∧
      (∃ start indices rounds last, Round.start (.empty boxRegistry) [mutualListings] =
          .ok (start, indices) ∧
        start.Unfolds boxSetup rounds (.ok last) ∧ start.Idle boxSetup ∧
        evaluateFiles boxSetup (.empty boxRegistry) [mutualListings] = .ok (last.result indices) ∧
        rounds.length ≤ 4) ∧
      ∃ stuck cycles nodes, evaluateFiles boxSetup (.empty boxRegistry) [waitingBoxes] =
          .error (.unresolvable stuck cycles) ∧
        nodes ≠ [] ∧ nodes.Sublist (topLevel [waitingBoxes]) ∧
        List.Forall₂ StuckStatement.Tells stuck nodes := by
  have hlisting : topLevel [mutualListings] ≠ [] := List.cons_ne_nil _ _
  have hwaiting : topLevel [waitingBoxes] ≠ [] := List.cons_ne_nil _ _
  refine ⟨hlisting, hwaiting, ?_, ?_⟩
  · have hrun : (Round.start (.empty boxRegistry) [mutualListings]).toOption.bind (fun started =>
        (evaluateFiles boxSetup (.empty boxRegistry) [mutualListings]).toOption.map fun _ =>
          (started.1.tries boxSetup started.1.tasks).all fun attempt =>
            !Round.succeeds boxSetup attempt) = some true := by decide +kernel
    obtain ⟨⟨start, indices⟩, hstart, hrun⟩ := Option.bind_eq_some_iff.1 hrun
    obtain ⟨result, hresult, hidle⟩ := Option.map_eq_some_iff.1 hrun
    rw [toOption_eq_some] at hstart hresult
    obtain ⟨rounds, outcome, hunfolds, heq, hlength, -⟩ :=
      (@evaluateFiles_bounded boxSetup _ _ hlisting).1 start indices hstart
    cases outcome with
    | error e =>
      rw [hresult] at heq
      cases heq
    | ok last =>
      refine ⟨start, indices, rounds, last, hstart, hunfolds, fun attempt hattempt => ?_, heq,
        hlength⟩
      simpa using List.all_eq_true.1 hidle attempt hattempt
  · have hstuck : ∃ stuck, evaluateFiles boxSetup (.empty boxRegistry) [waitingBoxes] =
        .error (.unresolvable stuck [[boxKey "a", boxKey "b"]]) :=
      unresolvable_of_stuckAt? (by decide +kernel)
    obtain ⟨stuck, hstuck⟩ := hstuck
    obtain ⟨nodes, hne, hsublist, htells⟩ := (evaluateFiles_bounded hwaiting).2 stuck _ hstuck
    exact ⟨stuck, _, nodes, hstuck, hne, hsublist, htells⟩

end Provision

import Provision.Evaluation.Passes
import Provision.Proofs.Evaluation.Retrying
import Provision.Proofs.Outcome

/-!
# Rounds

The passes over the statements of all files.  An evaluation gives a result
exactly when all statements get done: a failure ends it, and statements that wait
for ever are told of after one more pass at most, in which type queries are
answered.
-/

namespace Provision

open Retry (Attempt Verdict Machine Settles Breaks Stalls)

variable {φ : Type}

/-- The evaluator of a statement while some types may still be declared. -/
def EvaluationSetup.evaluator (setup : EvaluationSetup) (undeclared : List TypeName) : Evaluator :=
  Evaluator.atDepth ⟨setup.mode, setup.current, undeclared⟩ setup.depth

/-- The types that a statement must take for undeclared. -/
def Round.undeclared (round : Round) (task : Task) : List TypeName :=
  if round.settling then [] else undeclaredBesides round.unfinished (statementSpan task.node)

/-- The progress that a statement starts from. -/
def Round.progress (round : Round) (task : Task) : Progress :=
  ⟨round.inventory, round.declared, (round.scopes[task.source]?).getD {}, [], none⟩

/-- The round with what became of a statement's progress. -/
def Round.keeping (round : Round) (task : Task) (after : Progress) : Round :=
  { round with
    inventory := after.inventory
    declared := after.declared
    scopes := round.scopes.set task.source after.scope }

/-- What comes of trying a statement in a round. -/
def Round.tried (setup : EvaluationSetup) (task : Task) (round : Round) : Attempt Round :=
  match round.attempt setup task with
  | .ok (after, none) => .done after
  | .ok (after, some _) => .waits after
  | .error _ => .fails

/-- The round after a pass that got something done. -/
def Round.again (rest : List Task) (round : Round) : Round :=
  { round with tasks := rest, settling := false }

/-- The round after a pass that got nothing done, when type queries are answered from now on. -/
def Round.settled (rest : List Task) (round : Round) : Round :=
  { round with tasks := rest, settling := true }

/-- The passes over the statements of all files. -/
def roundMachine (setup : EvaluationSetup) (verdict : Task → Round → Verdict φ) :
    Machine Task Round φ :=
  ⟨Round.tried setup, Round.again, verdict⟩

section Rounds

variable {setup : EvaluationSetup} {verdict : Task → Round → Verdict φ}

/-- Trying a statement is running it on its progress. -/
theorem attempt_eq (round : Round) (task : Task) :
    round.attempt setup task =
      match (runStatement (setup.evaluator (round.undeclared task)) task.node
        { file := task.file }).run (round.progress task) with
      | (.ok (), after) =>
        .ok ({ round.keeping task after with
          unfinished := Table.erase round.unfinished (statementSpan task.node) }, none)
      | (.error (.deferred reasons), after) =>
        .ok (round.keeping task after, some ⟨task,
          ⟨statementSpan task.node, statementLabel task.node, statementKey task.node,
            dedupeDeferrals reasons⟩⟩)
      | (.error (.failed e), _) => .error e := by
  unfold Round.attempt EvaluationSetup.evaluator Round.undeclared Round.progress Round.keeping
  dsimp only
  split
  rename_i outcome after hrun
  rw [hrun]
  rcases outcome with (reasons | e) | ⟨⟩ <;> rfl

theorem task_of_deferred {round after : Round} {task : Task} {deferred : Deferred}
    (h : round.attempt setup task = .ok (after, some deferred)) :
    deferred.task = task := by
  rw [attempt_eq] at h
  split at h
  · cases h
  · cases h
    rfl
  · cases h

theorem sweep_cons (round : Round) (task : Task) (rest : List Task) :
    round.sweep setup (task :: rest) = round.attempt setup task >>= fun tried =>
      tried.1.sweep setup rest >>= fun swept =>
        .ok (swept.1, tried.2.toList ++ swept.2) :=
  rfl

theorem round_sweep {tasks rest : List Task} {round after : Round}
    (h : (roundMachine setup verdict).sweep tasks round = some (rest, after)) :
    ∃ deferred, round.sweep setup tasks = .ok (after, deferred) ∧
      deferred.map Deferred.task = rest := by
  induction tasks generalizing round rest with
  | nil =>
    cases h
    exact ⟨[], rfl, rfl⟩
  | cons task tasks ih =>
    have htried : (roundMachine setup verdict).attempt task round = round.tried setup task := rfl
    rw [Machine.sweep, htried] at h
    rw [sweep_cons]
    unfold Round.tried at h
    cases hattempt : round.attempt setup task with
    | error e =>
      rw [hattempt] at h
      cases h
    | ok tried =>
      obtain ⟨u, stuck⟩ := tried
      rw [hattempt] at h
      cases stuck with
      | none =>
        obtain ⟨deferred, hsweep, hrest⟩ := ih h
        refine ⟨deferred, ?_, hrest⟩
        rw [ok_bind, hsweep]
        rfl
      | some first =>
        obtain ⟨⟨later, last⟩, hswept, heq⟩ := Option.map_eq_some_iff.1 h
        cases heq
        obtain ⟨deferred, hsweep, hrest⟩ := ih hswept
        refine ⟨first :: deferred, ?_, ?_⟩
        · rw [ok_bind, hsweep]
          rfl
        · rw [List.map_cons, task_of_deferred hattempt, hrest]

theorem round_broken {tasks : List Task} {round : Round}
    (h : (roundMachine setup verdict).sweep tasks round = none) :
    ∃ e, round.sweep setup tasks = .error e := by
  induction tasks generalizing round with
  | nil => cases h
  | cons task tasks ih =>
    have htried : (roundMachine setup verdict).attempt task round = round.tried setup task := rfl
    rw [Machine.sweep, htried] at h
    rw [sweep_cons]
    unfold Round.tried at h
    cases hattempt : round.attempt setup task with
    | error e => exact ⟨e, rfl⟩
    | ok tried =>
      obtain ⟨u, stuck⟩ := tried
      rw [hattempt] at h
      rw [ok_bind]
      cases stuck with
      | none =>
        obtain ⟨e, hsweep⟩ := ih h
        refine ⟨e, ?_⟩
        rw [hsweep]
        rfl
      | some first =>
        obtain ⟨e, hsweep⟩ := ih (Option.map_eq_none_iff.1 h)
        refine ⟨e, ?_⟩
        rw [hsweep]
        rfl

/-- What a pass leads to, told by what is left of its statements. -/
theorem pass_after {round after : Round} {rest : List Task}
    (h : (roundMachine setup verdict).sweep round.tasks round = some (rest, after)) :
    (rest = [] → round.pass setup = .finished { after with tasks := [] }) ∧
      (rest ≠ [] → rest.length ≠ round.tasks.length → round.pass setup = .again (after.again rest)) ∧
      (rest ≠ [] → rest.length = round.tasks.length →
        (∃ left statements, round.pass setup = .stuck left statements) ∨
          (round.settling = false ∧ round.pass setup = .again (after.settled rest))) := by
  obtain ⟨deferred, hsweep, hrest⟩ := round_sweep h
  have hlength : rest.length = deferred.length := by
    rw [← hrest, List.length_map]
  have hpass : round.pass setup =
      if deferred.isEmpty then .finished { after with tasks := rest }
      else if deferred.length = round.tasks.length then
        if round.settling || !onlyTypeQueries deferred then
          .stuck { after with tasks := rest } (deferred.map Deferred.stuck)
        else .again (after.settled rest)
      else .again (after.again rest) := by
    unfold Round.pass
    rw [hsweep]
    dsimp only
    rw [hrest]
    rfl
  have hempty : deferred.isEmpty = true ↔ rest = [] := by
    rw [List.isEmpty_iff_length_eq_zero, ← hlength, List.length_eq_zero_iff]
  refine ⟨?_, ?_, ?_⟩
  · intro hnil
    rw [hpass, if_pos (hempty.2 hnil), hnil]
  · intro hne hless
    rw [hpass, if_neg (fun he => hne (hempty.1 he)), if_neg (fun he => hless (hlength.trans he))]
  · intro hne hsame
    rw [hpass, if_neg (fun he => hne (hempty.1 he)), if_pos (hlength.symm.trans hsame)]
    cases hsettling : round.settling with
    | true => exact Or.inl ⟨_, _, rfl⟩
    | false =>
      cases honly : onlyTypeQueries deferred with
      | true => exact Or.inr ⟨rfl, rfl⟩
      | false => exact Or.inl ⟨_, _, rfl⟩

/-! ## Whole evaluations -/

theorem run_of_settles {tasks : List Task} {round last : Round} {bound : Nat}
    (h : Settles (roundMachine setup verdict) tasks round last)
    (htasks : round.tasks = tasks)
    (hbound : tasks.length < bound) :
    round.run setup bound = .ok { last with tasks := [] } := by
  induction h generalizing bound with
  | last hsweep =>
    subst htasks
    cases bound with
    | zero => omega
    | succ bound => rw [Round.run, (pass_after hsweep).1 rfl]
  | again hsweep hrest hless _ ih =>
    subst htasks
    cases bound with
    | zero => omega
    | succ bound =>
      rw [Round.run, (pass_after hsweep).2.1 hrest (Nat.ne_of_lt hless)]
      exact ih rfl (by omega)

theorem run_of_breaks {tasks : List Task} {round : Round}
    (h : Breaks (roundMachine setup verdict) tasks round)
    (htasks : round.tasks = tasks) (bound : Nat) :
    ∃ e, round.run setup bound = .error e := by
  induction h generalizing bound with
  | now hsweep =>
    subst htasks
    cases bound with
    | zero => exact ⟨_, rfl⟩
    | succ bound =>
      obtain ⟨e, hsweep⟩ := round_broken hsweep
      refine ⟨e, ?_⟩
      rw [Round.run, Round.pass, hsweep]
  | later hsweep hrest hless _ ih =>
    subst htasks
    cases bound with
    | zero => exact ⟨_, rfl⟩
    | succ bound =>
      rw [Round.run, (pass_after hsweep).2.1 hrest (Nat.ne_of_lt hless)]
      exact ih rfl bound

/-- Statements that wait for ever make an evaluation fail when answering type queries does not
help them. -/
theorem run_of_stalls {tasks left : List Task} {round last : Round}
    (h : Stalls (roundMachine setup verdict) tasks round left last)
    (hidle : ∃ after, (roundMachine setup verdict).sweep left (last.settled left) = some (left, after))
    (htasks : round.tasks = tasks) (bound : Nat) :
    ∃ e, round.run setup bound = .error e := by
  induction h generalizing bound with
  | @now tasks rest round last hsweep hrest hsame =>
    subst htasks
    cases bound with
    | zero => exact ⟨_, rfl⟩
    | succ bound =>
      rw [Round.run]
      rcases (pass_after hsweep).2.2 hrest hsame with ⟨_, statements, hpass⟩ | ⟨-, hpass⟩
      · rw [hpass]
        exact ⟨_, rfl⟩
      · rw [hpass]
        cases bound with
        | zero => exact ⟨_, rfl⟩
        | succ bound =>
          obtain ⟨after, hidle⟩ := hidle
          have hidle : (roundMachine setup verdict).sweep (last.settled rest).tasks
              (last.settled rest) = some (rest, after) := hidle
          show ∃ e, (last.settled rest).run setup (bound + 1) = .error e
          rw [Round.run]
          rcases (pass_after hidle).2.2 hrest rfl with ⟨_, statements, hpass⟩ | ⟨hsettling, -⟩
          · rw [hpass]
            exact ⟨_, rfl⟩
          · cases hsettling
  | later hsweep hrest hless _ ih =>
    subst htasks
    cases bound with
    | zero => exact ⟨_, rfl⟩
    | succ bound =>
      rw [Round.run, (pass_after hsweep).2.1 hrest (Nat.ne_of_lt hless)]
      exact ih hidle rfl bound

end Rounds

end Provision

import Provision.Evaluation.Statement
import Provision.Proofs.Evaluation.Retrying
import Provision.Proofs.Outcome

/-!
# Bodies

A body tries its steps in passes.  How it ends is told by the passes alone: it is
done when all steps get done, it fails when one of them fails, and it waits when
a pass gets nothing done.
-/

namespace Provision

open Retry (Attempt Verdict Machine Settles Breaks Stalls sweep_length)

/-- Tries a step. -/
def Step.attempt (step : Step Unit) (progress : Progress) : Attempt Progress :=
  match step.run progress with
  | (.ok (), after) => .done after
  | (.error (.deferred _), after) => .waits after
  | (.error (.failed _), _) => .fails

theorem Step.attempt_eq_done {step : Step Unit} {progress after : Progress} :
    step.attempt progress = .done after ↔ step.run progress = (.ok (), after) := by
  unfold Step.attempt
  rcases step.run progress with ⟨(reasons | e) | ⟨⟩, q⟩ <;> constructor <;> intro h <;> cases h <;> rfl

theorem Step.attempt_eq_waits {step : Step Unit} {progress after : Progress} :
    step.attempt progress = .waits after ↔
      ∃ reasons, step.run progress = (.error (.deferred reasons), after) := by
  unfold Step.attempt
  rcases step.run progress with ⟨(reasons | e) | ⟨⟩, q⟩
  · constructor
    · rintro ⟨⟩
      exact ⟨reasons, rfl⟩
    · rintro ⟨_, ⟨⟩⟩
      rfl
  · constructor
    · rintro ⟨⟩
    · rintro ⟨_, ⟨⟩⟩
  · constructor
    · rintro ⟨⟩
    · rintro ⟨_, ⟨⟩⟩

/-- The passes of a body whose steps belong to items. -/
def bodyMachine {ι φ : Type} (step : ι → Step Unit) (verdict : ι → Progress → Verdict φ) :
    Machine ι Progress φ :=
  ⟨fun i => (step i).attempt, fun _ progress => progress, verdict⟩

section Passes

variable {ι φ : Type} {step : ι → Step Unit} {verdict : ι → Progress → Verdict φ}

/-- One step of a pass: a deferral is kept as a result. -/
def Step.tried (step : Step Unit) : Step (Option (List Deferral)) :=
  ExceptT.mk fun progress =>
    match step.run progress with
    | (.ok (), after) => (.ok none, after)
    | (.error (.deferred reasons), after) => (.ok (some reasons), after)
    | (.error (.failed e), after) => (.error (.failed e), after)

theorem Step.pass_cons (step : Step Unit) (rest : List (Step Unit)) :
    Step.pass (step :: rest) = step.tried >>= fun waiting =>
      Step.pass rest >>= fun passed =>
        match waiting with
        | none => pure (passed.1, passed.2)
        | some first => pure (step :: passed.1, first ++ passed.2) :=
  rfl

/-- Trying a step comes to what a pass makes of it. -/
theorem Step.tried_run (step : Step Unit) (p : Progress) :
    (∃ q, step.attempt p = .done q ∧ step.tried.run p = (.ok none, q)) ∨
      (∃ reasons q, step.attempt p = .waits q ∧ step.tried.run p = (.ok (some reasons), q)) ∨
      ∃ e q, step.attempt p = .fails ∧ step.tried.run p = (.error (.failed e), q) := by
  have hrun : step.tried.run p =
      match step.run p with
      | (.ok (), after) => (.ok none, after)
      | (.error (.deferred reasons), after) => (.ok (some reasons), after)
      | (.error (.failed e), after) => (.error (.failed e), after) := rfl
  rw [hrun]
  unfold Step.attempt
  rcases step.run p with ⟨(reasons | e) | ⟨⟩, q⟩
  · exact Or.inr (Or.inl ⟨_, q, rfl, rfl⟩)
  · exact Or.inr (Or.inr ⟨_, q, rfl, rfl⟩)
  · exact Or.inl ⟨q, rfl, rfl⟩

theorem pass_of_sweep {items rest : List ι} {p q : Progress}
    (h : (bodyMachine step verdict).sweep items p = some (rest, q)) :
    ∃ reasons, (Step.pass (items.map step)).run p = (.ok (rest.map step, reasons), q) := by
  induction items generalizing p rest with
  | nil =>
    cases h
    exact ⟨[], rfl⟩
  | cons i items ih =>
    rw [Machine.sweep] at h
    rw [List.map_cons, Step.pass_cons]
    rcases (step i).tried_run p with ⟨u, hattempt, htried⟩ | ⟨first, u, hattempt, htried⟩ |
      ⟨e, u, hattempt, -⟩
    · have hattempt : (bodyMachine step verdict).attempt i p = .done u := hattempt
      rw [hattempt] at h
      obtain ⟨reasons, hpass⟩ := ih h
      refine ⟨reasons, ?_⟩
      rw [run_bind_ok htried, run_bind_ok hpass]
      rfl
    · have hattempt : (bodyMachine step verdict).attempt i p = .waits u := hattempt
      rw [hattempt] at h
      obtain ⟨⟨later, last⟩, hswept, heq⟩ := Option.map_eq_some_iff.1 h
      cases heq
      obtain ⟨reasons, hpass⟩ := ih hswept
      refine ⟨first ++ reasons, ?_⟩
      rw [run_bind_ok htried, run_bind_ok hpass]
      rfl
    · have hattempt : (bodyMachine step verdict).attempt i p = .fails := hattempt
      rw [hattempt] at h
      cases h

theorem pass_of_broken {items : List ι} {p : Progress}
    (h : (bodyMachine step verdict).sweep items p = none) :
    ∃ e q, (Step.pass (items.map step)).run p = (.error (.failed e), q) := by
  induction items generalizing p with
  | nil => cases h
  | cons i items ih =>
    rw [Machine.sweep] at h
    rw [List.map_cons, Step.pass_cons]
    rcases (step i).tried_run p with ⟨u, hattempt, htried⟩ | ⟨first, u, hattempt, htried⟩ |
      ⟨e, u, -, htried⟩
    · have hattempt : (bodyMachine step verdict).attempt i p = .done u := hattempt
      rw [hattempt] at h
      obtain ⟨e, q, hpass⟩ := ih h
      refine ⟨e, q, ?_⟩
      rw [run_bind_ok htried, run_bind_error hpass]
    · have hattempt : (bodyMachine step verdict).attempt i p = .waits u := hattempt
      rw [hattempt] at h
      obtain ⟨e, q, hpass⟩ := ih (Option.map_eq_none_iff.1 h)
      refine ⟨e, q, ?_⟩
      rw [run_bind_ok htried, run_bind_error hpass]
    · refine ⟨e, u, ?_⟩
      rw [run_bind_error htried]

/-- A body and the first of its passes. -/
theorem settle_run {bound : Nat} {steps deferred : List (Step Unit)} {reasons : List Deferral}
    {p q : Progress}
    (h : (Step.pass steps).run p = (.ok (deferred, reasons), q)) :
    (Step.settle (bound + 1) steps).run p =
      if deferred.isEmpty then (.ok (), q)
      else if deferred.length = steps.length then (.error (.deferred reasons), q)
      else (Step.settle bound deferred).run q := by
  have hsettle : Step.settle (bound + 1) steps = Step.pass steps >>= fun passed =>
      if passed.1.isEmpty then pure ()
      else if passed.1.length = steps.length then throw (.deferred passed.2)
      else Step.settle bound passed.1 := rfl
  rw [hsettle, run_bind_ok h]
  by_cases hempty : deferred.isEmpty = true
  · rw [if_pos hempty, if_pos hempty]
    rfl
  · rw [if_neg hempty, if_neg hempty]
    by_cases hlength : deferred.length = steps.length
    · rw [if_pos hlength, if_pos hlength]
      rfl
    · rw [if_neg hlength, if_neg hlength]

theorem isEmpty_map_eq_false {rest : List ι} (h : rest ≠ []) :
    ¬ (rest.map step).isEmpty = true := by
  rw [List.isEmpty_iff]
  exact fun hnil => h (List.map_eq_nil_iff.1 hnil)

theorem settle_of_settles {items : List ι} {p q : Progress} {bound : Nat}
    (h : Settles (bodyMachine step verdict) items p q)
    (hbound : items.length ≤ bound) :
    (Step.settle bound (items.map step)).run p = (.ok (), q) := by
  induction h generalizing bound with
  | @last items p q hsweep =>
    cases bound with
    | zero =>
      obtain rfl := List.length_eq_zero_iff.1 (Nat.le_zero.1 hbound)
      cases hsweep
      rfl
    | succ bound =>
      obtain ⟨reasons, hpass⟩ := pass_of_sweep hsweep
      rw [settle_run hpass]
      rfl
  | again hsweep hrest hless _ ih =>
    cases bound with
    | zero => omega
    | succ bound =>
      obtain ⟨reasons, hpass⟩ := pass_of_sweep hsweep
      rw [settle_run hpass, if_neg (isEmpty_map_eq_false hrest), List.length_map, List.length_map,
        if_neg (Nat.ne_of_lt hless)]
      exact ih (by omega)

theorem settle_of_breaks {items : List ι} {p : Progress} {bound : Nat}
    (h : Breaks (bodyMachine step verdict) items p)
    (hbound : items.length ≤ bound) :
    ∃ e q, (Step.settle bound (items.map step)).run p = (.error (.failed e), q) := by
  induction h generalizing bound with
  | @now items p hsweep =>
    cases bound with
    | zero =>
      obtain rfl := List.length_eq_zero_iff.1 (Nat.le_zero.1 hbound)
      cases hsweep
    | succ bound =>
      obtain ⟨e, q, hpass⟩ := pass_of_broken hsweep
      exact ⟨e, q, run_bind_error hpass⟩
  | later hsweep hrest hless _ ih =>
    cases bound with
    | zero => omega
    | succ bound =>
      obtain ⟨reasons, hpass⟩ := pass_of_sweep hsweep
      rw [settle_run hpass, if_neg (isEmpty_map_eq_false hrest), List.length_map, List.length_map,
        if_neg (Nat.ne_of_lt hless)]
      exact ih (by omega)

theorem settle_of_stalls {items rest : List ι} {p q : Progress} {bound : Nat}
    (h : Stalls (bodyMachine step verdict) items p rest q)
    (hbound : items.length ≤ bound) :
    ∃ reasons, (Step.settle bound (items.map step)).run p = (.error (.deferred reasons), q) := by
  induction h generalizing bound with
  | @now items rest p q hsweep hrest hsame =>
    cases bound with
    | zero =>
      obtain rfl := List.length_eq_zero_iff.1 (Nat.le_zero.1 hbound)
      exact (hrest (List.length_eq_zero_iff.1 hsame)).elim
    | succ bound =>
      obtain ⟨reasons, hpass⟩ := pass_of_sweep hsweep
      refine ⟨reasons, ?_⟩
      rw [settle_run hpass, if_neg (isEmpty_map_eq_false hrest), List.length_map, List.length_map,
        if_pos hsame]
  | later hsweep hrest hless _ ih =>
    cases bound with
    | zero => omega
    | succ bound =>
      obtain ⟨reasons, hpass⟩ := pass_of_sweep hsweep
      rw [settle_run hpass, if_neg (isEmpty_map_eq_false hrest), List.length_map, List.length_map,
        if_neg (Nat.ne_of_lt hless)]
      exact ih (by omega)

theorem length_le_map (items : List ι) : items.length ≤ (items.map step).length :=
  Nat.le_of_eq (List.length_map _).symm

theorem body_of_settles {items : List ι} {p q : Progress}
    (h : Settles (bodyMachine step verdict) items p q) :
    (Step.body (items.map step)).run p = (.ok (), q) :=
  settle_of_settles h (length_le_map items)

theorem body_of_breaks {items : List ι} {p : Progress}
    (h : Breaks (bodyMachine step verdict) items p) :
    ∃ e q, (Step.body (items.map step)).run p = (.error (.failed e), q) :=
  settle_of_breaks h (length_le_map items)

theorem body_of_stalls {items rest : List ι} {p q : Progress}
    (h : Stalls (bodyMachine step verdict) items p rest q) :
    ∃ reasons, (Step.body (items.map step)).run p = (.error (.deferred reasons), q) :=
  settle_of_stalls h (length_le_map items)

end Passes

end Provision

import Provision.Proofs.Evaluation.AtOnce
import Provision.Proofs.Evaluation.Attempts
import Provision.Proofs.Evaluation.Listing

/-!
# What a statement does not look at

No statement looks at what was read before it or at the credentials that were
named: they are only kept for the resource around it.  So a body whose deferred
attempts leave nothing else behind comes to the same when each of its items is
run once, in the order in which they get done.
-/

namespace Provision

open Provision.Language (Node)

/-- Inventory, declarations and scope are the same. -/
structure Progress.Like (p q : Progress) : Prop where
  inventory : q.inventory = p.inventory
  declared : q.declared = p.declared
  scope : q.scope = p.scope

namespace Progress.Like

variable {p q r : Progress}

theorem refl (p : Progress) : p.Like p :=
  ⟨rfl, rfl, rfl⟩

theorem trans (h : p.Like q) (h' : q.Like r) : p.Like r :=
  ⟨h'.inventory.trans h.inventory, h'.declared.trans h.declared, h'.scope.trans h.scope⟩

theorem view_eq (h : p.Like q) (setting : Setting) (frame : Frame) (span : Span) :
    q.view setting frame span = p.view setting frame span := by
  unfold Progress.view
  rw [h.inventory, h.scope]

theorem clash_eq (h : p.Like q) (site : Site) (key : Key) : q.clash site key = p.clash site key := by
  unfold Progress.clash
  rw [h.inventory, h.declared]

/-- A body starts from the same progress in both. -/
theorem collecting_eq (h : p.Like q) :
    { q with reads := [], credentials := none } = { p with reads := [], credentials := none } := by
  rw [h.inventory, h.declared, h.scope]

end Progress.Like

namespace Step

variable {α β : Type} {p q : Progress}

/-- From like states the step comes to the same outcome and to like states. -/
def Blind (step : Step α) : Prop :=
  ∀ p q, p.Like q → (step.run q).1 = (step.run p).1 ∧ (step.run p).2.Like (step.run q).2

theorem blind_pure (a : α) : (pure a : Step α).Blind :=
  fun _ _ h => ⟨rfl, h⟩

theorem blind_throw (interrupt : Interrupt) : (throw interrupt : Step α).Blind :=
  fun _ _ h => ⟨rfl, h⟩

theorem blind_settled (outcome : Except EvalError α) : (Step.settled outcome).Blind := by
  cases outcome with
  | ok a => exact blind_pure a
  | error e => exact blind_throw _

theorem blind_modify {change : Progress → Progress}
    (h : ∀ p q, p.Like q → (change p).Like (change q)) :
    (modify change : Step Unit).Blind :=
  fun p q hlike => ⟨rfl, h p q hlike⟩

theorem Blind.bind {m : Step α} {f : α → Step β} (hm : m.Blind)
    (hf : ∀ a p q, m.run p = (.ok a, q) → (f a).Blind) :
    (m >>= f).Blind := by
  intro p q hlike
  obtain ⟨houtcome, hafter⟩ := hm p q hlike
  rw [run_bind, run_bind]
  cases hrun : m.run p with
  | mk outcome after =>
    cases hrun' : m.run q with
    | mk outcome' after' =>
      rw [hrun, hrun'] at houtcome hafter
      cases houtcome
      rcases outcome with interrupt | a
      · exact ⟨rfl, hafter⟩
      · exact hf a p after hrun _ _ hafter

/-- A look at the progress that sees the same in like states. -/
theorem blind_get {f : Progress → Step α} (hf : ∀ p q, p.Like q → f q = f p)
    (h : ∀ p, (f p).Blind) :
    (get >>= f).Blind := by
  intro p q hlike
  rw [run_bind_ok (run_get p), run_bind_ok (run_get q), hf p q hlike]
  exact h p p q hlike

theorem blind_reading (e : Evaluator) (frame : Frame) (span : Span) {run : View → Recording α}
    (h : ∀ view, (run view).Steady) :
    (e.reading frame span run).Blind := by
  intro p q hlike
  rw [reading_run, reading_run, hlike.view_eq]
  exact ⟨h _ q.reads p.reads, hlike.inventory, hlike.declared, hlike.scope⟩

theorem blind_naming (e : Evaluator) (frame : Frame) (span : Span) (name : Node) :
    (e.reading frame span fun view => do
      let value ← evaluate view name
      nameOf view value).Blind :=
  blind_reading e frame span fun view =>
    (Recording.composes_steady view).bind ((Recording.composes_steady view).evaluate name)
      fun value => (Recording.composes_steady view).nameOf value

/-- A body of its own starts without reads and credentials. -/
theorem blind_collecting (step : Step α) : (Step.collecting step).Blind := by
  intro p q hlike
  rw [collecting_run, collecting_run, hlike.collecting_eq]
  exact ⟨rfl, rfl, rfl, rfl⟩

theorem Blind.tried {step : Step Unit} (h : step.Blind) : step.tried.Blind := by
  intro p q hlike
  obtain ⟨houtcome, hafter⟩ := h p q hlike
  rw [tried_run_eq, tried_run_eq]
  generalize step.run p = result at houtcome hafter
  generalize step.run q = result' at houtcome hafter
  obtain ⟨outcome, after⟩ := result
  obtain ⟨outcome', after'⟩ := result'
  cases houtcome
  rcases outcome with (reasons | error) | ⟨⟩
  · exact ⟨rfl, hafter⟩
  · exact ⟨rfl, hafter⟩
  · exact ⟨rfl, hafter⟩

theorem Blind.inScope {step : Step Unit} (h : step.Blind) (enter : Scope → Scope) :
    (Step.inScope enter step).Blind := by
  intro p q hlike
  obtain ⟨houtcome, hafter⟩ := h { p with scope := enter p.scope } { q with scope := enter q.scope }
    ⟨hlike.inventory, hlike.declared, congrArg enter hlike.scope⟩
  rw [inScope_run, inScope_run]
  dsimp only
  rw [houtcome, hafter.scope]
  exact ⟨rfl, hafter.inventory, hafter.declared, hlike.scope⟩

/-- What composition keeps is blind. -/
theorem composes_blind : Composes (fun _ => True) fun _ _ step => step.Blind where
  pure a _ := blind_pure a
  fail _ _ error _ := blind_throw _
  waits _ _ reasons := blind_throw _
  bind := Blind.bind
  mono _ h := h
  evaluating _ e frame span node _ :=
    blind_reading e frame span fun view => (Recording.composes_steady view).evaluate node
  naming _ e frame span node _ := blind_naming e frame span node
  extending d value _ :=
    blind_get (fun p q hlike => by rw [hlike.inventory]) fun p => blind_settled _
  bindings change _ _ :=
    blind_modify fun p q hlike => ⟨hlike.inventory, hlike.declared, congrArg change hlike.scope⟩
  credentials _ name :=
    blind_modify fun p q hlike => ⟨hlike.inventory, hlike.declared, hlike.scope⟩
  tried := Blind.tried
  inScope enter _ h := h.inScope enter

end Step

/-- Expanding an instance is blind. -/
def Evaluator.Blind (e : Evaluator) : Prop :=
  ∀ template frame span, (e.expand template frame span).Blind

theorem register_blind (frame : Frame) (resource : Resource) : (register frame resource).Blind := by
  intro p q hlike
  rw [register_run_eq, register_run_eq, hlike.clash_eq]
  cases p.clash ⟨frame.site, resource.origin⟩ resource.key with
  | some first => exact ⟨rfl, hlike⟩
  | none =>
    refine ⟨rfl, ?_, ?_, hlike.scope⟩
    · dsimp only
      rw [hlike.inventory]
    · dsimp only
      rw [hlike.declared]

theorem resourceBody_blind (frame : Frame) (steps : List (Bool × Step Unit)) :
    (resourceBody frame steps).Blind :=
  (Step.blind_collecting _).bind fun _ _ _ _ => Step.blind_pure _

theorem declareResource_blind (e : Evaluator) (frame : Frame) (type : ResourceType) (name : String)
    (source : List Node) (span : Span) (steps : List (Bool × Step Unit)) :
    (declareResource e frame type name source span steps).Blind := by
  unfold declareResource
  refine (Step.blind_settled _).bind fun key _ _ _ => ?_
  refine (resourceBody_blind frame steps).bind fun body _ _ _ => ?_
  refine (Step.blind_settled _).bind fun resource _ _ _ => ?_
  refine Step.blind_get (fun p q hlike => ?_) fun p => register_blind _ _
  dsimp only
  rw [hlike.scope]

/-- A statement is blind. -/
theorem runStatement_blind {e : Evaluator} (he : e.Blind) (node : Node) (frame : Frame) :
    (runStatement e node frame).Blind := by
  refine Step.composes_blind.assembles.statement e (fun _ => True) (fun _ _ _ _ => trivial)
    (fun _ _ _ _ => trivial) ?_ trivial frame
  intro typeText name source span _ hsource frame
  unfold runStatement
  refine (Step.blind_settled _).bind fun type _ _ _ => ?_
  refine (Step.blind_naming e frame span name).bind fun text _ _ _ => ?_
  refine Step.blind_get (fun p q hlike => ?_) fun p => ?_
  · rw [hlike.inventory]
  · split
    · refine Step.composes_blind.assembles.instantiate e frame (fun _ => Step.blind_collecting _) _
        (he _) _ _ fun step hstep => ?_
      rw [runStatements_eq_map] at hstep
      obtain ⟨node, hnode, rfl⟩ := List.mem_map.1 hstep
      exact hsource node hnode _
    · split
      · exact Step.blind_throw _
      · exact declareResource_blind e frame _ _ _ _ _

theorem atDepth_blind (setting : Setting) (depth : Nat) : (Evaluator.atDepth setting depth).Blind := by
  induction depth with
  | zero => exact fun template frame span => Step.blind_throw _
  | succ depth ih =>
    intro template frame span
    refine Step.composes_blind.assembles.body fun step hstep => ?_
    rw [runStatements_eq_map] at hstep
    obtain ⟨node, -, rfl⟩ := List.mem_map.1 hstep
    exact runStatement_blind ih node frame

/-! ## Each item once -/

namespace Step

variable {ι : Type} {run : ι → Step Unit} {items : List ι} {p q : Progress}

theorem sequence_append (steps : List (Step Unit)) (last : Step Unit) (p : Progress) :
    (Step.sequence (steps ++ [last])).run p = (Step.sequence steps >>= fun _ => last).run p := by
  induction steps generalizing p with
  | nil =>
    show (last >>= fun _ => pure ()).run p = last.run p
    rw [run_bind]
    rcases last.run p with ⟨interrupt | ⟨⟩, q⟩ <;> rfl
  | cons step rest ih =>
    show (step >>= fun _ => Step.sequence (rest ++ [last])).run p =
      ((step >>= fun _ => Step.sequence rest) >>= fun _ => last).run p
    rw [bind_assoc, run_bind, run_bind]
    rcases step.run p with ⟨interrupt | ⟨⟩, q⟩
    · rfl
    · exact ih q

/-- When deferred attempts leave nothing behind, a body comes to what its items come to that are
run once each, in the order in which they get done. -/
theorem sequence_of_body (hblind : ∀ i, (run i).Blind)
    (hleaves : ∀ attempt ∈ attempts run p items, ∀ reasons q,
      (run attempt.2).run attempt.1 = (.error (.deferred reasons), q) → attempt.1.Like q)
    (hrun : (Step.body (items.map run)).run p = (.ok (), q)) :
    ∃ q', (Step.sequence ((successes run (attempts run p items)).map fun attempt =>
        run attempt.2)).run p = (.ok (), q') ∧ q.Like q' := by
  have hkeeps := body_keeps (fun past last _ =>
    (∀ attempt ∈ past, ∀ reasons q,
      (run attempt.2).run attempt.1 = (.error (.deferred reasons), q) → attempt.1.Like q) →
    ∃ q', (Step.sequence ((successes run past).map fun attempt => run attempt.2)).run p =
      (.ok (), q') ∧ last.Like q') ?_ ?_ (fun _ => ⟨p, rfl, .refl p⟩) hrun
  · exact hkeeps hleaves
  · intro past p' front i back q hinv hdone hleaves
    obtain ⟨q', hsequence, hlike⟩ := hinv fun attempt hattempt =>
      hleaves attempt (List.mem_append_left _ hattempt)
    obtain ⟨houtcome, hafter⟩ := hblind i _ _ hlike
    rw [hdone] at houtcome hafter
    refine ⟨((run i).run q').2, ?_, hafter⟩
    rw [successes_append_done hdone, List.map_append, List.map_singleton, sequence_append,
      run_bind_ok hsequence]
    exact Prod.ext houtcome rfl
  · intro past p' front i back reasons q hinv hdeferred hleaves
    obtain ⟨q', hsequence, hlike⟩ := hinv fun attempt hattempt =>
      hleaves attempt (List.mem_append_left _ hattempt)
    have hsame := hleaves (p', i) (by simp) reasons q hdeferred
    refine ⟨q', by rwa [successes_append_deferred hdeferred], ?_⟩
    exact ⟨hlike.inventory.trans hsame.inventory.symm, hlike.declared.trans hsame.declared.symm,
      hlike.scope.trans hsame.scope.symm⟩

end Step

end Provision

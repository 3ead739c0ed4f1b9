import Provision.Proofs.Evaluation.Composition

/-!
# Reasons to wait

An attempt that is deferred says what it waits for.  The references of an expression give the
reasons, a loop or an instance passes them on, and a body that stays unfinished gathers those of
the statements that are left in it: there is at least one each time.
-/

namespace Provision

open Provision.Language (Node)

/-- An attempt that waits does so for some reason. -/
def Interrupt.HasReason : Interrupt → Prop
  | .deferred reasons => reasons ≠ []
  | .failed _ => True

/-- When the computation is deferred, there is a reason for it. -/
def Reasoned {σ α : Type} (m : ExceptT Interrupt (StateM σ) α) : Prop :=
  ∀ s i t, m.run s = (.error i, t) → i.HasReason

section Reasoned

variable {σ α β : Type}

theorem reasoned_pure (a : α) : Reasoned (pure a : ExceptT Interrupt (StateM σ) α) := by
  intro _ _ _ h
  cases h

theorem reasoned_throw {i : Interrupt} (h : i.HasReason) :
    Reasoned (throw i : ExceptT Interrupt (StateM σ) α) := by
  rintro _ _ _ ⟨⟩
  exact h

theorem reasoned_modify (change : σ → σ) :
    Reasoned (modify change : ExceptT Interrupt (StateM σ) Unit) := by
  intro _ _ _ h
  cases h

theorem reasoned_get : Reasoned (get : ExceptT Interrupt (StateM σ) σ) := by
  intro _ _ _ h
  cases h

/-- The second part need only give a reason where the first part leads. -/
theorem Reasoned.bind_of {m : ExceptT Interrupt (StateM σ) α}
    {f : α → ExceptT Interrupt (StateM σ) β} (hm : Reasoned m)
    (hf : ∀ a s t, m.run s = (.ok a, t) → Reasoned (f a)) :
    Reasoned (m >>= f) := by
  intro s i t hrun
  rw [run_bind] at hrun
  split at hrun
  · next hfirst => exact hf _ _ _ hfirst _ _ _ hrun
  · next hfirst =>
    cases hrun
    exact hm _ _ _ hfirst

theorem Reasoned.bind {m : ExceptT Interrupt (StateM σ) α}
    {f : α → ExceptT Interrupt (StateM σ) β} (hm : Reasoned m) (hf : ∀ a, Reasoned (f a)) :
    Reasoned (m >>= f) :=
  hm.bind_of fun a _ _ _ => hf a

end Reasoned

theorem Recording.composes_reasoned (view : View) : Composes view fun m => Reasoned m where
  pure := reasoned_pure
  record _ := reasoned_modify _
  failWith _ _ := reasoned_throw trivial
  waiting _ _ _ := reasoned_throw (List.cons_ne_nil _ _)
  bind hm hf := hm.bind hf

/-! ## Steps -/

namespace Step

variable {α : Type}

theorem reasoned_settled (outcome : Except EvalError α) : Reasoned (Step.settled outcome) := by
  cases outcome with
  | ok a => exact reasoned_pure a
  | error e => exact reasoned_throw trivial

theorem reasoned_reading (e : Evaluator) (frame : Frame) (span : Span) {run : View → Recording α}
    (h : ∀ view, Reasoned (run view)) :
    Reasoned (e.reading frame span run) := by
  intro p i q hrun
  rw [reading_run, Prod.mk.injEq] at hrun
  exact h _ _ _ _ (Prod.ext hrun.1 rfl)

theorem reasoned_collecting {step : Step α} (h : Reasoned step) :
    Reasoned (Step.collecting step) := by
  intro p i q hrun
  rw [collecting_run, Prod.mk.injEq] at hrun
  cases hstep : step.run { p with reads := [], credentials := none } with
  | mk outcome after =>
    rw [hstep] at hrun
    cases outcome with
    | error j =>
      cases hrun.1
      exact h _ _ _ hstep
    | ok a => cases hrun.1

theorem reasoned_inScope {step : Step Unit} (h : Reasoned step) (enter : Scope → Scope) :
    Reasoned (Step.inScope enter step) := by
  intro p i q hrun
  rw [inScope_run, Prod.mk.injEq] at hrun
  cases hstep : step.run { p with scope := enter p.scope } with
  | mk outcome after =>
    rw [hstep] at hrun
    cases outcome with
    | error j =>
      cases hrun.1
      exact h _ _ _ hstep
    | ok a => cases hrun.1

/-! ### Bodies -/

theorem reasons_of_tried {step : Step Unit} (h : Reasoned step) {p q : Progress}
    {reasons : List Deferral} (hrun : step.tried.run p = (.ok (some reasons), q)) :
    reasons ≠ [] := by
  rw [tried_run_eq] at hrun
  split at hrun
  · cases hrun
  · next hstep =>
    cases hrun
    exact h _ _ _ hstep
  · cases hrun

theorem reasoned_tried (step : Step Unit) : Reasoned step.tried := by
  intro p i q hrun
  rw [tried_run_eq] at hrun
  split at hrun
  · cases hrun
  · cases hrun
  · cases hrun
    trivial

theorem reasoned_pass (steps : List (Step Unit)) : Reasoned (Step.pass steps) := by
  induction steps with
  | nil => exact reasoned_pure _
  | cons step rest ih =>
    rw [pass_cons]
    refine (reasoned_tried step).bind fun waiting => ih.bind fun passed => ?_
    cases waiting <;> exact reasoned_pure _

/-- The steps that are left after a pass have given reasons. -/
theorem reasons_of_pass {steps left : List (Step Unit)} {reasons : List Deferral} {p q : Progress}
    (h : ∀ step ∈ steps, Reasoned step) (hrun : (Step.pass steps).run p = (.ok (left, reasons), q))
    (hleft : left ≠ []) :
    reasons ≠ [] := by
  induction steps generalizing left reasons p with
  | nil =>
    cases hrun
    exact absurd rfl hleft
  | cons step rest ih =>
    rw [pass_cons] at hrun
    obtain ⟨waiting, between, htried, hrun⟩ := run_bind_eq_ok.1 hrun
    obtain ⟨⟨later, others⟩, last, hpass, hrun⟩ := run_bind_eq_ok.1 hrun
    cases waiting with
    | none =>
      cases hrun
      exact ih (fun other hother => h other (List.mem_cons_of_mem _ hother)) hpass hleft
    | some first =>
      cases hrun
      have hfirst := reasons_of_tried (h step List.mem_cons_self) htried
      exact fun hnil => hfirst (List.append_eq_nil_iff.1 hnil).1

theorem reasoned_settle (bound : Nat) {steps : List (Step Unit)}
    (h : ∀ step ∈ steps, Reasoned step) :
    Reasoned (Step.settle bound steps) := by
  induction bound generalizing steps with
  | zero => exact reasoned_pure _
  | succ bound ih =>
    unfold Step.settle
    refine (reasoned_pass steps).bind_of ?_
    rintro ⟨left, reasons⟩ p q hpass
    dsimp only
    split
    · exact reasoned_pure _
    · next hleft =>
      split
      · exact reasoned_throw (reasons_of_pass h hpass fun hnil => hleft (by simp [hnil]))
      · exact ih fun step hstep => h step (pass_subset steps p q left reasons hpass step hstep)

theorem assembles_reasoned : Assembles (fun _ => True) fun _ _ step => Reasoned step where
  pure a _ := reasoned_pure a
  fail _ _ _ _ := reasoned_throw trivial
  bind hm hf := hm.bind_of hf
  mono _ h := h
  evaluating _ e frame span node _ :=
    reasoned_reading e frame span fun view => (Recording.composes_reasoned view).evaluate node
  naming _ e frame span node _ :=
    reasoned_reading e frame span fun view =>
      ((Recording.composes_reasoned view).evaluate node).bind fun value =>
        (Recording.composes_reasoned view).nameOf value
  extending _ _ _ := reasoned_get.bind fun _ => reasoned_settled _
  bindings _ _ _ := reasoned_modify _
  credentials _ _ := reasoned_modify _
  inScope enter _ h := reasoned_inScope h enter
  body h := reasoned_settle _ h

end Step

/-! ## Statements -/

theorem register_reasoned (frame : Frame) (resource : Resource) :
    Reasoned (register frame resource) := by
  unfold register
  refine reasoned_get.bind fun progress => ?_
  dsimp only
  split
  · exact reasoned_throw trivial
  · intro _ _ _ h
    cases h

theorem declareResource_reasoned (e : Evaluator) (frame : Frame) (type : ResourceType)
    (name : String) (source : List Node) (span : Span) {steps : List (Bool × Step Unit)}
    (hsteps : ∀ step ∈ steps, Reasoned step.2) :
    Reasoned (declareResource e frame type name source span steps) := by
  unfold declareResource
  refine (Step.reasoned_settled _).bind fun key => ?_
  refine (Step.assembles_reasoned.resourceBody frame Step.reasoned_collecting hsteps).bind
    fun body => ?_
  refine (Step.reasoned_settled _).bind fun resource => ?_
  exact reasoned_get.bind fun progress => register_reasoned _ _

/-- A statement that is deferred waits for something, as long as the instances in it do. -/
theorem runStatement_reasoned {e : Evaluator}
    (he : ∀ template frame span, Reasoned (e.expand template frame span)) (node : Node)
    (frame : Frame) :
    Reasoned (runStatement e node frame) := by
  have h := Step.assembles_reasoned
  refine h.statement e (fun _ => True) (fun _ _ _ _ => trivial) (fun _ _ _ _ => trivial) ?_ trivial
    frame
  intro typeText name source span _ hsource frame
  unfold runStatement
  refine (Step.reasoned_settled _).bind fun type => ?_
  refine (h.naming [] e frame span trivial).bind fun text => ?_
  refine reasoned_get.bind fun progress => ?_
  split
  · refine h.instantiate e frame Step.reasoned_collecting _ (he _) _ _ fun step hstep => ?_
    rw [runStatements_eq_map] at hstep
    obtain ⟨node, hnode, rfl⟩ := List.mem_map.1 hstep
    exact hsource node hnode _
  · split
    · exact reasoned_throw trivial
    · refine declareResource_reasoned e frame _ _ _ _ fun step hstep => ?_
      rw [runMarked_eq_map] at hstep
      obtain ⟨node, hnode, rfl⟩ := List.mem_map.1 hstep
      exact hsource node hnode _

/-- However deep instances may nest, a statement that is deferred waits for something. -/
theorem atDepth_reasoned (setting : Setting) (depth : Nat) (node : Node) (frame : Frame) :
    Reasoned (runStatement (Evaluator.atDepth setting depth) node frame) := by
  induction depth generalizing node frame with
  | zero =>
    refine runStatement_reasoned (fun template inner span p i q hrun => ?_) node frame
    cases hrun
    trivial
  | succ depth ih =>
    refine runStatement_reasoned (fun template inner span => ?_) node frame
    refine Step.assembles_reasoned.body fun step hstep => ?_
    rw [runStatements_eq_map] at hstep
    obtain ⟨child, -, rfl⟩ := List.mem_map.1 hstep
    exact ih child inner

end Provision

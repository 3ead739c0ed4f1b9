import Provision.Proofs.Evaluation.Composition

/-!
# Statements that declare nothing

A statement without resource blocks leaves the inventory alone.  It does not look
at the places of earlier declarations either: whatever these are, it does the
same.  Before it names or collects anything it has read all that it needs, so
when it waits, the scope is as it was.
-/

namespace Provision

open Provision.Language (Node Branch Directive)

namespace Step

variable {α β : Type}

/-- The step leaves the inventory alone, forgets no read, never looks at where resources were
declared and binds a name once. -/
structure Quiet (step : Step α) : Prop where
  inventory : ∀ p, (step.run p).2.inventory = p.inventory
  reads : ∀ p key, key ∈ p.reads → key ∈ (step.run p).2.reads
  declared : ∀ p declared, step.run { p with declared := declared } =
    ((step.run p).1, { (step.run p).2 with declared := declared })
  neat : ∀ p, p.scope.Neat → (step.run p).2.scope.Neat

/-- The step leaves the scope as it is. -/
def Still (step : Step α) : Prop :=
  ∀ p, (step.run p).2.scope = p.scope

theorem Quiet.bind {m : Step α} {f : α → Step β} (hm : m.Quiet)
    (hf : ∀ a p q, m.run p = (.ok a, q) → (f a).Quiet) :
    (m >>= f).Quiet := by
  constructor
  · intro p
    have hfirst := hm.inventory p
    rw [run_bind]
    cases hrun : m.run p with
    | mk outcome q =>
      rw [hrun] at hfirst
      rcases outcome with i | a
      · exact hfirst
      · exact ((hf a p q hrun).inventory q).trans hfirst
  · intro p key hkey
    have hfirst := hm.reads p key hkey
    rw [run_bind]
    cases hrun : m.run p with
    | mk outcome q =>
      rw [hrun] at hfirst
      rcases outcome with i | a
      · exact hfirst
      · exact (hf a p q hrun).reads q key hfirst
  · intro p declared
    have hfirst := hm.declared p declared
    rw [run_bind, run_bind, hfirst]
    cases hrun : m.run p with
    | mk outcome q =>
      rcases outcome with i | a
      · rfl
      · exact (hf a p q hrun).declared q declared
  · intro p hneat
    have hfirst := hm.neat p hneat
    rw [run_bind]
    cases hrun : m.run p with
    | mk outcome q =>
      rw [hrun] at hfirst
      rcases outcome with i | a
      · exact hfirst
      · exact (hf a p q hrun).neat q hfirst

theorem quiet_pure (a : α) : (pure a : Step α).Quiet :=
  ⟨fun _ => rfl, fun _ _ h => h, fun _ _ => rfl, fun _ h => h⟩

theorem quiet_throw (interrupt : Interrupt) : (throw interrupt : Step α).Quiet :=
  ⟨fun _ => rfl, fun _ _ h => h, fun _ _ => rfl, fun _ h => h⟩

theorem quiet_fail (error : EvalError) : (Step.fail error : Step α).Quiet :=
  quiet_throw (.failed error)

theorem quiet_settled (outcome : Except EvalError α) : (Step.settled outcome).Quiet := by
  cases outcome with
  | ok a => exact quiet_pure a
  | error e => exact quiet_fail e

theorem quiet_reading (e : Evaluator) (frame : Frame) (span : Span) {run : View → Recording α}
    (h : ∀ view, (run view).Grows) :
    (e.reading frame span run).Quiet :=
  ⟨fun _ => rfl, fun p key hkey => h _ p.reads key hkey, fun _ _ => rfl, fun _ h => h⟩

theorem quiet_naming (e : Evaluator) (frame : Frame) (span : Span) (name : Node) :
    (e.reading frame span fun view => do
      let value ← evaluate view name
      nameOf view value).Quiet :=
  quiet_reading e frame span fun view =>
    (evaluate_grows view name).bind fun value => nameOf_grows view value

theorem Quiet.collecting {step : Step α} (h : step.Quiet) : (Step.collecting step).Quiet := by
  refine ⟨fun p => h.inventory _, fun p key hkey => hkey, fun p declared => ?_,
    fun p hneat => h.neat { p with reads := [], credentials := none } hneat⟩
  rw [collecting_run, collecting_run]
  have hinner := h.declared { p with reads := [], credentials := none } declared
  dsimp only at hinner ⊢
  rw [hinner]

/-- The scope that a quiet body leaves behind binds each name once. -/
theorem Quiet.neat_collected {step : Step Unit} (h : step.Quiet) {p q : Progress} {scope : Scope}
    {reads : List Key} {credentials : Option String} (hneat : p.scope.Neat)
    (hrun : (Step.collecting (Step.inScope Scope.child step)).run p =
      (.ok (scope, reads, credentials), q)) :
    scope.Neat := by
  have hinner := h.neat
    { p with reads := [], credentials := none, scope := p.scope.child } hneat.child
  rw [collecting_run, inScope_run] at hrun
  dsimp only at hrun
  generalize step.run _ = result at hrun hinner
  obtain ⟨outcome, after⟩ := result
  cases outcome with
  | ok done =>
    cases hrun
    exact hinner
  | error interrupt => cases hrun

theorem tried_state (step : Step Unit) (p : Progress) : (step.tried.run p).2 = (step.run p).2 := by
  rw [tried_run_eq]
  rcases step.run p with ⟨(reasons | e) | ⟨⟩, q⟩ <;> rfl

theorem Quiet.tried {step : Step Unit} (h : step.Quiet) : step.tried.Quiet := by
  constructor
  · intro p
    rw [tried_state]
    exact h.inventory p
  · intro p key hkey
    rw [tried_state]
    exact h.reads p key hkey
  · intro p declared
    rw [tried_run_eq, tried_run_eq, h.declared]
    rcases step.run p with ⟨(reasons | e) | ⟨⟩, q⟩ <;> rfl
  · intro p
    rw [tried_state]
    exact h.neat p

/-- What composition keeps is quiet. -/
theorem composes_quiet : Composes (fun _ => True) fun _ _ step => step.Quiet where
  pure a _ := quiet_pure a
  fail _ _ error _ := quiet_fail error
  waits _ _ reasons := quiet_throw (.deferred reasons)
  bind := Quiet.bind
  mono _ h := h
  evaluating _ e frame span node _ :=
    quiet_reading e frame span fun view => evaluate_grows view node
  naming _ e frame span node _ := quiet_naming e frame span node
  extending d value _ := by
    have hrun : ∀ p : Progress,
        (get >>= fun progress : Progress =>
          Step.settled (extension progress.inventory d value)).run p =
            (Step.settled (extension p.inventory d value)).run p :=
      fun p => run_bind_ok (run_get p)
    constructor
    · intro p
      rw [hrun]
      exact (quiet_settled _).inventory p
    · intro p key hkey
      rw [hrun]
      exact (quiet_settled _).reads p key hkey
    · intro p declared
      rw [hrun, hrun]
      exact (quiet_settled _).declared p declared
    · intro p
      rw [hrun]
      exact (quiet_settled _).neat p
  bindings _ _ hneat := ⟨fun _ => rfl, fun _ _ h => h, fun _ _ => rfl, fun p => hneat p.scope⟩
  credentials _ _ := ⟨fun _ => rfl, fun _ _ h => h, fun _ _ => rfl, fun _ h => h⟩
  tried := Quiet.tried
  inScope {_ step} enter _ h := by
    refine ⟨fun p => h.inventory _, fun p key hkey => h.reads _ key hkey, fun p declared => ?_,
      fun _ hneat => hneat⟩
    rw [inScope_run, inScope_run]
    have hinner := h.declared { p with scope := enter p.scope } declared
    dsimp only at hinner ⊢
    rw [hinner]

/-! ## The scope while a statement waits -/

theorem still_pure (a : α) : (pure a : Step α).Still :=
  fun _ => rfl

theorem still_fail (error : EvalError) : (Step.fail error : Step α).Still :=
  fun _ => rfl

theorem still_settled (outcome : Except EvalError α) : (Step.settled outcome).Still := by
  cases outcome with
  | ok a => exact still_pure a
  | error e => exact still_fail e

theorem still_reading (e : Evaluator) (frame : Frame) (span : Span) (run : View → Recording α) :
    (e.reading frame span run).Still :=
  fun _ => rfl

theorem still_get : (get : Step Progress).Still :=
  fun _ => rfl

theorem still_inScope (enter : Scope → Scope) (step : Step Unit) : (Step.inScope enter step).Still :=
  fun _ => rfl

theorem Still.bind {m : Step α} {f : α → Step β} (hm : m.Still) (hf : ∀ a, (f a).Still) :
    (m >>= f).Still := by
  intro p
  have hfirst := hm p
  rw [run_bind]
  cases hrun : m.run p with
  | mk outcome q =>
    rw [hrun] at hfirst
    rcases outcome with i | a
    · exact hfirst
    · exact (hf a q).trans hfirst

/-- When the step waits, it has left the scope as it was. -/
def WaitsStill (step : Step α) : Prop :=
  ∀ p reasons q, step.run p = (.error (.deferred reasons), q) → q.scope = p.scope

theorem Still.waitsStill {step : Step α} (h : step.Still) : step.WaitsStill := by
  intro p reasons q hrun
  have hscope := h p
  rw [hrun] at hscope
  exact hscope

/-- What changes the scope last of all has left it alone when it waits. -/
theorem Still.waitsStill_bind {m : Step α} {f : α → Step β} (hm : m.Still)
    (hf : ∀ a, (f a).WaitsStill) :
    (m >>= f).WaitsStill := by
  intro p reasons q hrun
  have hfirst := hm p
  rw [run_bind] at hrun
  cases hm' : m.run p with
  | mk outcome between =>
    rw [hm'] at hrun hfirst
    rcases outcome with i | a
    · cases hrun
      exact hfirst
    · exact (hf a _ _ _ hrun).trans hfirst

theorem waitsStill_modify (change : Progress → Progress) :
    (modify change : Step Unit).WaitsStill := by
  intro p reasons q hrun
  cases hrun

end Step

theorem still_of_run {α : Type} {step : Step α} (h : step.Still) {p q : Progress}
    {outcome : Except Interrupt α} (hrun : step.run p = (outcome, q)) :
    q.scope = p.scope := by
  have hscope := h p
  rwa [hrun] at hscope

/-! ## Statements without blocks -/

section Blockless

variable {e : Evaluator} {frame : Frame} {type : TypeName} {node : Node}

theorem mem_typesInAll {nodes : List Node} :
    type ∈ typesInAll nodes ↔ ∃ node ∈ nodes, type ∈ typesIn node := by
  induction nodes with
  | nil => simp [typesInAll]
  | cons node rest ih => simp [typesInAll, ih]

theorem mem_typesInBranches {branches : List Branch} :
    type ∈ typesInBranches branches ↔ ∃ branch ∈ branches, type ∈ typesInAll branch.body := by
  induction branches with
  | nil => simp [typesInBranches]
  | cons branch rest ih =>
    obtain ⟨name, arguments, body, span⟩ := branch
    simp [typesInBranches, ih]

theorem typesIn_of_inner {child : Node} (hchild : child ∈ node.inner)
    (h : type ∈ typesIn child) :
    type ∈ typesIn node := by
  cases node with
  | resource typeText name source span =>
    rw [typesIn, List.mem_append]
    exact Or.inr (mem_typesInAll.2 ⟨child, hchild, h⟩)
  | block key source span =>
    rw [typesIn]
    exact mem_typesInAll.2 ⟨child, hchild, h⟩
  | directive d =>
    obtain ⟨name, arguments, clauses, bodyless, body, branches, span⟩ := d
    rw [typesIn, List.mem_append]
    rcases List.mem_append.1 hchild with hchild | hchild
    · exact Or.inl (mem_typesInAll.2 ⟨child, hchild, h⟩)
    · obtain ⟨branch, hbranch, hchild⟩ := List.mem_flatMap.1 hchild
      exact Or.inr (mem_typesInBranches.2 ⟨branch, hbranch, mem_typesInAll.2 ⟨child, hchild, h⟩⟩)
  | _ => cases hchild

theorem typesInAll_eq_nil {nodes : List Node} :
    typesInAll nodes = [] ↔ ∀ node ∈ nodes, typesIn node = [] := by
  induction nodes with
  | nil => simp [typesInAll]
  | cons node rest ih => simp [typesInAll, ih]

theorem typesIn_inner {node : Node} (h : typesIn node = []) :
    ∀ child ∈ node.inner, typesIn child = [] := by
  intro child hchild
  refine List.eq_nil_iff_forall_not_mem.2 fun type htype => ?_
  have hmem := typesIn_of_inner hchild htype
  rw [h] at hmem
  cases hmem

/-- A block that can declare no resource has no type name, so that it fails at once. -/
theorem typeAt_of_typesIn {type : String} {name : Node} {source : List Node} {span : Span}
    (h : typesIn (.resource type name source span) = []) (place : Span) :
    ∃ error, typeAt place type = .error error := by
  rw [typesIn, List.append_eq_nil_iff] at h
  unfold typeAt
  cases hname : TypeName.ofText type with
  | ok found => simp [hname] at h
  | error cause => exact ⟨_, rfl⟩

/-- A statement that can declare no resource is quiet. -/
theorem runStatement_quiet (e : Evaluator) {node : Node} (h : typesIn node = []) (frame : Frame) :
    (runStatement e node frame).Quiet := by
  refine Step.composes_quiet.assembles.statement e (fun node => typesIn node = [])
    (fun _ _ _ _ => trivial) (fun _ => typesIn_inner) ?_ h frame
  intro type name source span htypes _ frame
  obtain ⟨error, htype⟩ := typeAt_of_typesIn htypes span
  unfold runStatement
  rw [htype]
  exact (Step.quiet_settled _).bind fun a p q hrun => nomatch hrun

theorem runStatements_quiet (e : Evaluator) {nodes : List Node} (h : typesInAll nodes = [])
    (frame : Frame) :
    ∀ step ∈ runStatements e nodes frame, step.Quiet := by
  intro step hstep
  rw [runStatements_eq_map] at hstep
  obtain ⟨node, hnode, rfl⟩ := List.mem_map.1 hstep
  exact runStatement_quiet e (typesInAll_eq_nil.1 h node hnode) frame

theorem runMarked_quiet (e : Evaluator) {nodes : List Node} (h : typesInAll nodes = [])
    (frame : Frame) :
    ∀ step ∈ runMarked e nodes frame, step.2.Quiet := by
  intro step hstep
  rw [runMarked_eq_map] at hstep
  obtain ⟨node, hnode, rfl⟩ := List.mem_map.1 hstep
  exact runStatement_quiet e (typesInAll_eq_nil.1 h node hnode) frame

theorem resourceBody_quiet (frame : Frame) {steps : List (Bool × Step Unit)}
    (h : ∀ step ∈ steps, step.2.Quiet) :
    (resourceBody frame steps).Quiet :=
  Step.composes_quiet.assembles.resourceBody frame Step.Quiet.collecting h

/-! ## Directives that wait -/

theorem still_runIterations {run : Frame → Step Unit} (span : Span) (names : List String)
    (index : Nat) (rounds : List (List Value)) :
    (runIterations frame span names run index rounds).Still := by
  induction rounds generalizing index with
  | nil => exact Step.still_pure _
  | cons values rest ih =>
    unfold runIterations
    refine (Step.still_inScope _ _).bind fun scope => ?_
    exact (ih (index + 1)).bind fun _ => Step.still_pure _

theorem waitsStill_runLoop (d : Directive) (run : Frame → Step Unit) :
    (runLoop e frame d run).WaitsStill := by
  unfold runLoop
  refine (Step.still_settled _).waitsStill_bind fun names => ?_
  split
  · exact (Step.still_fail _).waitsStill
  · split
    · exact (Step.still_fail _).waitsStill
    · refine (Step.still_reading _ _ _ _).waitsStill_bind fun value => ?_
      refine (Step.still_settled _).waitsStill_bind fun rounds => ?_
      refine (still_runIterations _ _ _ _).waitsStill_bind fun blocks => ?_
      exact Step.waitsStill_modify _

theorem still_exclude (d : Directive) (arguments : List Node) (entries : Bindings) :
    (exclude e frame d arguments entries).Still := by
  induction arguments generalizing entries with
  | nil => exact Step.still_pure _
  | cons argument rest ih =>
    unfold exclude
    refine (Step.still_reading _ _ _ _).bind fun value => ?_
    exact (Step.still_settled _).bind fun names => ih _

theorem waitsStill_runExtends (d : Directive) : (runExtends e frame d).WaitsStill := by
  unfold runExtends
  split
  · exact (Step.still_fail _).waitsStill
  · refine (Step.still_reading _ _ _ _).waitsStill_bind fun value => ?_
    refine Step.still_get.waitsStill_bind fun progress => ?_
    refine (Step.still_settled _).waitsStill_bind fun entries => ?_
    refine (still_exclude d _ _).waitsStill_bind fun left => ?_
    exact Step.waitsStill_modify _

theorem waitsStill_runCredentials (d : Directive) : (runCredentials e frame d).WaitsStill := by
  unfold runCredentials
  split
  · exact (Step.still_fail _).waitsStill
  · split
    · exact (Step.still_fail _).waitsStill
    · refine (Step.still_reading _ _ _ _).waitsStill_bind fun value => ?_
      split
      · exact Step.waitsStill_modify _
      · exact (Step.still_fail _).waitsStill

/-- A directive that does not choose between bodies has left the scope alone when it waits. -/
theorem waitsStill_runDirective {d : Directive} (hname : d.name ≠ "if") :
    (runDirective e d frame).WaitsStill := by
  obtain ⟨name, arguments, clauses, bodyless, body, branches, span⟩ := d
  unfold runDirective
  rw [if_neg hname]
  split
  · exact waitsStill_runLoop _ _
  · split
    · exact waitsStill_runExtends _
    · split
      · exact waitsStill_runCredentials _
      · repeat' split
        all_goals exact (Step.still_fail _).waitsStill

theorem waitsStill_pair (entry : Language.Entry) :
    (runStatement e (.pair entry) frame).WaitsStill := by
  obtain ⟨key, value, span⟩ := entry
  unfold runStatement
  exact (Step.still_reading _ _ _ _).waitsStill_bind fun found => Step.waitsStill_modify _

end Blockless

end Provision

import Provision.Proofs.Evaluation.Quiet
import Provision.Proofs.Evaluation.Rounds
import Provision.Proofs.Evaluation.Sound

/-!
# The types that a statement may declare

Before the first pass the evaluation notes which types each statement may declare:
those of the blocks inside it, those of the blocks in the templates that it is an
instance of, and so on.  Following the templates as often as there are templates
finds all of them.  Whatever comes of trying a statement, it registers resources of
these types alone.
-/

namespace Provision

open Provision.Language (Node Branch)

/-- The statements that are evaluated for a statement: itself, those inside it, and those of the
templates that it has instances of. -/
inductive PartOf (virtuals : Table TypeName VirtualType) (root : Node) : Node → Prop
  | root : PartOf virtuals root root
  | inside {node child : Node} (h : PartOf virtuals root node) (hchild : child ∈ node.inner) :
      PartOf virtuals root child
  | expanded {typeText : String} {name : Node} {source : List Node} {span : Span}
      {type : TypeName} {template : VirtualType} {child : Node}
      (h : PartOf virtuals root (.resource typeText name source span))
      (htype : TypeName.ofText typeText = .ok type)
      (htemplate : Table.get? virtuals type = some template)
      (hchild : child ∈ template.body) :
      PartOf virtuals root child

/-! ## Types noted beforehand -/

section Types

variable {virtuals : Table TypeName VirtualType} {types : List TypeName} {type : TypeName}
variable {root node : Node}

theorem mem_typesIn_self {typeText : String} {name : Node} {source : List Node} {span : Span}
    (h : TypeName.ofText typeText = .ok type) :
    type ∈ typesIn (.resource typeText name source span) := by
  rw [typesIn, h]
  exact List.mem_append_left _ (List.mem_singleton.2 rfl)

/-- The types in the bodies of the templates among some types. -/
def innerTypes (virtuals : Table TypeName VirtualType) (types : List TypeName) : List TypeName :=
  types.flatMap fun type =>
    match Table.get? virtuals type with
    | some template => typesInAll template.body
    | none => []

/-- Types that hold those in the bodies of their templates. -/
def ClosedUnder (virtuals : Table TypeName VirtualType) (types : List TypeName) : Prop :=
  innerTypes virtuals types ⊆ types

theorem mem_innerTypes :
    type ∈ innerTypes virtuals types ↔
      ∃ outer ∈ types, ∃ template, Table.get? virtuals outer = some template ∧
        type ∈ typesInAll template.body := by
  unfold innerTypes
  rw [List.mem_flatMap]
  refine exists_congr fun outer => and_congr_right fun _ => ?_
  cases Table.get? virtuals outer with
  | none => simp
  | some template => simp

theorem expandTypes_succ (depth : Nat) :
    expandTypes virtuals (depth + 1) types =
      expandTypes virtuals depth (Sorted.union types (innerTypes virtuals types)) :=
  rfl

theorem subset_expandTypes (depth : Nat) : types ⊆ expandTypes virtuals depth types := by
  induction depth generalizing types with
  | zero => exact List.Subset.refl _
  | succ depth ih =>
    intro type htype
    rw [expandTypes_succ]
    exact ih (Sorted.mem_union.2 (Or.inl htype))

/-- The names of the templates that are not among some types. -/
def unvisited (virtuals : Table TypeName VirtualType) (types : List TypeName) : List TypeName :=
  (Table.keys virtuals).filter fun name => name ∉ types

/-- Following the templates of some types visits a new one, unless the types are then closed. -/
theorem unvisited_or_closed (virtuals : Table TypeName VirtualType) (types : List TypeName) :
    (unvisited virtuals (Sorted.union types (innerTypes virtuals types))).length <
        (unvisited virtuals types).length ∨
      ClosedUnder virtuals (Sorted.union types (innerTypes virtuals types)) := by
  have hsublist : (unvisited virtuals (Sorted.union types (innerTypes virtuals types))).Sublist
      (unvisited virtuals types) := by
    refine List.monotone_filter_right _ fun name hname => ?_
    simp only [decide_eq_true_eq, Sorted.mem_union, not_or] at hname ⊢
    exact hname.1
  rcases Nat.lt_or_ge (unvisited virtuals (Sorted.union types (innerTypes virtuals types))).length
    (unvisited virtuals types).length with hless | hle
  · exact Or.inl hless
  · refine Or.inr fun type htype => ?_
    have hsame := hsublist.eq_of_length_le hle
    obtain ⟨outer, houter, template, htemplate, hinner⟩ := mem_innerTypes.1 htype
    have hkey : outer ∈ Table.keys virtuals := Table.mem_keys_iff.2 (htemplate ▸ rfl)
    have hvisited : outer ∈ types := by
      by_contra hnot
      have hmem : outer ∈ unvisited virtuals types :=
        List.mem_filter.2 ⟨hkey, decide_eq_true hnot⟩
      rw [← hsame] at hmem
      exact of_decide_eq_true (List.mem_filter.1 hmem).2 houter
    exact Sorted.mem_union.2 (Or.inr (mem_innerTypes.2 ⟨outer, hvisited, template, htemplate, hinner⟩))

theorem closed_expandTypes_of {depth : Nat}
    (h : (unvisited virtuals types).length < depth ∨ ClosedUnder virtuals types) :
    ClosedUnder virtuals (expandTypes virtuals depth types) := by
  induction depth generalizing types with
  | zero => exact h.resolve_left (Nat.not_lt_zero _)
  | succ depth ih =>
    rw [expandTypes_succ]
    apply ih
    rcases h with hless | hclosed
    · exact (unvisited_or_closed virtuals types).imp_left fun hvisit => by omega
    · refine Or.inr fun type htype => ?_
      obtain ⟨outer, houter, template, htemplate, hinner⟩ := mem_innerTypes.1 htype
      have hvisited : outer ∈ types :=
        (Sorted.mem_union.1 houter).elim id fun hnew => hclosed hnew
      exact Sorted.mem_union.2
        (Or.inr (mem_innerTypes.2 ⟨outer, hvisited, template, htemplate, hinner⟩))

/-- Following the templates as often as there are templates finds all types. -/
theorem closed_expandTypes (virtuals : Table TypeName VirtualType) (types : List TypeName) :
    ClosedUnder virtuals (expandTypes virtuals virtuals.length types) := by
  apply closed_expandTypes_of
  have hlength : (Table.keys virtuals).length = virtuals.length := List.length_map _
  by_cases hvisited : ∃ name ∈ Table.keys virtuals, name ∈ types
  · obtain ⟨name, hname, hmem⟩ := hvisited
    refine Or.inl (hlength ▸ List.length_filter_lt_length_iff_exists.2 ⟨name, hname, ?_⟩)
    simpa using hmem
  · refine Or.inr fun type htype => ?_
    obtain ⟨outer, houter, template, htemplate, -⟩ := mem_innerTypes.1 htype
    exact absurd ⟨outer, Table.mem_keys_iff.2 (htemplate ▸ rfl), houter⟩ hvisited

theorem typesIn_of_part (hclosed : ClosedUnder virtuals types) (hroot : typesIn root ⊆ types)
    (h : PartOf virtuals root node) :
    typesIn node ⊆ types := by
  induction h with
  | root => exact hroot
  | inside _ hchild ih => exact fun type htype => ih (typesIn_of_inner hchild htype)
  | @expanded typeText name source span outer template child _ htype htemplate hchild ih =>
    intro type hinner
    exact hclosed (mem_innerTypes.2 ⟨outer, ih (mem_typesIn_self htype), template, htemplate,
      mem_typesInAll.2 ⟨child, hchild, hinner⟩⟩)

/-- What a block declares that is evaluated for a statement was noted beforehand. -/
theorem mem_declaredTypes_of_part {inventory : Inventory} {typeText : String} {name : Node}
    {source : List Node} {span : Span}
    (h : PartOf inventory.virtuals root (.resource typeText name source span))
    (htype : TypeName.ofText typeText = .ok type) (hvirtual : inventory.virtual? type = none) :
    type ∈ declaredTypes inventory root := by
  have hroot : typesIn root ⊆ expandTypes inventory.virtuals inventory.virtuals.length
      (Sorted.ofList (typesIn root)) :=
    fun found hfound => subset_expandTypes _ (Sorted.mem_ofList.2 hfound)
  unfold declaredTypes
  rw [List.mem_filter, hvirtual]
  exact ⟨typesIn_of_part (closed_expandTypes _ _) hroot h (mem_typesIn_self htype), rfl⟩

end Types

/-! ## Types that are registered -/

/-- The second inventory comes from the first by inserting resources of some types. -/
inductive Inventory.GrownBy (types : TypeName → Prop) (before : Inventory) : Inventory → Prop
  | refl : GrownBy types before before
  | insert {after : Inventory} (h : GrownBy types before after) (index : Nat) (resource : Resource)
      (htype : types resource.key.type) :
      GrownBy types before (after.insertAt index resource)

namespace Inventory.GrownBy

variable {types : TypeName → Prop} {a b c : Inventory}

theorem trans (hfirst : GrownBy types a b) (hsecond : GrownBy types b c) : GrownBy types a c := by
  induction hsecond with
  | refl => exact hfirst
  | insert _ index resource htype ih => exact .insert ih index resource htype

theorem same (h : GrownBy types a b) : b.registry = a.registry ∧ b.virtuals = a.virtuals := by
  induction h with
  | refl => exact ⟨rfl, rfl⟩
  | insert _ _ _ _ ih => exact ih

/-- Resources of other types are left alone. -/
theorem resource?_eq (h : GrownBy types a b) (hdistinct : a.Distinct) {key : Key}
    (hkey : ¬ types key.type) :
    b.resource? key = a.resource? key ∧ b.Distinct := by
  induction h with
  | refl => exact ⟨rfl, hdistinct⟩
  | insert _ index resource htype ih =>
    obtain ⟨hsame, hdistinct'⟩ := ih
    have hne : resource.key ≠ key := fun heq => hkey (heq ▸ htype)
    exact ⟨(resource?_insertAt_of_ne hdistinct' index hne).trans hsame,
      distinct_insertAt hdistinct' index resource⟩

end Inventory.GrownBy

/-- However the step ends, it inserts resources of some types alone. -/
def Step.Adds {α : Type} (registry : Registry) (virtuals : Table TypeName VirtualType)
    (types : TypeName → Prop) (step : Step α) : Prop :=
  ∀ p : Progress, p.inventory.registry = registry → p.inventory.virtuals = virtuals →
    p.inventory.GrownBy types (step.run p).2.inventory

section Adding

variable {registry : Registry} {virtuals : Table TypeName VirtualType} {types : TypeName → Prop}
variable {root : Node} {e : Evaluator}

theorem Step.adds_of_same {α : Type} {step : Step α}
    (h : ∀ p, (step.run p).2.inventory = p.inventory) :
    step.Adds registry virtuals types := by
  intro p _ _
  rw [h p]
  exact .refl

theorem Step.adds_settled {α : Type} (outcome : Except EvalError α) :
    (Step.settled outcome).Adds registry virtuals types := by
  cases outcome <;> exact adds_of_same fun _ => rfl

theorem Step.Adds.bind {α β : Type} {m : Step α} {f : α → Step β}
    (hm : m.Adds registry virtuals types)
    (hf : ∀ a p q, m.run p = (.ok a, q) → (f a).Adds registry virtuals types) :
    (m >>= f).Adds registry virtuals types := by
  intro p hregistry hvirtuals
  have hfirst := hm p hregistry hvirtuals
  rw [run_bind]
  cases hrun : m.run p with
  | mk outcome q =>
    rw [hrun] at hfirst
    rcases outcome with i | a
    · exact hfirst
    · obtain ⟨hregistry', hvirtuals'⟩ := hfirst.same
      exact hfirst.trans (hf a p q hrun q (hregistry'.trans hregistry) (hvirtuals'.trans hvirtuals))

theorem Step.Adds.collecting {α : Type} {step : Step α} (h : step.Adds registry virtuals types) :
    (Step.collecting step).Adds registry virtuals types :=
  fun p => h { p with reads := [], credentials := none }

/-- What composition keeps inserts resources of some types alone. -/
theorem Step.composes_adds :
    Step.Composes (fun _ => True) fun _ _ step => step.Adds registry virtuals types where
  pure _ _ := adds_of_same fun _ => rfl
  fail _ _ _ _ := adds_of_same fun _ => rfl
  waits _ _ _ := adds_of_same fun _ => rfl
  bind := Step.Adds.bind
  mono _ h := h
  evaluating _ _ _ _ _ _ := adds_of_same fun _ => rfl
  naming _ _ _ _ _ _ := adds_of_same fun _ => rfl
  extending d value _ := by
    refine adds_of_same fun p => ?_
    rw [run_bind_ok (run_get p)]
    cases extension p.inventory d value <;> rfl
  bindings _ _ _ := adds_of_same fun _ => rfl
  credentials _ _ := adds_of_same fun _ => rfl
  tried {_ step} h := by
    intro p hregistry hvirtuals
    rw [tried_state]
    exact h p hregistry hvirtuals
  inScope enter _ h := fun p => h { p with scope := enter p.scope }

theorem register_adds (frame : Frame) {resource : Resource} (htype : types resource.key.type) :
    (register frame resource).Adds registry virtuals types := by
  intro p _ _
  unfold register
  rw [run_bind_ok (run_get p)]
  dsimp only
  split
  · exact .refl
  · exact .insert .refl frame.file resource htype

theorem declareResource_adds (frame : Frame) {type : ResourceType} (htype : types type.name)
    (name : String) (source : List Node) (span : Span) {steps : List (Bool × Step Unit)}
    (hsteps : ∀ step ∈ steps, step.2.Adds registry virtuals types) :
    (declareResource e frame type name source span steps).Adds registry virtuals types := by
  unfold declareResource
  refine (Step.adds_settled _).bind fun key _ _ hkey => ?_
  refine (Step.composes_adds.assembles.resourceBody frame Step.Adds.collecting hsteps).bind
    fun body _ _ _ => ?_
  refine (Step.adds_settled _).bind fun resource _ _ hmade => ?_
  have hresource : types resource.key.type := by
    rw [(identity_of_finishResource (Step.settled_run_eq_ok.1 hmade).1).1,
      key_of_keyAt (Step.settled_run_eq_ok.1 hkey).1]
    exact htype
  intro p hregistry hvirtuals
  rw [run_bind_ok (run_get p)]
  refine register_adds frame ?_ p hregistry hvirtuals
  exact hresource

/-- A statement registers resources of those types alone that its blocks name. -/
theorem runStatement_adds_of (hnamed : registry.Named)
    (htypes : ∀ typeText name source span type,
      PartOf virtuals root (.resource typeText name source span) →
        TypeName.ofText typeText = .ok type → Table.get? virtuals type = none → types type)
    (hexpand : ∀ template : VirtualType, (∀ child ∈ template.body, PartOf virtuals root child) →
      ∀ frame span, (e.expand template frame span).Adds registry virtuals types)
    {node : Node} (hpart : PartOf virtuals root node) (frame : Frame) :
    (runStatement e node frame).Adds registry virtuals types := by
  refine Step.composes_adds.assembles.statement e (PartOf virtuals root) (fun _ _ _ _ => trivial)
    (fun _ h _ => h.inside) ?_ hpart frame
  intro typeText name source span hpart hsource frame
  have hsteps : ∀ inner, ∀ step ∈ runStatements e source inner,
      step.Adds registry virtuals types := by
    intro inner step hstep
    rw [runStatements_eq_map] at hstep
    obtain ⟨child, hchild, rfl⟩ := List.mem_map.1 hstep
    exact hsource child hchild inner
  have hmarked : ∀ inner, ∀ step ∈ runMarked e source inner,
      step.2.Adds registry virtuals types := by
    intro inner step hstep
    rw [runMarked_eq_map] at hstep
    obtain ⟨child, hchild, rfl⟩ := List.mem_map.1 hstep
    exact hsource child hchild inner
  unfold runStatement
  refine (Step.adds_settled _).bind fun type _ _ htype => ?_
  have htype := typeAt_eq_ok.1 (Step.settled_run_eq_ok.1 htype).1
  refine (Step.composes_adds.naming [] e frame span trivial).bind fun text _ _ _ => ?_
  intro p hregistry hvirtuals
  rw [run_bind_ok (run_get p)]
  split
  · next template htemplate =>
    have htemplate : Table.get? virtuals type = some template := hvirtuals ▸ htemplate
    exact Step.composes_adds.assembles.instantiate e frame Step.Adds.collecting template
      (hexpand template fun _ => hpart.expanded htype htemplate) _ _ (hsteps _) p hregistry hvirtuals
  · next hvirtual =>
    split
    · exact .refl
    · next found hfound =>
      have hname : found.name = type := hnamed type found (hregistry ▸ hfound)
      have hdeclared : types found.name :=
        hname ▸ htypes typeText name source span type hpart htype (hvirtuals ▸ hvirtual)
      exact declareResource_adds frame hdeclared _ _ _ (hmarked _) p hregistry hvirtuals

/-- However deep instances may nest, a statement registers resources of those types alone that its
blocks name and those of the templates that it has instances of. -/
theorem runStatement_adds (hnamed : registry.Named)
    (htypes : ∀ typeText name source span type,
      PartOf virtuals root (.resource typeText name source span) →
        TypeName.ofText typeText = .ok type → Table.get? virtuals type = none → types type)
    (setting : Setting) (depth : Nat) {node : Node} (hpart : PartOf virtuals root node)
    (frame : Frame) :
    (runStatement (Evaluator.atDepth setting depth) node frame).Adds registry virtuals types := by
  induction depth generalizing node frame with
  | zero =>
    refine runStatement_adds_of hnamed htypes (fun template _ inner span => ?_) hpart frame
    exact Step.adds_of_same fun _ => rfl
  | succ depth ih =>
    refine runStatement_adds_of hnamed htypes (fun template hbody inner span => ?_) hpart frame
    refine Step.composes_adds.assembles.body fun step hstep => ?_
    rw [runStatements_eq_map] at hstep
    obtain ⟨child, hchild, rfl⟩ := List.mem_map.1 hstep
    exact ih (hbody child hchild) inner

end Adding

/-- An attempt at a statement registers resources of those types alone that it may declare. -/
theorem Round.attempt_adds {setup : EvaluationSetup} {round after : Round} {task : Task}
    {deferred : Option Deferred} (hnamed : round.inventory.registry.Named)
    (h : round.attempt setup task = .ok (after, deferred)) :
    round.inventory.GrownBy (· ∈ declaredTypes round.inventory task.node) after.inventory := by
  have hadds := runStatement_adds hnamed
    (fun _ _ _ _ _ hpart htype hvirtual => mem_declaredTypes_of_part hpart htype hvirtual)
    ⟨setup.mode, setup.current, round.undeclared task⟩ setup.depth
    (.root : PartOf round.inventory.virtuals task.node task.node) { file := task.file }
    (round.progress task) rfl rfl
  rw [attempt_eq] at h
  generalize hrun : (runStatement (setup.evaluator (round.undeclared task)) task.node
    { file := task.file }).run (round.progress task) = result at h
  have hadds : round.inventory.GrownBy (· ∈ declaredTypes round.inventory task.node)
      result.2.inventory := hrun ▸ hadds
  obtain ⟨(reasons | e) | ⟨⟩, p⟩ := result
  · cases h
    exact hadds
  · cases h
  · cases h
    exact hadds

end Provision

import Provision.Proofs.Evaluation.Bodies
import Provision.Proofs.Evaluation.Causes
import Provision.Proofs.Evaluation.Expression
import Provision.Proofs.Evaluation.Growing
import Provision.Proofs.Evaluation.Held

/-!
# Properties that composition keeps

Statements are put together from a few simple parts.  A property that the parts
have and that putting together keeps is therefore one of all statements, as far as
their resource blocks have it, too.  The first such property is that nothing inside
an evaluation fails with an account of stuck statements: only the passes over all
files give one.
-/

namespace Provision

open Provision.Language (Node Branch Directive)

theorem runStatements_eq_map (e : Evaluator) (frame : Frame) (source : List Node) :
    runStatements e source frame = source.map fun node => runStatement e node frame := by
  induction source with
  | nil => rfl
  | cons node rest ih => rw [runStatements, ih, List.map_cons]

theorem runMarked_eq_map (e : Evaluator) (frame : Frame) (source : List Node) :
    runMarked e source frame =
      source.map fun node => (isDirective node, runStatement e node frame) := by
  induction source with
  | nil => rfl
  | cons node rest ih => rw [runMarked, ih, List.map_cons]

/-- The statements in the bodies of a statement. -/
def Language.Node.inner : Node → List Node
  | .resource _ _ body _ => body
  | .block _ body _ => body
  | .directive d => d.body ++ d.branches.flatMap Branch.body
  | _ => []

theorem Language.Node.mem_children_of_inner {node child : Node} (h : child ∈ node.inner) :
    child ∈ node.children := by
  cases node with
  | resource type name body span => exact List.mem_cons_of_mem _ h
  | block key body span => exact h
  | directive d =>
    rw [Node.children, Directive.children, List.mem_append, List.mem_append]
    rcases List.mem_append.1 h with h | h
    · exact Or.inl (Or.inr h)
    · obtain ⟨branch, hbranch, h⟩ := List.mem_flatMap.1 h
      exact Or.inr (List.mem_flatMap.2 ⟨branch, hbranch, List.mem_append_right _ h⟩)
  | _ => cases h

theorem Language.Node.mem_children_of_argument {d : Directive} {node : Node}
    (h : node ∈ d.arguments) :
    node ∈ (Node.directive d).children :=
  List.mem_append_left _ (List.mem_append_left _ (List.mem_append_left _ h))

theorem Language.Node.mem_children_of_clause {d : Directive} {name : String}
    {clause : Language.Clause} {node : Node} (hclause : d.clause? name = some clause)
    (h : node ∈ clause.arguments) :
    node ∈ (Node.directive d).children :=
  List.mem_append_left _ (List.mem_append_left _ (List.mem_append_right _
    (List.mem_flatMap.2 ⟨clause, List.mem_of_find?_eq_some hclause, h⟩)))

theorem Language.Node.mem_children_of_guard {d : Directive} {branch : Branch} {node : Node}
    (hbranch : branch ∈ d.branches) (h : node ∈ branch.arguments) :
    node ∈ (Node.directive d).children :=
  List.mem_append_right _ (List.mem_flatMap.2 ⟨branch, hbranch, List.mem_append_left _ h⟩)

namespace Step

/-- The steps that a resource body tries are those that it has. -/
theorem mem_marked {steps : List (Bool × Step Unit)} {step : Step Unit}
    (h : step ∈ (steps.filter fun step => !step.1).map Prod.snd ++
      (steps.filter fun step => step.1).map Prod.snd) :
    ∃ marked ∈ steps, marked.2 = step := by
  simp only [List.mem_append, List.mem_map, List.mem_filter] at h
  obtain ⟨marked, hmarked, rfl⟩ | ⟨marked, hmarked, rfl⟩ := h
  · exact ⟨marked, hmarked.1, rfl⟩
  · exact ⟨marked, hmarked.1, rfl⟩

/-- A property that the simple steps have and that running one step after another or in another
scope keeps.  It may speak of the resources that a step is given in values and of those that its
outcome holds; `Reads` tells the expressions that may be read. -/
structure Basics (Reads : Node → Prop)
    (P : ∀ {α : Type}, (given : List Key) → (held : α → List Key) → Step α → Prop) : Prop where
  pure : ∀ {α : Type} {given : List Key} {held : α → List Key} (a : α), held a ⊆ given →
    P given held (pure a : Step α)
  fail : ∀ {α : Type} (given : List Key) (held : α → List Key) (error : EvalError),
    error.IsLocal → P given held (Step.fail error : Step α)
  bind : ∀ {α β : Type} {given : List Key} {held : α → List Key} {held' : β → List Key}
    {m : Step α} {f : α → Step β}, P given held m →
      (∀ a p q, m.run p = (.ok a, q) → P (held a ++ given) held' (f a)) → P given held' (m >>= f)
  mono : ∀ {α : Type} {given more : List Key} {held : α → List Key} {step : Step α},
    given ⊆ more → P given held step → P more held step
  evaluating : ∀ (given : List Key) (e : Evaluator) (frame : Frame) (span : Span) {node : Node},
    Reads node → P given Value.handles (e.reading frame span fun view => evaluate view node)
  naming : ∀ (given : List Key) (e : Evaluator) (frame : Frame) (span : Span) {node : Node},
    Reads node → P given (fun _ => []) (e.reading frame span fun view => do
      let value ← evaluate view node
      nameOf view value)
  extending : ∀ {given : List Key} (d : Directive) {value : Value}, value.handles ⊆ given →
    P given Value.handlesOfEntries
      (get >>= fun progress : Progress => Step.settled (extension progress.inventory d value))
  bindings : ∀ {given : List Key} (change : Scope → Scope),
    (∀ scope, (change scope).handles ⊆ given ++ scope.handles) →
      (∀ scope, scope.Neat → (change scope).Neat) →
        P given (fun _ => [])
          (modify fun progress => { progress with scope := change progress.scope } : Step Unit)
  credentials : ∀ (given : List Key) (name : Option String),
    P given (fun _ => [])
      (modify fun progress => { progress with credentials := name } : Step Unit)
  inScope : ∀ {given : List Key} {step : Step Unit} (enter : Scope → Scope),
    (∀ scope, (enter scope).handles ⊆ given ++ scope.handles) → P given (fun _ => []) step →
      P given Scope.handles (Step.inScope enter step)

/-- Trying the steps of a body again and again keeps the property, whatever it says about a step
that is deferred. -/
structure Assembles (Reads : Node → Prop)
    (P : ∀ {α : Type}, (given : List Key) → (held : α → List Key) → Step α → Prop) : Prop
    extends Basics Reads P where
  body : ∀ {steps : List (Step Unit)}, (∀ step ∈ steps, P [] (fun _ => []) step) →
    P [] (fun _ => []) (Step.body steps)

/-- Steps that are deferred have the property, and trying a step keeps it. -/
structure Composes (Reads : Node → Prop)
    (P : ∀ {α : Type}, (given : List Key) → (held : α → List Key) → Step α → Prop) : Prop
    extends Basics Reads P where
  waits : ∀ {α : Type} (given : List Key) (held : α → List Key) (reasons : List Deferral),
    P given held (throw (.deferred reasons) : Step α)
  tried : ∀ {given : List Key} {step : Step Unit}, P given (fun _ => []) step →
    P given (fun _ => []) step.tried

variable {Reads : Node → Prop}
variable {P : ∀ {α : Type}, (given : List Key) → (held : α → List Key) → Step α → Prop}

namespace Basics

variable (h : Basics Reads P)

include h

theorem settled {α : Type} {given : List Key} {held : α → List Key}
    {outcome : Except EvalError α} (houtcome : FailsAs EvalError.IsLocal outcome)
    (hheld : ∀ a, outcome = .ok a → held a ⊆ given) :
    P given held (Step.settled outcome) := by
  cases outcome with
  | ok a => exact h.pure a (hheld a rfl)
  | error e => exact h.fail given held e (houtcome e rfl)

/-- An outcome that holds no values. -/
theorem settled_plain {α : Type} {given : List Key} {outcome : Except EvalError α}
    (houtcome : FailsAs EvalError.IsLocal outcome) :
    P given (fun _ => []) (Step.settled outcome) :=
  h.settled houtcome fun _ _ => List.nil_subset _

theorem sequence {steps : List (Step Unit)} (hsteps : ∀ step ∈ steps, P [] (fun _ => []) step) :
    P [] (fun _ => []) (Step.sequence steps) := by
  induction steps with
  | nil => exact h.pure () (List.nil_subset _)
  | cons step rest ih =>
    have hrest := ih fun other hother => hsteps other (List.mem_cons_of_mem _ hother)
    exact h.bind (hsteps step List.mem_cons_self) fun _ _ _ _ => hrest

/-! ### Directives -/

variable (e : Evaluator) (frame : Frame) (d : Directive)

theorem exclude {given : List Key} {arguments : List Node} (hreads : ∀ node ∈ arguments, Reads node)
    {entries : Bindings} (hentries : Value.handlesOfEntries entries ⊆ given) :
    P given Value.handlesOfEntries (exclude e frame d arguments entries) := by
  induction arguments generalizing given entries with
  | nil => exact h.pure _ hentries
  | cons argument rest ih =>
    unfold Provision.exclude
    refine h.bind (h.evaluating _ e frame d.span (hreads _ List.mem_cons_self)) fun value _ _ _ => ?_
    refine h.bind (h.settled_plain (failsAs_excludedNames d value)) fun _ _ _ _ => ?_
    refine ih (fun node hnode => hreads node (List.mem_cons_of_mem _ hnode)) ?_
    exact List.Subset.trans (Value.handles_eraseAll _ _)
      (List.Subset.trans hentries (List.subset_append_right _ _))

theorem runExtends (hreads : ∀ node ∈ (Node.directive d).children, Reads node) :
    P [] (fun _ => []) (runExtends e frame d) := by
  unfold Provision.runExtends
  split
  · exact h.fail _ _ _ trivial
  · next source hsource =>
    have hsource := hreads source (Node.mem_children_of_argument (List.mem_of_mem_head? hsource))
    have hexcluded : ∀ node ∈ ((d.clause? "exclude").map fun clause => clause.arguments).getD [],
        Reads node := by
      intro node hnode
      cases hclause : d.clause? "exclude" with
      | none =>
        rw [hclause] at hnode
        cases hnode
      | some clause =>
        rw [hclause] at hnode
        exact hreads node (Node.mem_children_of_clause hclause hnode)
    refine h.bind (h.evaluating _ e frame d.span hsource) fun value _ _ _ => ?_
    rw [← bind_assoc]
    refine h.bind (h.extending d (List.subset_append_left _ _)) fun entries _ _ _ => ?_
    refine h.bind (h.exclude e frame d hexcluded (List.subset_append_left _ _)) fun left _ _ _ => ?_
    refine h.mono (List.subset_append_left _ _)
      (h.bindings (fun scope => extendScope scope left) ?_ fun _ hneat => hneat.extendScope left)
    exact fun scope => Scope.handles_extendScope scope left

theorem runCredentials (hreads : ∀ node ∈ (Node.directive d).children, Reads node) :
    P [] (fun _ => []) (runCredentials e frame d) := by
  unfold Provision.runCredentials
  split
  · exact h.fail _ _ _ trivial
  · split
    · exact h.fail _ _ _ trivial
    · next argument hargument =>
      have hargument := hreads argument (Node.mem_children_of_argument (List.mem_of_mem_head? hargument))
      refine h.bind (h.evaluating _ e frame d.span hargument) fun value _ _ _ => ?_
      split
      · exact h.credentials _ _
      · exact h.fail _ _ _ trivial

theorem runIterations {run : Frame → Step Unit}
    (hrun : ∀ site, P [] (fun _ => []) (run { frame with site := site }))
    (span : Span) (names : List String) {given : List Key} (index : Nat)
    {rounds : List (List Value)} (hrounds : ∀ values ∈ rounds, Value.handlesOfItems values ⊆ given) :
    P given Blocks.handles (runIterations frame span names run index rounds) := by
  induction rounds generalizing index given with
  | nil => exact h.pure _ (List.nil_subset _)
  | cons values rest ih =>
    unfold Provision.runIterations
    have henter : ∀ scope : Scope,
        ((names.zip values).foldl (fun s entry => s.put entry.1 entry.2) scope.child).handles ⊆
          given ++ scope.handles := fun scope key hkey => by
      rw [List.mem_append]
      rcases List.mem_append.1 (handles_iteration names values scope hkey) with hkey | hkey
      · exact Or.inl (hrounds values List.mem_cons_self hkey)
      · exact Or.inr hkey
    refine h.bind (h.inScope _ henter (h.mono (List.nil_subset _) (hrun _))) fun scope _ _ _ => ?_
    have hrest : ∀ values ∈ rest, Value.handlesOfItems values ⊆ scope.handles ++ given :=
      fun values hvalues => List.Subset.trans (hrounds values (List.mem_cons_of_mem _ hvalues))
        (List.subset_append_right _ _)
    refine h.bind (ih (index + 1) hrest) fun later _ _ _ => h.pure _ fun key hkey => ?_
    rw [List.mem_append, List.mem_append]
    rcases List.mem_append.1 (Blocks.handles_appendAll _ _ hkey) with hkey | hkey
    · exact Or.inl hkey
    · exact Or.inr (Or.inl (Scope.mem_handles.2 (Or.inr (Or.inl hkey))))

theorem runLoop {run : Frame → Step Unit}
    (hrun : ∀ site, P [] (fun _ => []) (run { frame with site := site }))
    (hreads : ∀ node ∈ (Node.directive d).children, Reads node) :
    P [] (fun _ => []) (runLoop e frame d run) := by
  unfold Provision.runLoop
  refine h.bind (h.settled_plain (failsAs_loopNames d _)) fun names _ _ _ => ?_
  split
  · exact h.fail _ _ _ trivial
  · split
    · exact h.fail _ _ _ trivial
    · next source hsource =>
      obtain ⟨clause, hclause, hsource⟩ := Option.bind_eq_some_iff.1 hsource
      have hsource := hreads source (Node.mem_children_of_clause hclause (List.mem_of_mem_head? hsource))
      refine h.bind (h.evaluating _ e frame d.span hsource) fun value _ _ _ => ?_
      have hrounds : P (value.handles ++ []) (fun rounds => rounds.flatMap Value.handlesOfItems)
          (Step.settled (iterations d names.length value)) := by
        refine h.settled (failsAs_iterations d _ _) fun rounds hrounds key hkey => ?_
        obtain ⟨values, hvalues, hkey⟩ := List.mem_flatMap.1 hkey
        exact List.mem_append_left _ (handles_of_iterations hrounds hvalues hkey)
      refine h.bind hrounds fun rounds _ _ _ => ?_
      refine h.bind (h.runIterations frame hrun _ _ _ fun values hvalues key hkey => ?_)
        fun blocks _ _ _ => ?_
      · exact List.mem_append_left _ (List.mem_flatMap.2 ⟨values, hvalues, hkey⟩)
      · refine h.mono (List.subset_append_left _ _)
          (h.bindings (fun scope => scope.extendBlocks blocks) ?_ fun _ hneat => hneat)
        exact fun scope => Scope.handles_extendBlocks scope blocks

end Basics

namespace Composes

variable (h : Composes Reads P)

include h

theorem pass {steps : List (Step Unit)} (hsteps : ∀ step ∈ steps, P [] (fun _ => []) step) :
    P [] (fun _ => []) (Step.pass steps) := by
  induction steps with
  | nil => exact h.pure _ (List.nil_subset _)
  | cons step rest ih =>
    have hrest := ih fun other hother => hsteps other (List.mem_cons_of_mem _ hother)
    rw [pass_cons]
    refine h.bind (h.tried (hsteps step List.mem_cons_self)) fun waiting _ _ _ => ?_
    refine h.bind hrest fun passed _ _ _ => ?_
    cases waiting with
    | none => exact h.pure _ (List.nil_subset _)
    | some reasons => exact h.pure _ (List.nil_subset _)

theorem settle (bound : Nat) {steps : List (Step Unit)}
    (hsteps : ∀ step ∈ steps, P [] (fun _ => []) step) :
    P [] (fun _ => []) (Step.settle bound steps) := by
  induction bound generalizing steps with
  | zero => exact h.pure () (List.nil_subset _)
  | succ bound ih =>
    unfold Step.settle
    refine h.bind (h.pass hsteps) ?_
    rintro ⟨left, reasons⟩ p q hpass
    dsimp only
    split
    · exact h.pure () (List.nil_subset _)
    · split
      · exact h.waits _ _ reasons
      · exact ih fun step hstep => hsteps step (pass_subset steps p q left reasons hpass step hstep)

/-- A property that trying keeps is one of bodies, too. -/
theorem assembles : Assembles Reads P where
  toBasics := h.toBasics
  body hsteps := h.settle _ hsteps

end Composes

namespace Assembles

variable (h : Assembles Reads P)

include h

theorem inChild {steps : List (Step Unit)} (hsteps : ∀ step ∈ steps, P [] (fun _ => []) step) :
    P [] Scope.handles (Step.inScope Scope.child (Step.body steps)) :=
  h.inScope _ Scope.handles_child (h.body hsteps)

variable (e : Evaluator) (frame : Frame)

theorem runBranches (span : Span) {branches : List Branch}
    (hreads : ∀ branch ∈ branches, ∀ node ∈ branch.arguments, Reads node)
    (hbodies : ∀ branch ∈ branches, ∀ node ∈ branch.body,
      P [] (fun _ => []) (runStatement e node frame)) :
    P [] (fun _ => []) (runBranches e span branches frame) := by
  induction branches with
  | nil => exact h.pure () (List.nil_subset _)
  | cons branch rest ih =>
    obtain ⟨name, arguments, body, place⟩ := branch
    have hrest := ih (fun other hother => hreads other (List.mem_cons_of_mem _ hother))
      fun other hother => hbodies other (List.mem_cons_of_mem _ hother)
    have hbody : P [] (fun _ => []) (Step.body (runStatements e body frame)) := by
      rw [runStatements_eq_map]
      refine h.body fun step hstep => ?_
      obtain ⟨node, hnode, rfl⟩ := List.mem_map.1 hstep
      exact hbodies _ List.mem_cons_self node hnode
    unfold Provision.runBranches
    split
    · exact hbody
    · next condition hcondition =>
      have hcondition := hreads _ List.mem_cons_self condition (List.mem_of_mem_head? hcondition)
      refine h.bind (h.evaluating _ e frame span hcondition) fun value _ _ _ => ?_
      refine h.mono (List.nil_subset _) ?_
      split
      · exact hbody
      · exact hrest

theorem runDirective (d : Directive) (hreads : ∀ node ∈ (Node.directive d).children, Reads node)
    (hbodies : ∀ node ∈ (Node.directive d).inner, ∀ site,
      P [] (fun _ => []) (runStatement e node { frame with site := site })) :
    P [] (fun _ => []) (runDirective e d frame) := by
  obtain ⟨name, arguments, clauses, bodyless, body, branches, span⟩ := d
  have hbody : ∀ site, ∀ step ∈ runStatements e body { frame with site := site },
      P [] (fun _ => []) step := by
    intro site step hstep
    rw [runStatements_eq_map] at hstep
    obtain ⟨node, hnode, rfl⟩ := List.mem_map.1 hstep
    exact hbodies node (List.mem_append_left _ hnode) site
  have hbranches : ∀ branch ∈ branches, ∀ node ∈ branch.body,
      P [] (fun _ => []) (runStatement e node frame) := by
    intro branch hbranch node hnode
    have hmem := List.mem_flatMap.2 ⟨branch, hbranch, hnode⟩
    exact hbodies node (List.mem_append_right _ hmem) frame.site
  have hguards : ∀ branch ∈ branches, ∀ node ∈ branch.arguments, Reads node :=
    fun branch hbranch node hnode => hreads node (Node.mem_children_of_guard hbranch hnode)
  unfold Provision.runDirective
  split
  · split
    · exact h.fail _ _ _ trivial
    · next condition hcondition =>
      have hcondition := hreads _ (Node.mem_children_of_argument (List.mem_of_mem_head? hcondition))
      refine h.bind (h.evaluating _ e frame span hcondition) fun value _ _ _ => ?_
      refine h.mono (List.nil_subset _) ?_
      split
      · exact h.body (hbody frame.site)
      · exact h.runBranches e frame span hguards hbranches
  · split
    · exact h.runLoop e frame _ (fun site => h.sequence (hbody site)) hreads
    · split
      · exact h.runExtends e frame _ hreads
      · split
        · exact h.runCredentials e frame _ hreads
        · -- the remaining directives are all errors here
          repeat' split
          all_goals exact h.fail _ _ _ trivial

/-- What composition keeps holds of every statement in a frame whose resource blocks have it there.
Which frames are meant may depend on anything but their sites: loops change these. -/
theorem statementWithin (Allowed : Node → Prop) (Within : Frame → Prop)
    (hreads : ∀ node, Allowed node → ∀ child ∈ node.children, Reads child)
    (hinner : ∀ node, Allowed node → ∀ child ∈ node.inner, Allowed child)
    (hsite : ∀ frame site, Within frame → Within { frame with site := site })
    (hblock : ∀ type name source span, Allowed (.resource type name source span) →
      (∀ node ∈ source, ∀ frame, Within frame → P [] (fun _ => []) (runStatement e node frame)) →
      ∀ frame, Within frame →
        P [] (fun _ => []) (runStatement e (.resource type name source span) frame))
    {node : Node} (hallowed : Allowed node) {frame : Frame} (hframe : Within frame) :
    P [] (fun _ => []) (runStatement e node frame) := by
  induction node using Node.induction generalizing frame with
  | step node ih =>
    have hbodies : ∀ child ∈ node.inner, ∀ frame, Within frame →
        P [] (fun _ => []) (runStatement e child frame) :=
      fun child hchild frame => ih child (Node.mem_children_of_inner hchild)
        (hinner node hallowed child hchild)
    have hreads := hreads node hallowed
    cases node with
    | pair entry =>
      obtain ⟨key, value, span⟩ := entry
      unfold runStatement
      refine h.bind (h.evaluating _ e frame span (hreads value List.mem_cons_self))
        fun found _ _ _ => ?_
      refine h.bindings (fun scope => scope.put key found) (fun scope => ?_)
        fun _ hneat => hneat.put key found
      rw [List.append_nil]
      exact Scope.handles_put scope key found
    | resource type name source span => exact hblock type name source span hallowed hbodies frame hframe
    | block key source span =>
      unfold runStatement
      split
      · exact h.fail _ _ _ trivial
      · have hbody : ∀ step ∈ runStatements e source frame, P [] (fun _ => []) step := by
          intro step hstep
          rw [runStatements_eq_map] at hstep
          obtain ⟨child, hchild, rfl⟩ := List.mem_map.1 hstep
          exact hbodies child hchild frame hframe
        refine h.bind (h.inChild hbody) fun scope _ _ _ => ?_
        refine h.bindings (fun outer => outer.addBlock key (.map scope.fields)) (fun outer => ?_)
          fun _ hneat => hneat
        rw [List.append_nil]
        intro key' hkey
        rw [List.mem_append]
        rcases List.mem_append.1 (Scope.handles_addBlock _ _ _ hkey) with hkey | hkey
        · exact Or.inl (Scope.handles_fields scope hkey)
        · exact Or.inr hkey
    | directive d =>
      unfold runStatement
      exact h.runDirective e frame d hreads fun child hchild site =>
        hbodies child hchild _ (hsite frame site hframe)
    | _ => exact h.fail _ _ _ trivial

/-- What composition keeps holds of every statement whose resource blocks have it. -/
theorem statement (Allowed : Node → Prop)
    (hreads : ∀ node, Allowed node → ∀ child ∈ node.children, Reads child)
    (hinner : ∀ node, Allowed node → ∀ child ∈ node.inner, Allowed child)
    (hblock : ∀ type name source span, Allowed (.resource type name source span) →
      (∀ node ∈ source, ∀ frame, P [] (fun _ => []) (runStatement e node frame)) →
      ∀ frame, P [] (fun _ => []) (runStatement e (.resource type name source span) frame))
    {node : Node} (hallowed : Allowed node) (frame : Frame) :
    P [] (fun _ => []) (runStatement e node frame) :=
  h.statementWithin e Allowed (fun _ => True) hreads hinner (fun _ _ _ => trivial)
    (fun type name source span hallowed hsource frame _ =>
      hblock type name source span hallowed (fun node hnode frame => hsource node hnode frame trivial)
        frame) hallowed trivial

/-! ### Bodies that collect -/

variable (hcollecting : ∀ {step : Step Scope}, P [] Scope.handles step →
  P [] (fun found => found.1.handles) (Step.collecting step))

include hcollecting

theorem resourceBody {steps : List (Bool × Step Unit)}
    (hsteps : ∀ step ∈ steps, P [] (fun _ => []) step.2) :
    P [] (fun body => Value.handlesOfEntries body.fields) (resourceBody frame steps) := by
  unfold Provision.resourceBody
  have htried : ∀ step ∈ (steps.filter fun step => !step.1).map Prod.snd ++
      (steps.filter fun step => step.1).map Prod.snd, P [] (fun _ => []) step := by
    intro step hstep
    obtain ⟨marked, hmarked, rfl⟩ := mem_marked hstep
    exact hsteps marked hmarked
  refine h.bind (hcollecting (h.inChild htried)) ?_
  rintro ⟨scope, reads, credentials⟩ _ _ _
  refine h.pure _ ?_
  rw [List.append_nil]
  exact Scope.handles_fields scope

theorem instantiate (template : VirtualType)
    (hexpand : ∀ inner span, P [] (fun _ => []) (e.expand template inner span))
    (name : String) (span : Span) {steps : List (Step Unit)}
    (hsteps : ∀ step ∈ steps, P [] (fun _ => []) step) :
    P [] (fun _ => []) (instantiate e frame template name span steps) := by
  unfold Provision.instantiate
  refine h.bind (hcollecting (h.inChild hsteps)) ?_
  rintro ⟨given, reads, credentials⟩ _ _ _
  dsimp only
  split
  · exact h.fail _ _ _ trivial
  · split
    · exact h.fail _ _ _ trivial
    · have henter : ∀ scope : Scope, (Scope.withValues given.values).handles ⊆
          given.handles ++ [] ++ scope.handles := by
        intro scope key hkey
        rw [Scope.handles_withValues] at hkey
        exact List.mem_append_left _ (List.mem_append_left _ (Scope.mem_handles.2 (Or.inl hkey)))
      refine h.bind (h.inScope (fun _ => Scope.withValues given.values) henter
        (h.mono (List.nil_subset _) (hexpand _ _))) fun _ _ _ _ => ?_
      exact h.pure () (List.nil_subset _)

end Assembles

/-! ### Failures -/

/-- A failure of the step tells of something wrong. -/
def Caused {α : Type} (step : Step α) : Prop :=
  ∀ p e q, step.run p = (.error (.failed e), q) → e.IsCause

theorem reading_run {α : Type} (e : Evaluator) (frame : Frame) (span : Span)
    (run : View → Recording α) (p : Progress) :
    (e.reading frame span run).run p =
      (((run (p.view e.setting frame span)).run p.reads).1,
        { p with reads := ((run (p.view e.setting frame span)).run p.reads).2 }) :=
  rfl

theorem settled_run_eq_ok {α : Type} {outcome : Except EvalError α} {p q : Progress} {a : α} :
    (Step.settled outcome).run p = (.ok a, q) ↔ outcome = .ok a ∧ q = p := by
  cases outcome with
  | ok b =>
    constructor
    · intro h
      cases h
      exact ⟨rfl, rfl⟩
    · rintro ⟨h, rfl⟩
      cases h
      rfl
  | error e =>
    constructor
    · intro h
      cases h
    · rintro ⟨h, -⟩
      cases h

theorem inScope_run (enter : Scope → Scope) (step : Step Unit) (p : Progress) :
    (Step.inScope enter step).run p =
      ((step.run { p with scope := enter p.scope }).1.map
          fun _ => (step.run { p with scope := enter p.scope }).2.scope,
        { (step.run { p with scope := enter p.scope }).2 with scope := p.scope }) :=
  rfl

theorem collecting_run {α : Type} (step : Step α) (p : Progress) :
    (Step.collecting step).run p =
      ((step.run { p with reads := [], credentials := none }).1.map
          fun a => (a, (step.run { p with reads := [], credentials := none }).2.reads,
            (step.run { p with reads := [], credentials := none }).2.credentials),
        { (step.run { p with reads := [], credentials := none }).2 with
          reads := p.reads, credentials := p.credentials }) :=
  rfl

theorem tried_run_eq (step : Step Unit) (p : Progress) :
    step.tried.run p =
      match step.run p with
      | (.ok (), after) => (.ok none, after)
      | (.error (.deferred reasons), after) => (.ok (some reasons), after)
      | (.error (.failed e), after) => (.error (.failed e), after) :=
  rfl

theorem Caused.bind {α β : Type} {m : Step α} {f : α → Step β} (hm : m.Caused)
    (hf : ∀ a, (f a).Caused) :
    (m >>= f).Caused := by
  intro p e q hrun
  rw [run_bind] at hrun
  split at hrun
  · exact hf _ _ _ _ hrun
  · next interrupt between hfirst =>
    cases hrun
    exact hm _ _ _ hfirst

theorem caused_reading {α : Type} (e : Evaluator) (frame : Frame) (span : Span)
    {run : View → Recording α} (h : ∀ view, (run view).Caused) :
    (e.reading frame span run).Caused := by
  intro p error q hrun
  rw [reading_run, Prod.mk.injEq] at hrun
  exact h _ _ _ _ (Prod.ext hrun.1 rfl)

theorem Caused.collecting {α : Type} {step : Step α} (h : step.Caused) :
    (Step.collecting step).Caused := by
  intro p e q hrun
  rw [collecting_run, Prod.mk.injEq] at hrun
  cases hstep : step.run { p with reads := [], credentials := none } with
  | mk outcome after =>
    rw [hstep] at hrun
    rcases outcome with i | a
    · cases hrun.1
      exact h _ _ _ hstep
    · cases hrun.1

theorem Caused.inScope {step : Step Unit} (h : step.Caused) (enter : Scope → Scope) :
    (Step.inScope enter step).Caused := by
  intro p e q hrun
  rw [inScope_run, Prod.mk.injEq] at hrun
  cases hstep : step.run { p with scope := enter p.scope } with
  | mk outcome after =>
    rw [hstep] at hrun
    rcases outcome with i | ⟨⟩
    · cases hrun.1
      exact h _ _ _ hstep
    · cases hrun.1

theorem composes_caused : Composes (fun _ => True) fun _ _ step => step.Caused where
  pure _ _ := by
    intro _ _ _ h
    cases h
  fail _ _ error hlocal := by
    intro _ _ _ h
    cases h
    exact hlocal.isCause
  waits _ _ _ := by
    intro _ _ _ h
    cases h
  bind hm hf := by
    intro p e q hrun
    rw [run_bind] at hrun
    split at hrun
    · next hfirst => exact hf _ _ _ hfirst _ _ _ hrun
    · next interrupt between hfirst =>
      cases hrun
      exact hm _ _ _ hfirst
  mono _ h := h
  evaluating _ e frame span node _ :=
    caused_reading e frame span fun view => (Recording.composes_caused view).evaluate node
  naming _ e frame span node _ :=
    caused_reading e frame span fun view =>
      (Recording.composes_caused view).bind ((Recording.composes_caused view).evaluate node)
        fun value => (Recording.composes_caused view).nameOf value
  extending d value _ := by
    intro p error q h
    rw [run_bind_ok (run_get p)] at h
    cases houtcome : extension p.inventory d value with
    | ok a =>
      rw [houtcome] at h
      cases h
    | error e =>
      rw [houtcome] at h
      cases h
      exact (failsAs_extension _ _ _ _ houtcome).isCause
  bindings _ _ _ := by
    intro _ _ _ h
    cases h
  credentials _ _ := by
    intro _ _ _ h
    cases h
  tried hstep := by
    intro p e q h
    rw [tried_run_eq] at h
    split at h
    · cases h
    · cases h
    · next hrun =>
      cases h
      exact hstep _ _ _ hrun
  inScope enter _ hstep := hstep.inScope enter

end Step

/-- Expanding an instance fails only for something wrong. -/
def Evaluator.Caused (e : Evaluator) : Prop :=
  ∀ template frame span, (e.expand template frame span).Caused

theorem Step.caused_get : (get : Step Progress).Caused := by
  intro _ _ _ h
  cases h

theorem Step.caused_settled {α : Type} {outcome : Except EvalError α}
    (h : FailsAs EvalError.IsLocal outcome) :
    (Step.settled outcome).Caused := by
  intro p e q hrun
  cases outcome with
  | ok a => cases hrun
  | error cause =>
    cases hrun
    exact (h _ rfl).isCause

theorem register_caused (frame : Frame) (resource : Resource) : (register frame resource).Caused := by
  unfold register
  refine Step.caused_get.bind fun progress => ?_
  dsimp only
  split
  · exact Step.composes_caused.fail [] (fun _ => []) _ trivial
  · intro _ _ _ h
    cases h

theorem declareResource_caused (e : Evaluator) (frame : Frame) (type : ResourceType) (name : String)
    (source : List Node) (span : Span) {steps : List (Bool × Step Unit)}
    (hsteps : ∀ step ∈ steps, step.2.Caused) :
    (declareResource e frame type name source span steps).Caused := by
  unfold declareResource
  refine (Step.caused_settled (failsAs_keyAt _ _ _)).bind fun key => ?_
  have hbody := Step.composes_caused.assembles.resourceBody frame Step.Caused.collecting hsteps
  refine hbody.bind fun body => ?_
  refine (Step.caused_settled (failsAs_finishResource _ _ _ _ _)).bind fun resource => ?_
  exact Step.caused_get.bind fun progress => register_caused _ _

/-- A statement fails only for something wrong. -/
theorem runStatement_caused {e : Evaluator} (he : e.Caused) (node : Node) (frame : Frame) :
    (runStatement e node frame).Caused := by
  have h := Step.composes_caused.assembles
  refine h.statement e (fun _ => True) (fun _ _ _ _ => trivial) (fun _ _ _ _ => trivial) ?_ trivial
    frame
  intro typeText name source span _ hsource frame
  unfold runStatement
  refine (Step.caused_settled (failsAs_typeAt _ _)).bind fun type => ?_
  refine (h.naming [] e frame span trivial).bind fun text => ?_
  refine Step.caused_get.bind fun progress => ?_
  split
  · refine h.instantiate e frame Step.Caused.collecting _ (he _) _ _ fun step hstep => ?_
    rw [runStatements_eq_map] at hstep
    obtain ⟨node, hnode, rfl⟩ := List.mem_map.1 hstep
    exact hsource node hnode _
  · split
    · exact h.fail [] (fun _ => []) _ trivial
    · refine declareResource_caused e frame _ _ _ _ fun step hstep => ?_
      rw [runMarked_eq_map] at hstep
      obtain ⟨node, hnode, rfl⟩ := List.mem_map.1 hstep
      exact hsource node hnode _

theorem atDepth_caused (setting : Setting) (depth : Nat) :
    (Evaluator.atDepth setting depth).Caused := by
  induction depth with
  | zero =>
    intro template frame span _ _ _ h
    cases h
    trivial
  | succ depth ih =>
    intro template frame span
    refine Step.composes_caused.assembles.body fun step hstep => ?_
    rw [runStatements_eq_map] at hstep
    obtain ⟨node, -, rfl⟩ := List.mem_map.1 hstep
    exact runStatement_caused ih node frame

end Provision

import Provision.Proofs.Evaluation.Repeating
import Provision.Proofs.Evaluation.Shadowing

/-!
# Bodies that are evaluated again

The body of a resource is evaluated a second time, when more resources are
registered.  A statement without references does what it did before, waiting
included.  A statement with references does so if it succeeds and uses only names
that the body leaves alone; when such a statement has to wait, it has to wait as
often as it is tried, so that the first evaluation of the body does not succeed.
-/

namespace Provision

open Provision.Language (Node Branch Directive)
open Retry (Machine Settles Stalls Stuck Shadows)

/-! ## Scopes -/

namespace Scope

variable {scope other : Scope}

theorem find_put (scope : Scope) (name other : String) (value : Value) :
    (scope.put name value).find other = if name = other then some value else scope.find other := by
  unfold find put
  rw [findIn, findIn, Table.get?_set]
  by_cases hname : name = other
  · rw [if_pos hname, if_pos hname]
  · rw [if_neg hname, if_neg hname]

theorem find_putAll (scope : Scope) {entries : List (String × Value)} {name : String}
    (h : ∀ entry ∈ entries, entry.1 ≠ name) :
    (entries.foldl (fun s entry => s.put entry.1 entry.2) scope).find name = scope.find name := by
  induction entries generalizing scope with
  | nil => rfl
  | cons entry rest ih =>
    rw [List.foldl_cons, ih _ fun other hother => h other (List.mem_cons_of_mem _ hother), find_put,
      if_neg (h entry List.mem_cons_self)]

/-- The scopes have the same bindings and blocks of their own and see the same around them. -/
structure Same (scope other : Scope) : Prop where
  values : other.values = scope.values
  blocks : other.blocks = scope.blocks
  enclosing : ∀ name, findIn other.enclosing name = findIn scope.enclosing name

theorem same_refl (scope : Scope) : scope.Same scope :=
  ⟨rfl, rfl, fun _ => rfl⟩

theorem Same.find (h : scope.Same other) (name : String) : other.find name = scope.find name := by
  unfold Scope.find
  rw [findIn, findIn, h.values, h.enclosing]

theorem Same.put (h : scope.Same other) (name : String) (value : Value) :
    (scope.put name value).Same (other.put name value) :=
  ⟨congrArg (fun values => Table.set values name value) h.values, h.blocks, h.enclosing⟩

theorem Same.putAll (h : scope.Same other) (entries : List (String × Value)) :
    (entries.foldl (fun s entry => s.put entry.1 entry.2) scope).Same
      (entries.foldl (fun s entry => s.put entry.1 entry.2) other) := by
  induction entries generalizing scope other with
  | nil => exact h
  | cons entry rest ih => exact ih (h.put entry.1 entry.2)

theorem Same.child (h : scope.Same other) : scope.child.Same other.child :=
  ⟨rfl, rfl, h.find⟩

theorem Same.addBlock (h : scope.Same other) (key : String) (value : Value) :
    (scope.addBlock key value).Same (other.addBlock key value) :=
  ⟨h.values, congrArg (fun blocks => Blocks.append blocks key [value]) h.blocks, h.enclosing⟩

theorem Same.extendBlocks (h : scope.Same other) (blocks : Blocks) :
    (scope.extendBlocks blocks).Same (other.extendBlocks blocks) := by
  refine ⟨h.values, ?_, h.enclosing⟩
  unfold Scope.extendBlocks
  rw [h.blocks]

theorem Same.extendScope (h : scope.Same other) (entries : Bindings) :
    (extendScope scope entries).Same (extendScope other entries) := by
  unfold Provision.extendScope
  induction entries generalizing scope other with
  | nil => exact h
  | cons entry rest ih =>
    rw [List.foldl_cons, List.foldl_cons]
    refine ih ?_
    have hget : other.get? entry.1 = scope.get? entry.1 := by
      unfold Scope.get?
      rw [h.values]
    rw [hget]
    split <;> exact h.put _ _

theorem Same.fields (h : scope.Same other) : other.fields = scope.fields := by
  unfold Scope.fields
  rw [h.values, h.blocks]

end Scope

/-! ## Names that a body leaves alone -/

/-- A statement that may bind the name: a pair and a loop bind names of their own, `@extends` may
bind any. -/
def Language.Node.Binds (name : String) : Node → Prop
  | .pair entry => entry.key = name
  | .directive d => d.name = "extends" ∨
      d.name = "for" ∧ ∃ argument ∈ d.arguments, argument.asText? = some name
  | _ => False

/-- A statement that binds no free name. -/
def Language.Node.Spares (Free : String → Prop) (node : Node) : Prop :=
  ∀ name, Free name → ¬ node.Binds name

/-- The names of a loop stand among its arguments. -/
theorem exists_argument_of_loopNames {d : Directive} {nodes : List Node} {names : List String}
    (h : loopNames d nodes = .ok names) :
    ∀ name ∈ names, ∃ argument ∈ nodes, argument.asText? = some name := by
  induction nodes generalizing names with
  | nil =>
    cases h
    exact fun name hname => absurd hname List.not_mem_nil
  | cons node rest ih =>
    unfold loopNames at h
    split at h
    · cases h
    · next found hfound =>
      obtain ⟨later, hlater, h⟩ := bind_eq_ok.1 h
      cases h
      intro name hname
      rcases List.mem_cons.1 hname with rfl | hname
      · exact ⟨node, List.mem_cons_self, hfound⟩
      · obtain ⟨argument, hargument, htext⟩ := ih hlater name hname
        exact ⟨argument, List.mem_cons_of_mem _ hargument, htext⟩

/-! ## Two runs side by side -/

/-- A body is run under an inventory and later under another one.  The anchor shows the values that
free names have in both runs, and what the names of references are; no resource of the instance comes
to hide an open name. -/
structure Rerun where
  before : Inventory
  after : Inventory
  anchor : View
  Free : String → Prop
  Open : TypeName → String → Prop

namespace Rerun

/-- What was registered before still is, and resources only refer to registered ones. -/
structure Sound (r : Rerun) : Prop where
  within : Inventory.Within r.Open r.before r.after r.anchor.qualifier
  anchored : Inventory.Within r.Open r.before r.anchor.inventory r.anchor.qualifier
  fields : ∀ key resource, r.before.resource? key = some resource →
    ∀ other ∈ Value.handlesOfEntries resource.fields, r.before.has other = true

/-- The first run beside itself. -/
def still (r : Rerun) : Rerun :=
  { r with after := r.before }

/-- Where the first run may stand. -/
structure Stands (r : Rerun) (p : Progress) : Prop where
  inventory : p.inventory = r.before
  held : ∀ key ∈ p.scope.handles, r.before.has key = true
  free : ∀ name, r.Free name → p.scope.find name = r.anchor.scope.find name

/-- Where the second run may stand when the first one stands somewhere.  Exact runs have the same
bindings and reads, others only agree on free names. -/
structure Beside (r : Rerun) (exact : Prop) (p q : Progress) : Prop extends r.Stands p where
  after : q.inventory = r.after
  free' : ∀ name, r.Free name → q.scope.find name = r.anchor.scope.find name
  same : exact → p.scope.Same q.scope ∧ q.reads = p.reads ∧ q.credentials = p.credentials

/-- The two runs go on in the same instance, and both inside a resource or neither. -/
structure Frames (r : Rerun) (frame frame' : Frame) : Prop where
  qualifier : frame.qualifier = r.anchor.qualifier
  qualifier' : frame'.qualifier = r.anchor.qualifier
  inResource : frame'.inResource = frame.inResource

/-- A tree without references, from the same bindings, or one that uses free names only and whose
references ask for one resource each, by open names. -/
def Fixed (r : Rerun) (faithful exact : Prop) (node : Node) : Prop :=
  exact ∧ node.Everywhere Node.NotReference ∨
    ¬ faithful ∧ node.Everywhere (Node.Uses r.Free) ∧ node.Everywhere (Asks r.Open r.anchor)

variable {r : Rerun} {faithful exact : Prop}

theorem Sound.still (h : r.Sound) : r.still.Sound :=
  ⟨Inventory.within_refl _ _ _, h.anchored, h.fields⟩

theorem Fixed.child {node : Node} (h : r.Fixed faithful exact node) :
    ∀ child ∈ node.children, r.Fixed faithful exact child := fun child hchild =>
  h.imp (fun h => ⟨h.1, h.2.child child hchild⟩)
    fun h => ⟨h.1, h.2.1.child child hchild, h.2.2.child child hchild⟩

theorem Stands.exists_beside (exact : Prop) {p : Progress} (h : r.Stands p) :
    ∃ q, r.Beside exact p q :=
  ⟨{ p with inventory := r.after }, h, rfl, h.free, fun _ => ⟨p.scope.same_refl, rfl, rfl⟩⟩

/-- Changing both scopes keeps the runs beside each other. -/
theorem Beside.bindings {p q : Progress} (h : r.Beside exact p q) {scope scope' : Scope}
    (hheld : ∀ key ∈ scope.handles, r.before.has key = true)
    (hfree : ∀ name, r.Free name → scope.find name = p.scope.find name)
    (hfree' : ∀ name, r.Free name → scope'.find name = q.scope.find name)
    (hsame : exact → scope.Same scope') :
    r.Beside exact { p with scope := scope } { q with scope := scope' } where
  inventory := h.inventory
  held := hheld
  free name hname := (hfree name hname).trans (h.free name hname)
  after := h.after
  free' name hname := (hfree' name hname).trans (h.free' name hname)
  same hexact := ⟨hsame hexact, (h.same hexact).2⟩

/-! ### What the two runs see -/

section Views

variable {p q : Progress} {frame frame' : Frame} {setting setting' : Setting} {span : Span}

theorem Stands.view_known (hsound : r.Sound) (h : r.Stands p) :
    (p.view setting frame span).Known := by
  have hinventory : (p.view setting frame span).inventory = r.before := h.inventory
  refine ⟨fun name value hfind key hkey => ?_, fun key resource name value hresource hfield other
    hother => ?_⟩
  · rw [hinventory]
    exact h.held key (Scope.handles_of_find hfind hkey)
  · rw [hinventory] at hresource ⊢
    exact hsound.fields key resource hresource other (Value.handles_of_get? hfield hother)

theorem Beside.view_within (hsound : r.Sound) (hframes : r.Frames frame frame')
    (h : r.Beside exact p q) (setting setting' : Setting) (span : Span) {Free : String → Prop}
    (hfind : ∀ name, Free name → q.scope.find name = p.scope.find name) :
    (p.view setting frame span).Within Free r.Open (q.view setting' frame' span) := by
  refine ⟨?_, hframes.qualifier'.trans hframes.qualifier.symm, hfind⟩
  show Inventory.Within r.Open p.inventory q.inventory frame.qualifier
  rw [h.inventory, h.after, hframes.qualifier]
  exact hsound.within

/-- References ask for one resource by an open name wherever the first run stands. -/
theorem Stands.asks (hsound : r.Sound) (hqualifier : frame.qualifier = r.anchor.qualifier)
    (h : r.Stands p) {node : Node} (hfree : node.Everywhere (Node.Uses r.Free))
    (hone : node.Everywhere (Asks r.Open r.anchor)) :
    node.Everywhere (Asks r.Open (p.view setting frame span)) := by
  refine asks_of_within ⟨?_, hqualifier.symm, fun name hname => (h.free name hname).symm⟩
    (h.view_known hsound) hfree hone
  show Inventory.Within r.Open p.inventory r.anchor.inventory frame.qualifier
  rw [h.inventory, hqualifier]
  exact hsound.anchored

theorem notReference_uses {node : Node} : node.Everywhere (Node.Uses fun _ => True) := by
  induction node using Node.induction with
  | step node ih =>
    refine .intro ?_ ih
    unfold Node.Uses
    split <;> trivial

theorem asks_of_notReference {Open : TypeName → String → Prop} {node : Node} {view : View}
    (h : node.Everywhere Node.NotReference) :
    node.Everywhere (Asks Open view) := by
  refine h.mono fun node hnode => ?_
  unfold Asks
  split
  · exact hnode
  · exact absurd hnode id
  · trivial

/-- An expression that is fixed comes to the same in both runs. -/
theorem Beside.evaluate (hsound : r.Sound) (hframes : r.Frames frame frame')
    (h : r.Beside exact p q) (setting setting' : Setting) (span : Span) {node : Node}
    (hfixed : r.Fixed faithful exact node) :
    Recording.Repeats faithful (Value.Known r.before)
      (evaluate (p.view setting frame span) node)
      (Provision.evaluate (q.view setting' frame' span) node) := by
  rw [← h.inventory]
  rcases hfixed with ⟨hexact, hplain⟩ | ⟨hfaithful, hfree, hone⟩
  · have hwithin := h.view_within hsound hframes setting setting' span
      fun name (_ : True) => (h.same hexact).1.find name
    exact evaluate_repeats hwithin (h.view_known hsound) notReference_uses
      (asks_of_notReference hplain) fun _ => hplain
  · have hwithin := h.view_within hsound hframes setting setting' span
      fun name hname => (h.free' name hname).trans (h.free name hname).symm
    exact evaluate_repeats hwithin (h.view_known hsound) hfree
      (h.asks hsound hframes.qualifier hfree hone) fun hyes => absurd hyes hfaithful

end Views

/-! ### Steps -/

section Steps

variable {α β : Type}

/-- What the outcome of a step in the first run says about that in the second. -/
inductive Repeated (r : Rerun) (faithful exact : Prop) (ρ : α → α → Prop) :
    Except Interrupt α × Progress → Except Interrupt α × Progress → Prop
  | ok {a a' : α} {p q : Progress} (hvalue : ρ a a') (hbeside : r.Beside exact p q) :
      Repeated r faithful exact ρ (.ok a, p) (.ok a', q)
  | fails {e : EvalError} {p : Progress} {result : Except Interrupt α × Progress} :
      Repeated r faithful exact ρ (.error (.failed e), p) result
  | waits {reasons : List Deferral} {p : Progress} {result : Except Interrupt α × Progress}
      (hstands : r.Stands p)
      (hagain : faithful → ∃ reasons' q, result = (.error (.deferred reasons'), q) ∧
        r.Beside exact p q) :
      Repeated r faithful exact ρ (.error (.deferred reasons), p) result

/-- Whatever the first step comes to, the second repeats it. -/
def Repeats (r : Rerun) (faithful exact : Prop) (ρ : α → α → Prop) (step step' : Step α) : Prop :=
  ∀ p q, r.Beside exact p q → r.Repeated faithful exact ρ (step.run p) (step'.run q)

/-- Two equal values with a property. -/
def Both (P : α → Prop) (a a' : α) : Prop :=
  a' = a ∧ P a

variable {ρ : α → α → Prop} {ρ' : β → β → Prop} {P : α → Prop}

theorem repeats_pure {a a' : α} (h : ρ a a') :
    r.Repeats faithful exact ρ (pure a) (pure a') :=
  fun _ _ hbeside => .ok h hbeside

theorem repeats_fail (e : EvalError) (step : Step α) :
    r.Repeats faithful exact ρ (Step.fail e) step :=
  fun _ _ _ => .fails

theorem repeats_settled (outcome : Except EvalError α) (h : ∀ a, outcome = .ok a → P a) :
    r.Repeats faithful exact (Both P) (Step.settled outcome) (Step.settled outcome) := by
  cases outcome with
  | ok a => exact repeats_pure ⟨rfl, h a rfl⟩
  | error e => exact repeats_fail e _

theorem Repeats.bind {m m' : Step α} {f f' : α → Step β} (hm : r.Repeats faithful exact ρ m m')
    (hf : ∀ a a', ρ a a' → r.Repeats faithful exact ρ' (f a) (f' a')) :
    r.Repeats faithful exact ρ' (m >>= f) (m' >>= f') := by
  intro p q hbeside
  have hfirst := hm p q hbeside
  rw [run_bind, run_bind]
  generalize m.run p = result at hfirst
  generalize m'.run q = result' at hfirst
  cases hfirst with
  | ok hvalue hafter => exact hf _ _ hvalue _ _ hafter
  | fails => exact .fails
  | waits hstands hagain =>
    refine .waits hstands fun hfaithful => ?_
    obtain ⟨reasons, between, rfl, hafter⟩ := hagain hfaithful
    exact ⟨reasons, between, rfl, hafter⟩

/-- A change of the bindings in both runs. -/
theorem repeats_bindings (change change' : Scope → Scope)
    (h : ∀ p q, r.Beside exact p q →
      r.Beside exact { p with scope := change p.scope } { q with scope := change' q.scope }) :
    r.Repeats faithful exact (fun _ _ => True)
      (modify fun progress => { progress with scope := change progress.scope } : Step Unit)
      (modify fun progress => { progress with scope := change' progress.scope } : Step Unit) :=
  fun p q hbeside => .ok trivial (h p q hbeside)

theorem repeats_credentials (name : Option String) :
    r.Repeats faithful exact (fun _ _ => True)
      (modify fun progress => { progress with credentials := name } : Step Unit)
      (modify fun progress => { progress with credentials := name } : Step Unit) := by
  intro p q hbeside
  refine .ok trivial ⟨⟨hbeside.inventory, hbeside.held, hbeside.free⟩, hbeside.after,
    hbeside.free', fun hexact => ?_⟩
  obtain ⟨hscope, hreads, -⟩ := hbeside.same hexact
  exact ⟨hscope, hreads, rfl⟩

/-- Reading an expression that is fixed. -/
theorem repeats_evaluating (hsound : r.Sound) {frame frame' : Frame}
    (hframes : r.Frames frame frame') (e e' : Evaluator) (span : Span) {node : Node}
    (hfixed : r.Fixed faithful exact node) :
    r.Repeats faithful exact (Both (Value.Known r.before))
      (e.reading frame span fun view => evaluate view node)
      (e'.reading frame' span fun view => evaluate view node) := by
  intro p q hbeside
  have hread := hbeside.evaluate hsound hframes e.setting e'.setting span hfixed p.reads q.reads
  have hafter {reads reads' : List Key} (hreads : q.reads = p.reads → reads' = reads) :
      r.Beside exact { p with reads := reads } { q with reads := reads' } := by
    refine ⟨⟨hbeside.inventory, hbeside.held, hbeside.free⟩, hbeside.after, hbeside.free', ?_⟩
    intro hexact
    obtain ⟨hscope, hsame, hcredentials⟩ := hbeside.same hexact
    exact ⟨hscope, hreads hsame, hcredentials⟩
  rw [Step.reading_run, Step.reading_run]
  generalize (evaluate (p.view e.setting frame span) node).run p.reads = result at hread ⊢
  generalize (evaluate (q.view e'.setting frame' span) node).run q.reads = result' at hread ⊢
  cases hread with
  | ok hvalue hreads => exact .ok ⟨rfl, hvalue⟩ (hafter hreads)
  | fails => exact .fails
  | waits hagain =>
    refine .waits ⟨hbeside.inventory, hbeside.held, hbeside.free⟩ fun hfaithful => ?_
    obtain ⟨reasons, reads, rfl, hreads⟩ := hagain hfaithful
    exact ⟨reasons, _, rfl, hafter hreads⟩

/-- What the scopes of a body hold in the end. -/
def Scopes (r : Rerun) (exact : Prop) (scope scope' : Scope) : Prop :=
  (exact → scope.Same scope') ∧ ∀ key ∈ scope.handles, r.before.has key = true

theorem Repeats.inScope {enter : Scope → Scope} {step step' : Step Unit}
    (henter : ∀ p q, r.Beside exact p q →
      r.Beside exact { p with scope := enter p.scope } { q with scope := enter q.scope })
    (h : r.Repeats faithful exact (fun _ _ => True) step step') :
    r.Repeats faithful exact (r.Scopes exact) (Step.inScope enter step)
      (Step.inScope enter step') := by
  intro p q hbeside
  have hinner := h _ _ (henter p q hbeside)
  have houtside {after after' : Progress} (hafter : r.Beside exact after after') :
      r.Beside exact { after with scope := p.scope } { after' with scope := q.scope } := by
    refine ⟨⟨hafter.inventory, hbeside.held, hbeside.free⟩, hafter.after, hbeside.free', ?_⟩
    exact fun hexact => ⟨(hbeside.same hexact).1, (hafter.same hexact).2⟩
  rw [Step.inScope_run, Step.inScope_run]
  generalize step.run { p with scope := enter p.scope } = result at hinner ⊢
  generalize step'.run { q with scope := enter q.scope } = result' at hinner ⊢
  cases hinner with
  | ok _ hafter =>
    exact .ok ⟨fun hexact => (hafter.same hexact).1, hafter.held⟩ (houtside hafter)
  | fails => exact .fails
  | waits hstands hagain =>
    refine .waits ⟨hstands.inventory, hbeside.held, hbeside.free⟩ fun hfaithful => ?_
    obtain ⟨reasons, after', rfl, hafter⟩ := hagain hfaithful
    exact ⟨reasons, _, rfl, houtside hafter⟩

theorem Beside.child {p q : Progress} (h : r.Beside exact p q) :
    r.Beside exact { p with scope := p.scope.child } { q with scope := q.scope.child } :=
  h.bindings (fun key hkey => h.held key (Scope.handles_child p.scope hkey))
    (fun _ _ => rfl) (fun _ _ => rfl) fun hexact => (h.same hexact).1.child

theorem repeats_sequence {ι : Type} {items : List ι} {step step' : ι → Step Unit}
    (h : ∀ i ∈ items, r.Repeats faithful exact (fun _ _ => True) (step i) (step' i)) :
    r.Repeats faithful exact (fun _ _ => True) (Step.sequence (items.map step))
      (Step.sequence (items.map step')) := by
  induction items with
  | nil => exact repeats_pure trivial
  | cons i rest ih =>
    have hrest := ih fun other hother => h other (List.mem_cons_of_mem _ hother)
    exact (h i List.mem_cons_self).bind fun _ _ _ => hrest

/-! ### Bodies -/

/-- A step that succeeds wherever the first run stands, or nowhere. -/
def Firm (r : Rerun) (step : Step Unit) : Prop :=
  ∀ p p', r.Stands p → r.Stands p' → (step.run p).1 = .ok () → (step.run p').1 = .ok ()

/-- The step of a body waits in both runs when it waits in one, or it is firm. -/
def Steady (r : Rerun) (faithful exact : Prop) (step step' : Step Unit) : Prop :=
  r.Repeats True exact (fun _ _ => True) step step' ∨
    ¬ faithful ∧ r.Repeats False exact (fun _ _ => True) step step' ∧ r.Firm step

/-- A step that repeats itself while nothing is registered is firm. -/
theorem firm_of_still {step : Step Unit}
    (h : r.still.Repeats False False (fun _ _ => True) step step) :
    r.Firm step := by
  intro p p' hp hp' hok
  have hbeside : r.still.Beside False p p' :=
    ⟨⟨hp.inventory, hp.held, hp.free⟩, hp'.inventory, hp'.free, False.elim⟩
  have hrepeated := h p p' hbeside
  generalize step.run p = result at hrepeated hok
  generalize step.run p' = result' at hrepeated ⊢
  cases hrepeated with
  | ok _ _ => rfl
  | fails => cases hok
  | waits _ _ => cases hok

variable {ι : Type} {items : List ι} {step step' : ι → Step Unit}

/-- A machine whose items are the steps of a body. -/
abbrev machine (step : ι → Step Unit) : Machine ι Progress Unit :=
  bodyMachine step fun _ _ => .waits

theorem Firm.stuck {i : ι} (h : r.Firm (step i)) {p q : Progress} {reasons : List Deferral}
    (hstands : r.Stands p) (hrun : (step i).run p = (.error (.deferred reasons), q)) :
    Stuck (machine step) r.Stands i := by
  intro p' hp' q' hdone
  have hok := h p' p hp' hstands (congrArg Prod.fst (Step.attempt_eq_done.1 hdone))
  rw [hrun] at hok
  cases hok

theorem shadows_of_steady (h : ∀ i ∈ items, r.Steady faithful exact (step i) (step' i)) :
    Shadows (machine step) (machine step') faithful r.Stands (r.Beside exact) items where
  stands hbeside := hbeside.toStands
  exists_near hstands := hstands.exists_beside exact
  next _ hbeside := hbeside
  done {i p q u} hi hbeside hdone := by
    have hrun : (step i).run p = (.ok (), u) := Step.attempt_eq_done.1 hdone
    have hok {faithful : Prop}
        (hrepeats : r.Repeats faithful exact (fun _ _ => True) (step i) (step' i)) :
        ∃ v, (step' i).attempt q = .done v ∧ r.Beside exact u v := by
      have hrepeated := hrepeats p q hbeside
      rw [hrun] at hrepeated
      generalize hrun' : (step' i).run q = result' at hrepeated
      cases hrepeated with
      | ok _ hafter => exact ⟨_, Step.attempt_eq_done.2 hrun', hafter⟩
    exact (h i hi).elim hok fun hsteady => hok hsteady.2.1
  waits {i p q u} hi hbeside hwaits := by
    obtain ⟨reasons, hrun⟩ := Step.attempt_eq_waits.1 hwaits
    rcases h i hi with hrepeats | ⟨hfaithful, hrepeats, hfirm⟩
    · have hrepeated := hrepeats p q hbeside
      rw [hrun] at hrepeated
      cases hrepeated with
      | waits hstands hagain =>
        obtain ⟨reasons', v, hrun', hafter⟩ := hagain trivial
        exact ⟨hstands, Or.inl ⟨v, Step.attempt_eq_waits.2 ⟨reasons', hrun'⟩, hafter⟩⟩
    · have hrepeated := hrepeats p q hbeside
      rw [hrun] at hrepeated
      cases hrepeated with
      | waits hstands _ =>
        exact ⟨hstands, Or.inr ⟨hfaithful, hfirm.stuck hbeside.toStands hrun⟩⟩

/-- A body repeats itself when its steps are steady. -/
theorem repeats_body (h : ∀ i ∈ items, r.Steady faithful exact (step i) (step' i)) :
    r.Repeats faithful exact (fun _ _ => True) (Step.body (items.map step))
      (Step.body (items.map step')) := by
  intro p q hbeside
  have hshadows := shadows_of_steady h
  rcases Retry.settles_or_breaks_or_stalls (machine step) items p with
    ⟨u, hsettles⟩ | hbreaks | ⟨rest, u, hstalls⟩
  · obtain ⟨v, hsettles', hafter⟩ := hshadows.settles hbeside hsettles
    rw [body_of_settles hsettles, body_of_settles hsettles']
    exact .ok trivial hafter
  · obtain ⟨e, u, hrun⟩ := body_of_breaks hbreaks
    rw [hrun]
    exact .fails
  · obtain ⟨reasons, hrun⟩ := body_of_stalls hstalls
    obtain ⟨hstands, hagain⟩ := hshadows.stalls hbeside hstalls
    rw [hrun]
    refine .waits hstands fun hfaithful => ?_
    obtain ⟨v, hstalls', hafter⟩ := hagain hfaithful
    obtain ⟨reasons', hrun'⟩ := body_of_stalls hstalls'
    exact ⟨reasons', v, hrun', hafter⟩

end Steps

/-! ### Directives -/

section Directives

variable (hsound : r.Sound) {e e' : Evaluator} {frame frame' : Frame}
  (hframes : r.Frames frame frame') (d : Directive)

/-- Every resource that some entries refer to is registered in the first run. -/
def Held (r : Rerun) (entries : Bindings) : Prop :=
  ∀ key ∈ Value.handlesOfEntries entries, r.before.has key = true

/-- Merges entries into the scope. -/
def extending (entries : Bindings) : Step Unit :=
  modify fun progress => { progress with scope := extendScope progress.scope entries }

theorem repeats_extending (hspares : ∀ name, ¬ r.Free name) {entries : Bindings}
    (hentries : r.Held entries) :
    r.Repeats faithful exact (fun _ _ => True) (extending entries) (extending entries) := by
  refine repeats_bindings (fun scope => extendScope scope entries)
    (fun scope => extendScope scope entries) fun p q hbeside => ?_
  refine hbeside.bindings (fun key hkey => ?_) (fun name hname => absurd hname (hspares name))
    (fun name hname => absurd hname (hspares name))
    fun hexact => (hbeside.same hexact).1.extendScope entries
  exact (List.mem_append.1 (Scope.handles_extendScope p.scope entries hkey)).elim (hentries key)
    (hbeside.held key)

include hsound

/-- A value extends a scope with the same entries in both runs. -/
theorem repeats_extension {value : Value} (hvalue : value.Known r.before) :
    r.Repeats faithful exact (Both r.Held)
      (get >>= fun progress : Progress => Step.settled (extension progress.inventory d value))
      (get >>= fun progress : Progress => Step.settled (extension progress.inventory d value)) := by
  intro p q hbeside
  have hsame : extension q.inventory d value = extension p.inventory d value := by
    rw [hbeside.after, hbeside.inventory]
    cases value with
    | resource key =>
      obtain ⟨resource, hresource⟩ := Option.isSome_iff_exists.1 (Value.known_resource.1 hvalue)
      have hconfigured : configuredValues r.after key = configuredValues r.before key := by
        unfold configuredValues
        rw [hresource, hsound.within.resource key resource hresource]
      exact congrArg Except.ok hconfigured
    | _ => rfl
  have hheld : ∀ entries, extension p.inventory d value = .ok entries → r.Held entries := by
    rw [hbeside.inventory]
    intro entries hentries key hkey
    cases value with
    | map own =>
      cases hentries
      exact hvalue key hkey
    | resource other =>
      cases hentries
      unfold configuredValues at hkey
      split at hkey
      · next resource hresource =>
        exact hsound.fields other resource hresource key
          (Value.handles_subset (fun _ hentry => (List.mem_filter.1 hentry).1) hkey)
      · cases hkey
    | _ => cases hentries
  rw [run_bind_ok (run_get p), run_bind_ok (run_get q), hsame]
  exact repeats_settled _ hheld p q hbeside

include hframes

theorem repeats_exclude {arguments : List Node} {entries : Bindings}
    (hreads : ∀ node ∈ arguments, r.Fixed faithful exact node) (hentries : r.Held entries) :
    r.Repeats faithful exact (Both r.Held) (exclude e frame d arguments entries)
      (exclude e' frame' d arguments entries) := by
  induction arguments generalizing entries with
  | nil => exact repeats_pure ⟨rfl, hentries⟩
  | cons argument rest ih =>
    unfold exclude
    refine (repeats_evaluating hsound hframes e e' d.span (hreads _ List.mem_cons_self)).bind ?_
    rintro value _ ⟨rfl, -⟩
    refine (repeats_settled (P := fun _ => True) _ fun _ _ => trivial).bind ?_
    rintro names _ ⟨rfl, -⟩
    refine ih (fun node hnode => hreads node (List.mem_cons_of_mem _ hnode)) fun key hkey => ?_
    exact hentries key (Value.handles_eraseAll _ _ hkey)

theorem repeats_runExtends (hspares : ∀ name, ¬ r.Free name)
    (hreads : ∀ node ∈ (Node.directive d).children, r.Fixed faithful exact node) :
    r.Repeats faithful exact (fun _ _ => True) (runExtends e frame d) (runExtends e' frame' d) := by
  unfold runExtends
  split
  · exact repeats_fail _ _
  · next source hsource =>
    have hsource := hreads source (Node.mem_children_of_argument (List.mem_of_mem_head? hsource))
    have hexcluded : ∀ node ∈ ((d.clause? "exclude").map fun clause => clause.arguments).getD [],
        r.Fixed faithful exact node := by
      intro node hnode
      cases hclause : d.clause? "exclude" with
      | none =>
        rw [hclause] at hnode
        cases hnode
      | some clause =>
        rw [hclause] at hnode
        exact hreads node (Node.mem_children_of_clause hclause hnode)
    dsimp only
    generalize ((d.clause? "exclude").map fun clause => clause.arguments).getD [] = excluded
      at hexcluded ⊢
    refine (repeats_evaluating hsound hframes e e' d.span hsource).bind ?_
    rintro value _ ⟨rfl, hvalue⟩
    have hrest : ∀ entries entries', Both r.Held entries entries' →
        r.Repeats faithful exact (fun _ _ => True) (exclude e frame d excluded entries >>= extending)
          (exclude e' frame' d excluded entries' >>= extending) := by
      rintro entries _ ⟨rfl, hentries⟩
      refine (repeats_exclude hsound hframes d hexcluded hentries).bind ?_
      rintro left _ ⟨rfl, hleft⟩
      exact repeats_extending hspares hleft
    have hwhole := (repeats_extension hsound d hvalue).bind hrest
    rwa [bind_assoc, bind_assoc] at hwhole

theorem repeats_runCredentials
    (hreads : ∀ node ∈ (Node.directive d).children, r.Fixed faithful exact node) :
    r.Repeats faithful exact (fun _ _ => True) (runCredentials e frame d)
      (runCredentials e' frame' d) := by
  unfold runCredentials
  rw [hframes.inResource]
  split
  · exact repeats_fail _ _
  · split
    · exact repeats_fail _ _
    · next argument hargument =>
      have hargument := hreads argument (Node.mem_children_of_argument (List.mem_of_mem_head? hargument))
      refine (repeats_evaluating hsound hframes e e' d.span hargument).bind ?_
      rintro value _ ⟨rfl, -⟩
      split
      · exact repeats_credentials _
      · exact repeats_fail _ _

/-- What loops collect is the same in exact runs, and registered in the first run. -/
def Collected (r : Rerun) (exact : Prop) (blocks blocks' : Blocks) : Prop :=
  (exact → blocks' = blocks) ∧ ∀ key ∈ blocks.handles, r.before.has key = true

omit hsound in
theorem repeats_runIterations {run run' : Frame → Step Unit}
    (hrun : ∀ inner inner', r.Frames inner inner' →
      r.Repeats faithful exact (fun _ _ => True) (run inner) (run' inner'))
    (span : Span) {names : List String} (hnames : ∀ name ∈ names, ¬ r.Free name) (index : Nat)
    {rounds : List (List Value)}
    (hrounds : ∀ values ∈ rounds, ∀ key ∈ Value.handlesOfItems values, r.before.has key = true) :
    r.Repeats faithful exact (r.Collected exact) (runIterations frame span names run index rounds)
      (runIterations frame' span names run' index rounds) := by
  induction rounds generalizing index with
  | nil => exact repeats_pure ⟨fun _ => rfl, nofun⟩
  | cons values rest ih =>
    have hfind (scope : Scope) (name : String) (hname : r.Free name) :
        ((names.zip values).foldl (fun s entry => s.put entry.1 entry.2) scope.child).find name =
          scope.find name := by
      refine Scope.find_putAll scope.child fun entry hentry heq => ?_
      exact hnames entry.1 (List.of_mem_zip hentry).1 (heq ▸ hname)
    unfold runIterations
    refine Repeats.bind (Repeats.inScope (fun p q hbeside => hbeside.bindings (fun key hkey => ?_)
      (hfind p.scope) (hfind q.scope) fun hexact => (hbeside.same hexact).1.child.putAll _)
      (hrun _ _ ⟨hframes.qualifier, hframes.qualifier', hframes.inResource⟩)) ?_
    · exact (List.mem_append.1 (handles_iteration names values p.scope hkey)).elim
        (hrounds values List.mem_cons_self key) (hbeside.held key)
    · rintro scope scope' ⟨hsame, hscope⟩
      refine (ih (index + 1) fun values hvalues =>
        hrounds values (List.mem_cons_of_mem _ hvalues)).bind ?_
      rintro later later' ⟨hlater, hheld⟩
      refine repeats_pure ⟨fun hexact => ?_, fun key hkey => ?_⟩
      · rw [hlater hexact, (hsame hexact).blocks]
      · rcases List.mem_append.1 (Blocks.handles_appendAll _ _ hkey) with hkey | hkey
        · exact hheld key hkey
        · exact hscope key (Scope.mem_handles.2 (Or.inr (Or.inl hkey)))

theorem repeats_runLoop {run run' : Frame → Step Unit}
    (hspares : ∀ argument ∈ d.arguments, ∀ name, argument.asText? = some name → ¬ r.Free name)
    (hreads : ∀ node ∈ (Node.directive d).children, r.Fixed faithful exact node)
    (hrun : ∀ inner inner', r.Frames inner inner' →
      r.Repeats faithful exact (fun _ _ => True) (run inner) (run' inner')) :
    r.Repeats faithful exact (fun _ _ => True) (runLoop e frame d run) (runLoop e' frame' d run') := by
  unfold runLoop
  refine (repeats_settled (P := fun names => ∀ name ∈ names, ¬ r.Free name) _ ?_).bind ?_
  · intro names hnames name hname
    obtain ⟨argument, hargument, htext⟩ := exists_argument_of_loopNames hnames name hname
    exact hspares argument hargument name htext
  rintro names _ ⟨rfl, hnames⟩
  split
  · exact repeats_fail _ _
  · split
    · exact repeats_fail _ _
    · next source hsource =>
      obtain ⟨clause, hclause, hsource⟩ := Option.bind_eq_some_iff.1 hsource
      have hsource := hreads source (Node.mem_children_of_clause hclause (List.mem_of_mem_head? hsource))
      refine (repeats_evaluating hsound hframes e e' d.span hsource).bind ?_
      rintro value _ ⟨rfl, hvalue⟩
      refine (repeats_settled (P := fun rounds => ∀ values ∈ rounds,
        ∀ key ∈ Value.handlesOfItems values, r.before.has key = true) _ ?_).bind ?_
      · intro rounds hrounds values hvalues key hkey
        exact hvalue key (handles_of_iterations hrounds hvalues hkey)
      rintro rounds _ ⟨rfl, hrounds⟩
      refine (repeats_runIterations hframes hrun d.span hnames 0 hrounds).bind ?_
      rintro blocks blocks' ⟨hsame, hblocks⟩
      refine repeats_bindings (fun scope => scope.extendBlocks blocks)
        (fun scope => scope.extendBlocks blocks') fun p q hbeside => ?_
      refine hbeside.bindings (fun key hkey => ?_) (fun _ _ => rfl) (fun _ _ => rfl) fun hexact => ?_
      · exact (List.mem_append.1 (Scope.handles_extendBlocks p.scope blocks hkey)).elim (hblocks key)
          (hbeside.held key)
      · rw [hsame hexact]
        exact (hbeside.same hexact).1.extendBlocks blocks

omit hsound hframes in
/-- The statements of a body, each of them steady. -/
theorem repeats_statements {source : List Node}
    (hsteady : ∀ node ∈ source, r.Steady faithful exact (runStatement e node frame)
      (runStatement e' node frame')) :
    r.Repeats faithful exact (fun _ _ => True) (Step.body (runStatements e source frame))
      (Step.body (runStatements e' source frame')) := by
  rw [runStatements_eq_map, runStatements_eq_map]
  exact repeats_body hsteady

theorem repeats_runBranches (span : Span) {branches : List Branch}
    (hreads : ∀ branch ∈ branches, ∀ node ∈ branch.arguments, r.Fixed faithful exact node)
    (hbodies : ∀ branch ∈ branches, ∀ node ∈ branch.body,
      r.Steady faithful exact (runStatement e node frame) (runStatement e' node frame')) :
    r.Repeats faithful exact (fun _ _ => True) (runBranches e span branches frame)
      (runBranches e' span branches frame') := by
  induction branches with
  | nil => exact repeats_pure trivial
  | cons branch rest ih =>
    obtain ⟨name, arguments, body, place⟩ := branch
    have hrest := ih (fun other hother => hreads other (List.mem_cons_of_mem _ hother))
      fun other hother => hbodies other (List.mem_cons_of_mem _ hother)
    have hbody := repeats_statements (hbodies _ List.mem_cons_self)
    unfold runBranches
    split
    · exact hbody
    · next condition hcondition =>
      have hcondition := hreads _ List.mem_cons_self condition (List.mem_of_mem_head? hcondition)
      refine (repeats_evaluating hsound hframes e e' span hcondition).bind ?_
      rintro value _ ⟨rfl, -⟩
      split
      · exact hbody
      · exact hrest

theorem repeats_runDirective (hspares : (Node.directive d).Spares r.Free)
    (hreads : ∀ node ∈ (Node.directive d).children, r.Fixed faithful exact node)
    (hbodies : ∀ node ∈ (Node.directive d).inner, ∀ inner inner', r.Frames inner inner' →
      r.Repeats faithful exact (fun _ _ => True) (runStatement e node inner)
        (runStatement e' node inner'))
    (hsteady : ∀ node ∈ (Node.directive d).inner,
      r.Steady faithful exact (runStatement e node frame) (runStatement e' node frame')) :
    r.Repeats faithful exact (fun _ _ => True) (runDirective e d frame)
      (runDirective e' d frame') := by
  obtain ⟨name, arguments, clauses, bodyless, body, branches, span⟩ := d
  have hbody := repeats_statements fun node hnode => hsteady node (List.mem_append_left _ hnode)
  have hbranches : ∀ branch ∈ branches, ∀ node ∈ branch.body,
      r.Steady faithful exact (runStatement e node frame) (runStatement e' node frame') :=
    fun branch hbranch node hnode =>
      hsteady node (List.mem_append_right _ (List.mem_flatMap.2 ⟨branch, hbranch, hnode⟩))
  have hguards : ∀ branch ∈ branches, ∀ node ∈ branch.arguments, r.Fixed faithful exact node :=
    fun branch hbranch node hnode => hreads node (Node.mem_children_of_guard hbranch hnode)
  unfold runDirective
  split
  · split
    · exact repeats_fail _ _
    · next condition hcondition =>
      have hcondition := hreads _ (Node.mem_children_of_argument (List.mem_of_mem_head? hcondition))
      refine (repeats_evaluating hsound hframes e e' span hcondition).bind ?_
      rintro value _ ⟨rfl, -⟩
      split
      · exact hbody
      · exact repeats_runBranches hsound hframes span hguards hbranches
  · split
    · next hname =>
      refine repeats_runLoop hsound hframes _ (fun argument hargument free htext hfree => ?_) hreads
        fun inner inner' hinner => ?_
      · exact hspares free hfree (Or.inr ⟨hname, argument, hargument, htext⟩)
      · rw [runStatements_eq_map, runStatements_eq_map]
        exact repeats_sequence fun node hnode =>
          hbodies node (List.mem_append_left _ hnode) inner inner' hinner
    · split
      · next hname =>
        exact repeats_runExtends hsound hframes _ (fun free hfree => hspares free hfree (Or.inl hname))
          hreads
      · split
        · exact repeats_runCredentials hsound hframes _ hreads
        · -- the remaining directives are all errors here
          repeat' split
          all_goals exact repeats_fail _ _

end Directives

/-! ### Statements -/

/-- A fixed statement that declares nothing and spares the free names repeats itself. -/
theorem repeats_statement {node : Node} (hsound : r.Sound) {e e' : Evaluator}
    {frame frame' : Frame} (hframes : r.Frames frame frame') (htypes : typesIn node = [])
    (hspares : node.Everywhere (Node.Spares r.Free)) (hfixed : r.Fixed faithful exact node) :
    r.Repeats faithful exact (fun _ _ => True) (runStatement e node frame)
      (runStatement e' node frame') := by
  induction node using Node.induction generalizing r faithful exact e e' frame frame' with
  | step node ih =>
    have hbodies : ∀ child ∈ node.inner, ∀ inner inner', r.Frames inner inner' →
        r.Repeats faithful exact (fun _ _ => True) (runStatement e child inner)
          (runStatement e' child inner') := fun child hchild inner inner' hinner =>
      have hmem := Node.mem_children_of_inner hchild
      ih child hmem hsound hinner (typesIn_inner htypes child hchild) (hspares.child child hmem)
        (hfixed.child child hmem)
    have hsteady : ∀ child ∈ node.inner,
        r.Steady faithful exact (runStatement e child frame) (runStatement e' child frame') := by
      intro child hchild
      have hmem := Node.mem_children_of_inner hchild
      have hnone := typesIn_inner htypes child hchild
      have hspared := hspares.child child hmem
      rcases hfixed.child child hmem with ⟨hexact, hplain⟩ | ⟨hfaithful, hfree, hone⟩
      · exact Or.inl (ih child hmem hsound hframes hnone hspared (Or.inl ⟨hexact, hplain⟩))
      · refine Or.inr ⟨hfaithful, ih child hmem hsound hframes hnone hspared
          (Or.inr ⟨id, hfree, hone⟩), firm_of_still ?_⟩
        exact ih child hmem hsound.still ⟨hframes.qualifier, hframes.qualifier, rfl⟩ hnone hspared
          (Or.inr ⟨id, hfree, hone⟩)
    have hreads := hfixed.child
    cases node with
    | pair entry =>
      obtain ⟨key, value, span⟩ := entry
      unfold runStatement
      refine (repeats_evaluating hsound hframes e e' span (hreads value List.mem_cons_self)).bind ?_
      rintro found again ⟨hagain, hfound⟩
      rw [hagain]
      have hput (scope : Scope) (name : String) (hname : r.Free name) :
          (scope.put key found).find name = scope.find name := by
        have hkey : key ≠ name := hspares.root name hname
        rw [Scope.find_put, if_neg hkey]
      refine repeats_bindings (fun scope => scope.put key found) (fun scope => scope.put key found)
        fun p q hbeside => hbeside.bindings (fun other hother => ?_) (hput p.scope) (hput q.scope)
          fun hexact => (hbeside.same hexact).1.put key found
      exact (List.mem_append.1 (Scope.handles_put p.scope key found hother)).elim (hfound other)
        (hbeside.held other)
    | resource type name source span =>
      obtain ⟨error, htype⟩ := typeAt_of_typesIn htypes span
      unfold runStatement
      rw [htype]
      exact repeats_fail error _
    | block key source span =>
      unfold runStatement
      rw [hframes.inResource]
      split
      · exact repeats_fail _ _
      · refine (Repeats.inScope (fun p q => Beside.child) (repeats_statements hsteady)).bind ?_
        rintro scope scope' ⟨hsame, hheld⟩
        refine repeats_bindings (fun outer => outer.addBlock key (.map scope.fields))
          (fun outer => outer.addBlock key (.map scope'.fields)) fun p q hbeside =>
            hbeside.bindings (fun other hother => ?_) (fun _ _ => rfl) (fun _ _ => rfl)
              fun hexact => ?_
        · rcases List.mem_append.1 (Scope.handles_addBlock _ _ _ hother) with hother | hother
          · exact hheld other (Scope.handles_fields scope hother)
          · exact hbeside.held other hother
        · rw [(hsame hexact).fields]
          exact (hbeside.same hexact).1.addBlock key _
    | directive d =>
      unfold runStatement
      exact repeats_runDirective hsound hframes d hspares.root hreads hbodies hsteady
    | _ => exact repeats_fail _ _

end Rerun

end Provision

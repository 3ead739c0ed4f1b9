import Provision.Proofs.Evaluation.Comparison

/-!
# Expressions that are evaluated again

An expression is evaluated a second time, when more resources are registered.  If
it came to a value, it comes to the same value again and reads the same
resources, as long as no name leads to a resource of the instance now that led
out of it before.  An expression without references also waits again if it had to
wait.
-/

namespace Provision

open Provision.Language (Node Entry)

/-! ## Recordings -/

namespace Recording

variable {α β : Type}

/-- What the outcome of a recording says about that of another.  A value, which has the property,
comes again; `faithful` says that waiting comes again, too.  When the two start from the same
reads, they end with the same. -/
inductive Repeated (faithful : Prop) (p : α → Prop) (same : Prop) :
    Except Interrupt α × List Key → Except Interrupt α × List Key → Prop
  | ok {a : α} {after after' : List Key} (hvalue : p a) (hreads : same → after' = after) :
      Repeated faithful p same (.ok a, after) (.ok a, after')
  | fails {e : EvalError} {after : List Key} {result : Except Interrupt α × List Key} :
      Repeated faithful p same (.error (.failed e), after) result
  | waits {reasons : List Deferral} {after : List Key} {result : Except Interrupt α × List Key}
      (hagain : faithful → ∃ reasons' after', result = (.error (.deferred reasons'), after') ∧
        (same → after' = after)) :
      Repeated faithful p same (.error (.deferred reasons), after) result

/-- Whatever the first recording comes to, the second repeats it. -/
def Repeats (faithful : Prop) (p : α → Prop) (m m' : Recording α) : Prop :=
  ∀ reads reads', Repeated faithful p (reads' = reads) (m.run reads) (m'.run reads')

variable {faithful : Prop} {p : α → Prop} {q : β → Prop}

theorem repeats_pure {a : α} (h : p a) : Repeats faithful p (pure a) (pure a) :=
  fun _ _ => .ok h id

theorem repeats_failWith (e : EvalError) (m : Recording α) : Repeats faithful p (failWith e) m :=
  fun _ _ => .fails

theorem repeats_waiting (span span' : Span) (reason : DeferReason) :
    Repeats faithful p (throw (.waiting span reason)) (throw (.waiting span' reason)) :=
  fun _ _ => .waits fun _ => ⟨_, _, rfl, id⟩

/-- Nothing is said about waiting when it need not come again. -/
theorem repeats_waiting_of_not (h : ¬ faithful) (span : Span) (reason : DeferReason)
    (m : Recording α) :
    Repeats faithful p (throw (.waiting span reason)) m :=
  fun _ _ => .waits fun hfaithful => (h hfaithful).elim

theorem repeats_record (key : Key) : Repeats faithful (fun _ => True) (record key) (record key) := by
  intro reads reads'
  rw [run_record, run_record]
  exact .ok trivial fun hsame => by rw [hsame]

theorem repeats_settled {outcome outcome' : Except EvalError α}
    (h : ∀ a, outcome = .ok a → p a ∧ outcome' = .ok a) :
    Repeats faithful p (settled outcome) (settled outcome') := by
  cases outcome with
  | ok a =>
    obtain ⟨hvalue, rfl⟩ := h a rfl
    exact repeats_pure hvalue
  | error e => exact repeats_failWith e _

theorem Repeats.bind {m m' : Recording α} {f f' : α → Recording β} (hm : Repeats faithful p m m')
    (hf : ∀ a, p a → Repeats faithful q (f a) (f' a)) :
    Repeats faithful q (m >>= f) (m' >>= f') := by
  intro reads reads'
  have hfirst := hm reads reads'
  rw [run_bind, run_bind]
  generalize m.run reads = result at hfirst
  generalize m'.run reads' = result' at hfirst
  cases hfirst with
  | @ok a after after' hvalue hreads =>
    have hnext := hf a hvalue after after'
    dsimp only
    generalize (f a).run after = last at hnext ⊢
    generalize (f' a).run after' = last' at hnext ⊢
    cases hnext with
    | ok hb hlast => exact .ok hb fun hsame => hlast (hreads hsame)
    | fails => exact .fails
    | waits hagain =>
      refine .waits fun hfaithful => ?_
      obtain ⟨reasons, final, hresult, hlast⟩ := hagain hfaithful
      exact ⟨reasons, final, hresult, fun hsame => hlast (hreads hsame)⟩
  | fails => exact .fails
  | waits hagain =>
    refine .waits fun hfaithful => ?_
    obtain ⟨reasons, after', rfl, hreads⟩ := hagain hfaithful
    exact ⟨reasons, after', rfl, hreads⟩

theorem Repeats.mono {p' : α → Prop} {m m' : Recording α} (h : Repeats faithful p m m')
    (himp : ∀ reads a after, m.run reads = (.ok a, after) → p a → p' a) :
    Repeats faithful p' m m' := by
  intro reads reads'
  have hrepeated := h reads reads'
  generalize hrun : m.run reads = result at hrepeated ⊢
  generalize m'.run reads' = result' at hrepeated ⊢
  cases hrepeated with
  | ok hvalue hreads => exact .ok (himp _ _ _ hrun hvalue) hreads
  | fails => exact .fails
  | waits hagain => exact .waits hagain

end Recording

/-! ## Views -/

/-- The second inventory holds what the first holds. -/
structure Inventory.Kept (inventory larger : Inventory) : Prop where
  resource : ∀ key resource, inventory.resource? key = some resource →
    larger.resource? key = some resource
  registry : larger.registry = inventory.registry
  virtuals : larger.virtuals = inventory.virtuals

/-- The second inventory holds what the first holds, and an open name by which an instance reached a
resource outside still leads there. -/
structure Inventory.Within (Open : TypeName → String → Prop) (inventory larger : Inventory)
    (qualifier : Option String) : Prop extends inventory.Kept larger where
  outside : ∀ outer, qualifier = some outer → ∀ type name, Open type name →
    inventory.has ⟨type, name⟩ = true → larger.has ⟨type, qualify (some outer) name⟩ = true →
      inventory.has ⟨type, qualify (some outer) name⟩ = true

theorem Inventory.kept_refl (inventory : Inventory) : inventory.Kept inventory :=
  ⟨fun _ _ h => h, rfl, rfl⟩

theorem Inventory.Kept.trans {first second third : Inventory} (h : first.Kept second)
    (h' : second.Kept third) :
    first.Kept third :=
  ⟨fun key resource hresource => h'.resource key resource (h.resource key resource hresource),
    h'.registry.trans h.registry, h'.virtuals.trans h.virtuals⟩

theorem Inventory.within_refl (Open : TypeName → String → Prop) (inventory : Inventory)
    (qualifier : Option String) :
    Inventory.Within Open inventory inventory qualifier :=
  ⟨inventory.kept_refl, fun _ _ _ _ _ _ h => h⟩

theorem Inventory.Kept.has {inventory larger : Inventory} (h : inventory.Kept larger) {key : Key}
    (hkey : inventory.has key = true) :
    larger.has key = true := by
  obtain ⟨resource, hresource⟩ := Option.isSome_iff_exists.1 hkey
  unfold Inventory.has
  rw [h.resource key resource hresource]
  rfl

/-- The second view shows what the first shows, as far as free and open names are concerned. -/
structure View.Within (Free : String → Prop) (Open : TypeName → String → Prop)
    (view view' : View) : Prop where
  inventory : Inventory.Within Open view.inventory view'.inventory view.qualifier
  qualifier : view'.qualifier = view.qualifier
  find : ∀ name, Free name → view'.scope.find name = view.scope.find name

/-- A variable whose name is free, or no variable at all. -/
def Language.Node.Uses (Free : String → Prop) : Node → Prop
  | .var (head :: _) _ => Free head
  | _ => True

/-- A reference asks for one resource, by an open name. -/
def Asks (Open : TypeName → String → Prop) (view : View) : Node → Prop
  | .ref _ none _ _ => False
  | .ref type (some name) _ _ => ∀ reads text after,
    (do let value ← evaluate view name; nameOf view value).run reads = (.ok text, after) →
      Text.dropEnding? ['*'] text.toList = none ∧
        ∀ found, TypeName.ofText type = .ok found → Open found text
  | _ => True

theorem Asks.name {Open : TypeName → String → Prop} {view : View} {type : String} {name : Node}
    {path : List String} {span : Span} (h : Asks Open view (.ref type (some name) path span))
    {reads after : List Key} {text : String}
    (hrun : (do let value ← evaluate view name; nameOf view value).run reads = (.ok text, after)) :
    Text.dropEnding? ['*'] text.toList = none ∧
      ∀ found, TypeName.ofText type = .ok found → Open found text :=
  h reads text after hrun

/-! ## Expressions -/

section Repeating

open Recording

variable {Free : String → Prop} {Open : TypeName → String → Prop} {view view' : View}
variable {faithful : Prop}

theorem follow_repeats (hwithin : view.Within Free Open view') (hknown : view.Known) (span : Span)
    {value : Value} (hvalue : value.Known view.inventory) (path : List String) :
    Repeats faithful (Value.Known view.inventory) (follow view span value path)
      (follow view' span value path) := by
  induction path generalizing value with
  | nil => cases value <;> exact repeats_pure hvalue
  | cons segment rest ih =>
    cases value with
    | map entries => exact ih (hvalue.getD_get? segment)
    | list items => exact ih (hvalue.getD_item (position? segment))
    | resource key =>
      rw [follow, follow]
      refine (repeats_record key).bind fun _ _ => ?_
      have hkey := Value.known_resource.1 hvalue
      obtain ⟨resource, hresource⟩ := Option.isSome_iff_exists.1 hkey
      rw [hresource, hwithin.inventory.resource key resource hresource]
      dsimp only
      split
      · exact repeats_failWith _ _
      · apply ih
        cases hfield : resource.field? segment with
        | none => exact Value.known_null
        | some found => exact hknown.fields key resource segment found hresource hfield
    | _ => exact ih Value.known_null

theorem project_repeats (hwithin : view.Within Free Open view') (hknown : view.Known) (span : Span)
    (path : List String) {key : Key} (hkey : view.inventory.has key = true) :
    Repeats faithful (Value.Known view.inventory) (project view span path key)
      (project view' span path key) :=
  (repeats_record key).bind fun _ _ =>
    follow_repeats hwithin hknown span (Value.known_resource.2 hkey) path

theorem knownType_repeats (hwithin : view.Within Free Open view') (span : Span) (text : String) :
    Repeats faithful (fun type => TypeName.ofText text = .ok type) (knownType view span text)
      (knownType view' span text) := by
  have hvirtual (type : TypeName) : view'.inventory.virtual? type = view.inventory.virtual? type := by
    unfold Inventory.virtual?
    rw [hwithin.inventory.virtuals]
  unfold knownType
  refine Repeats.bind (p := fun type => typeAt span text = .ok type)
    (repeats_settled fun _ h => ⟨h, h⟩) fun type htype => ?_
  rw [hwithin.inventory.registry, hvirtual]
  split
  · exact repeats_pure (typeAt_eq_ok.1 htype)
  · exact repeats_failWith _ _

theorem nameOf_repeats (view view' : View) (value : Value) :
    Repeats faithful (fun _ => True) (nameOf view value) (nameOf view' value) := by
  cases value <;> first | exact repeats_pure trivial | exact repeats_failWith _ _

theorem operate_repeats (view view' : View) {inventory : Inventory} (op : Language.Operator)
    {left right : Value} (hleft : left.Known inventory) (hright : right.Known inventory) :
    Repeats faithful (Value.Known inventory) (operate view op left right)
      (operate view' op left right) := by
  unfold operate
  cases happly : op.apply? left right with
  | some value => exact repeats_pure (hleft.applied hright happly)
  | none => exact repeats_failWith _ _

/-- A name that led to a resource leads to the same one again. -/
theorem locate_repeats (hwithin : view.Within Free Open view') (hfaithful : ¬ faithful) (span : Span)
    {type : TypeName} {name : String} (hopen : Open type name) :
    Repeats faithful (fun key => view.inventory.has key = true) (locate view span type name)
      (locate view' span type name) := by
  unfold locate
  refine Repeats.bind (p := fun plain => keyAt span type name = .ok plain)
    (repeats_settled fun plain hplain => ⟨hplain, hplain⟩) fun plain hplain => ?_
  rw [hwithin.qualifier]
  cases hqualifier : view.qualifier with
  | none =>
    dsimp only
    split
    · next hhas =>
      rw [if_pos (hwithin.inventory.has hhas)]
      exact repeats_pure hhas
    · exact repeats_waiting_of_not hfaithful _ _ _
  | some outer =>
    dsimp only
    split
    · next hown =>
      rw [if_pos (hwithin.inventory.has hown)]
      exact repeats_pure hown
    · next hown =>
      split
      · next hhas =>
        obtain rfl : plain = ⟨type, name⟩ := eq_of_keyAt hplain
        have hhidden : ¬ view'.inventory.has ⟨type, qualify (some outer) name⟩ = true :=
          fun hnow => hown (hwithin.inventory.outside outer hqualifier type name hopen hhas hnow)
        rw [if_neg hhidden, if_pos (hwithin.inventory.has hhas)]
        exact repeats_pure hhas
      · exact repeats_waiting_of_not hfaithful _ _ _

theorem namedValue_repeats (hwithin : view.Within Free Open view') (hknown : view.Known)
    (hfaithful : ¬ faithful) (span : Span) {type : TypeName} {name : String} (path : List String)
    (hname : Text.dropEnding? ['*'] name.toList = none) (hopen : Open type name) :
    Repeats faithful (Value.Known view.inventory) (namedValue view span type name path)
      (namedValue view' span type name path) := by
  unfold namedValue
  rw [hname]
  exact (locate_repeats hwithin hfaithful span hopen).bind fun key hkey =>
    project_repeats hwithin hknown span path hkey

theorem variableValue_repeats (hwithin : view.Within Free Open view') (hknown : view.Known) (span : Span)
    {path : List String} (hfree : (Node.var path span).Uses Free) :
    Repeats faithful (Value.Known view.inventory) (variableValue view span path)
      (variableValue view' span path) := by
  cases path with
  | nil => exact repeats_pure Value.known_null
  | cons head rest =>
    rw [variableValue, variableValue, hwithin.find head hfree]
    cases hfind : view.scope.find head with
    | none => exact repeats_waiting _ _ _
    | some value => exact follow_repeats hwithin hknown span (hknown.scope head value hfind) rest

theorem evaluateAll_repeats {nodes : List Node}
    (h : ∀ node ∈ nodes, Repeats faithful (Value.Known view.inventory) (evaluate view node)
      (evaluate view' node)) :
    Repeats faithful (fun values => ∀ value ∈ values, value.Known view.inventory)
      (evaluateAll view nodes) (evaluateAll view' nodes) := by
  induction nodes with
  | nil => exact repeats_pure fun value hvalue => absurd hvalue List.not_mem_nil
  | cons node rest ih =>
    have hrest := ih fun other hother => h other (List.mem_cons_of_mem _ hother)
    rw [evaluateAll, evaluateAll]
    refine (h node List.mem_cons_self).bind fun value hvalue => hrest.bind fun values hvalues => ?_
    exact repeats_pure (List.forall_mem_cons.2 ⟨hvalue, hvalues⟩)

theorem evaluateEntries_repeats {entries : List Entry}
    (h : ∀ entry ∈ entries, Repeats faithful (Value.Known view.inventory)
      (evaluate view entry.value) (evaluate view' entry.value)) :
    Repeats faithful (fun pairs => ∀ pair ∈ pairs, pair.2.Known view.inventory)
      (evaluateEntries view entries) (evaluateEntries view' entries) := by
  induction entries with
  | nil => exact repeats_pure fun pair hpair => absurd hpair List.not_mem_nil
  | cons entry rest ih =>
    obtain ⟨key, node, place⟩ := entry
    have hrest := ih fun other hother => h other (List.mem_cons_of_mem _ hother)
    have hfirst : Repeats faithful (Value.Known view.inventory) (evaluate view node)
        (evaluate view' node) := h ⟨key, node, place⟩ List.mem_cons_self
    rw [evaluateEntries, evaluateEntries]
    refine hfirst.bind fun value hvalue => hrest.bind fun pairs hpairs => ?_
    exact repeats_pure (List.forall_mem_cons.2 ⟨hvalue, hpairs⟩)

/-- An expression that only uses free names comes to the same again when each of its references
asks for one resource by an open name.  Without references it also waits again. -/
theorem evaluate_repeats (hwithin : view.Within Free Open view') (hknown : view.Known) {node : Node}
    (hfree : node.Everywhere (Node.Uses Free)) (hone : node.Everywhere (Asks Open view))
    (hfaithful : faithful → node.Everywhere Node.NotReference) :
    Repeats faithful (Value.Known view.inventory) (evaluate view node) (evaluate view' node) := by
  induction node using Node.induction with
  | step node ih =>
    have ih : ∀ child ∈ node.children, Repeats faithful (Value.Known view.inventory)
        (evaluate view child) (evaluate view' child) := fun child hchild =>
      ih child hchild (hfree.child child hchild) (hone.child child hchild)
        fun h => (hfaithful h).child child hchild
    have hplain {value : Value} (h : value.handles = []) :
        Repeats faithful (Value.Known view.inventory) (pure value) (pure value) :=
      repeats_pure (Value.known_of_handles_eq_nil h)
    cases node with
    | interpolated parts =>
      rw [evaluate, evaluate]
      exact (evaluateAll_repeats ih).bind fun values _ => hplain rfl
    | list items =>
      rw [evaluate, evaluate]
      exact (evaluateAll_repeats ih).bind fun values hvalues =>
        repeats_pure (Value.known_list.2 hvalues)
    | map entries =>
      rw [evaluate, evaluate]
      refine (evaluateEntries_repeats fun entry hentry =>
        ih _ (List.mem_map_of_mem hentry)).bind fun pairs hpairs => repeats_pure ?_
      exact Value.known_map.2 fun entry hentry => hpairs entry (Table.mem_ofPairs hentry)
    | var path place =>
      rw [evaluate, evaluate]
      exact variableValue_repeats hwithin hknown place hfree.root
    | ref type name path place =>
      cases name with
      | none => exact hone.root.elim
      | some name =>
        rw [evaluate, evaluate]
        refine (knownType_repeats hwithin place type).bind fun type' htype => ?_
        -- the name is read first; what it may be follows from the whole reference
        have hread := (ih name List.mem_cons_self).bind fun value _ =>
          nameOf_repeats view view' value
        have hname := hread.mono fun reads text after hrun _ => hone.root.name hrun
        have hwhole := hname.bind fun text htext => namedValue_repeats hwithin hknown
          (fun h => (hfaithful h).root) place path htext.1 (htext.2 type' htype)
        rwa [bind_assoc, bind_assoc] at hwhole
    | binary op left right =>
      have hleft := ih left (by simp [Node.children])
      have hright := ih right (by simp [Node.children])
      rw [evaluate, evaluate]
      refine hleft.bind fun a ha => ?_
      split
      · exact hplain rfl
      · split
        · exact hplain rfl
        · refine hright.bind fun b hb => ?_
          split
          · exact hplain rfl
          · exact operate_repeats view view' op ha hb
    | pair entry => exact repeats_failWith _ _
    | resource type name body place => exact repeats_failWith _ _
    | block key body place => exact repeats_failWith _ _
    | directive d => exact repeats_failWith _ _
    | _ => exact hplain rfl

/-- References that ask for one resource by an open name when they are evaluated again do so the
first time, too. -/
theorem asks_of_within (hwithin : view.Within Free Open view') (hknown : view.Known) {node : Node}
    (hfree : node.Everywhere (Node.Uses Free)) (hone : node.Everywhere (Asks Open view')) :
    node.Everywhere (Asks Open view) := by
  induction node using Node.induction with
  | step node ih =>
    have hbelow : ∀ child ∈ node.children, child.Everywhere (Asks Open view) :=
      fun child hchild => ih child hchild (hfree.child child hchild) (hone.child child hchild)
    refine .intro ?_ hbelow
    cases node with
    | ref type name path place =>
      cases name with
      | none => exact hone.root
      | some name =>
        intro reads text after hrun
        have hname : Repeats False (Value.Known view.inventory) (evaluate view name)
            (evaluate view' name) :=
          evaluate_repeats hwithin hknown (hfree.child name List.mem_cons_self)
            (hbelow name List.mem_cons_self) False.elim
        have hrepeated := (hname.bind fun value _ => nameOf_repeats view view' value) reads reads
        generalize hrun' : (do
          let value ← evaluate view' name
          nameOf view' value : Recording String).run reads = result at hrepeated
        have hrun'' : (evaluate view name >>= fun value => nameOf view value).run reads =
          (.ok text, after) := hrun
        rw [hrun''] at hrepeated
        cases hrepeated with
        | ok hvalue hreads => exact hone.root.name hrun'
    | _ => trivial

end Repeating

end Provision

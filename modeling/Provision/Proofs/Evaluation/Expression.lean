import Provision.Proofs.Evaluation.Handles
import Provision.Proofs.Evaluation.Recording
import Provision.Proofs.Language.Tree

/-!
# Expressions under growing views

An expression that comes to a value, or fails, does the same under every view in
which more is known.  Two things could spoil this: a query for several resources,
whose answer grows with them, and a resource that occurs in a value without being
registered, which reads as null until it is.  Neither places nor the types that
are still undeclared have a part in it.
-/

namespace Provision

open Provision.Language (Node Entry bareOption bareNodes_eq_map bareEntries_eq_map)
open Recording

/-! ## Views -/

/-- Everything that the first view shows, the second shows, too. -/
structure View.Below (view view' : View) : Prop where
  find : ∀ name value, view.scope.find name = some value → view'.scope.find name = some value
  resource : ∀ key resource, view.inventory.resource? key = some resource →
    ∃ resource', view'.inventory.resource? key = some resource' ∧
      resource'.type = resource.type ∧ ∀ name, resource'.field? name = resource.field? name
  registry : view'.inventory.registry = view.inventory.registry
  virtuals : view.inventory.virtuals = [] ∧ view'.inventory.virtuals = []
  qualifier : view.qualifier = none ∧ view'.qualifier = none

/-- The values that a view shows hold registered resources only. -/
structure View.Known (view : View) : Prop where
  scope : ∀ name value, view.scope.find name = some value → value.Known view.inventory
  fields : ∀ key resource name value, view.inventory.resource? key = some resource →
    resource.field? name = some value → value.Known view.inventory

/-- A reference asks for one resource: it has a name, and the name does not end in `*`. -/
def NamesOne (view : View) : Node → Prop
  | .ref _ none _ _ => False
  | .ref _ (some name) _ _ => ∀ reads text after,
    (do let value ← evaluate view name; nameOf view value).run reads = (.ok text, after) →
      Text.dropEnding? ['*'] text.toList = none
  | _ => True

theorem View.Below.has {view view' : View} (h : view.Below view') {key : Key}
    (hkey : view.inventory.has key = true) :
    view'.inventory.has key = true := by
  obtain ⟨resource, hresource⟩ := Option.isSome_iff_exists.1 hkey
  obtain ⟨resource', hresource', -⟩ := h.resource key resource hresource
  unfold Inventory.has
  rw [hresource']
  rfl

theorem View.below_of_same {view view' : View}
    (hinventory : view'.inventory = view.inventory)
    (hscope : view'.scope = view.scope)
    (hvirtuals : view.inventory.virtuals = [])
    (hqualifier : view.qualifier = none ∧ view'.qualifier = none) :
    view.Below view' := by
  refine ⟨?_, ?_, ?_, ?_, hqualifier⟩
  · intro name value hfind
    rw [hscope]
    exact hfind
  · intro key resource hresource
    rw [hinventory]
    exact ⟨resource, hresource, rfl, fun _ => rfl⟩
  · rw [hinventory]
  · rw [hinventory]
    exact ⟨hvirtuals, hvirtuals⟩

/-! ## Reads are kept -/

theorem follow_grows (view : View) (span : Span) (value : Value) (path : List String) :
    (follow view span value path).Grows := by
  induction path generalizing value with
  | nil =>
    cases value <;> exact grows_pure _
  | cons segment rest ih =>
    cases value with
    | map entries => exact ih _
    | list items => exact ih _
    | resource key =>
      rw [follow]
      refine (grows_record key).bind fun _ => ?_
      split
      · exact grows_pure _
      · split
        · exact grows_throw _
        · exact ih _
    | _ => exact ih _

theorem project_grows (view : View) (span : Span) (path : List String) (key : Key) :
    (project view span path key).Grows :=
  (grows_record key).bind fun _ => follow_grows view span _ path

theorem locate_grows (view : View) (span : Span) (type : TypeName) (name : String) :
    (locate view span type name).Grows := by
  unfold locate
  refine (grows_settled _).bind fun plain => ?_
  split
  · split
    · exact grows_pure _
    · exact grows_throw _
  · dsimp only
    split
    · exact grows_pure _
    · split
      · exact grows_pure _
      · exact grows_throw _

theorem grows_mapM {α β : Type} {f : α → Recording β} (hf : ∀ a, (f a).Grows) (items : List α) :
    (items.mapM f).Grows := by
  induction items with
  | nil =>
    rw [List.mapM_nil]
    exact grows_pure _
  | cons item rest ih =>
    rw [List.mapM_cons]
    exact (hf item).bind fun _ => ih.bind fun _ => grows_pure _

theorem query_grows (view : View) (span : Span) (type : TypeName) (front : String)
    (path : List String) :
    (query view span type front path).Grows := by
  unfold query
  split
  · exact grows_throw _
  · exact (grows_mapM (project_grows view span path) _).bind fun _ => grows_pure _

theorem nameOf_grows (view : View) (value : Value) : (nameOf view value).Grows := by
  cases value <;> first | exact grows_pure _ | exact grows_throw _

theorem knownType_grows (view : View) (span : Span) (text : String) :
    (knownType view span text).Grows := by
  unfold knownType
  refine (grows_settled _).bind fun type => ?_
  split
  · exact grows_pure _
  · exact grows_throw _

theorem namedValue_grows (view : View) (span : Span) (type : TypeName) (name : String)
    (path : List String) :
    (namedValue view span type name path).Grows := by
  unfold namedValue
  split
  · exact query_grows _ _ _ _ _
  · exact (locate_grows _ _ _ _).bind fun key => project_grows _ _ _ key

theorem operate_grows (view : View) (op : Language.Operator) (left right : Value) :
    (operate view op left right).Grows := by
  unfold operate
  split
  · exact grows_pure _
  · exact grows_throw _

theorem evaluateAll_grows {view : View} {nodes : List Node}
    (h : ∀ node ∈ nodes, (evaluate view node).Grows) :
    (evaluateAll view nodes).Grows := by
  induction nodes with
  | nil => exact grows_pure _
  | cons node rest ih =>
    rw [evaluateAll]
    refine (h node List.mem_cons_self).bind fun _ => ?_
    exact (ih fun n hn => h n (List.mem_cons_of_mem _ hn)).bind fun _ => grows_pure _

theorem evaluateEntries_grows {view : View} {entries : List Entry}
    (h : ∀ entry ∈ entries, (evaluate view entry.value).Grows) :
    (evaluateEntries view entries).Grows := by
  induction entries with
  | nil => exact grows_pure _
  | cons entry rest ih =>
    obtain ⟨key, node, span⟩ := entry
    rw [evaluateEntries]
    refine Grows.bind (h _ List.mem_cons_self) fun _ => ?_
    exact (ih fun n hn => h n (List.mem_cons_of_mem _ hn)).bind fun _ => grows_pure _

theorem evaluate_grows (view : View) (node : Node) : (evaluate view node).Grows := by
  induction node using Node.induction with
  | step node ih =>
    cases node with
    | interpolated parts =>
      rw [evaluate]
      exact (evaluateAll_grows ih).bind fun _ => grows_pure _
    | list items =>
      rw [evaluate]
      exact (evaluateAll_grows ih).bind fun _ => grows_pure _
    | map entries =>
      rw [evaluate]
      refine (evaluateEntries_grows fun entry h => ih _ ?_).bind fun _ => grows_pure _
      exact List.mem_map_of_mem h
    | var path span =>
      rw [evaluate]
      cases path with
      | nil => exact grows_pure _
      | cons head rest =>
        rw [variableValue]
        split
        · exact grows_throw _
        · exact follow_grows _ _ _ _
    | ref type name path span =>
      cases name with
      | none =>
        rw [evaluate]
        exact (knownType_grows _ _ _).bind fun _ => query_grows _ _ _ _ _
      | some name =>
        rw [evaluate]
        refine (knownType_grows _ _ _).bind fun _ => ?_
        refine Grows.bind (ih name List.mem_cons_self) fun _ => ?_
        exact (nameOf_grows _ _).bind fun _ => namedValue_grows _ _ _ _ _
    | binary op left right =>
      rw [evaluate]
      refine Grows.bind (ih left (by simp [Node.children])) fun a => ?_
      split
      · exact grows_pure _
      · split
        · exact grows_pure _
        · refine Grows.bind (ih right (by simp [Node.children])) fun b => ?_
          split
          · exact grows_pure _
          · exact operate_grows _ _ _ _
    | _ => first | exact grows_pure _ | exact grows_throw _

/-! ## References -/

section Agreement

variable {view view' : View}

theorem typeAt_eq_ok {span : Span} {text : String} {type : TypeName} :
    typeAt span text = .ok type ↔ TypeName.ofText text = .ok type := by
  unfold typeAt
  cases TypeName.ofText text with
  | ok found => constructor <;> rintro ⟨⟩ <;> rfl
  | error cause => constructor <;> rintro ⟨⟩

theorem keyAt_ok_iff (span span' : Span) (type : TypeName) (name : String) (key : Key) :
    keyAt span type name = .ok key ↔ keyAt span' type name = .ok key := by
  unfold keyAt
  cases Key.make type name with
  | ok found => exact Iff.rfl
  | error cause =>
    constructor
    · intro h
      cases h
    · intro h
      cases h

theorem follow_agrees (hview : view.Below view') (hknown : view.Known) (span span' : Span)
    {value : Value} (hvalue : value.Known view.inventory) (path : List String) :
    Agrees (Value.Known view.inventory) (follow view span value path)
      (follow view' span' value path) := by
  induction path generalizing value with
  | nil => cases value <;> exact agrees_pure hvalue
  | cons segment rest ih =>
    cases value with
    | map entries => exact ih (hvalue.getD_get? segment)
    | list items => exact ih (hvalue.getD_item (position? segment))
    | resource key =>
      rw [follow, follow]
      refine (agrees_record key).bind (fun _ _ => ?_) fun _ => ?_
      · have hkey := Value.known_resource.1 hvalue
        obtain ⟨resource, hresource⟩ := Option.isSome_iff_exists.1 hkey
        obtain ⟨resource', hresource', htype, hfields⟩ := hview.resource key resource hresource
        rw [hresource, hresource']
        dsimp only
        rw [htype]
        split
        · exact agrees_failWith _ _
        · rw [hfields segment]
          apply ih
          cases hfield : resource.field? segment with
          | none => exact Value.known_null
          | some found => exact hknown.fields key resource segment found hresource hfield
      · split
        · exact grows_pure _
        · split
          · exact grows_throw _
          · exact follow_grows _ _ _ _
    | _ => exact ih Value.known_null

theorem project_agrees (hview : view.Below view') (hknown : view.Known) (span span' : Span)
    (path : List String) {key : Key} (hkey : view.inventory.has key = true) :
    Agrees (Value.Known view.inventory) (project view span path key)
      (project view' span' path key) :=
  (agrees_record key).bind
    (fun _ _ => follow_agrees hview hknown span span' (Value.known_resource.2 hkey) path)
    fun _ => follow_grows _ _ _ _

theorem locate_agrees (hview : view.Below view') (span span' : Span) (type : TypeName)
    (name : String) :
    Agrees (fun key => view.inventory.has key = true) (locate view span type name)
      (locate view' span' type name) := by
  unfold locate
  refine (agrees_settled (keyAt_ok_iff span span' type name)).bind (fun plain _ => ?_) fun plain => ?_
  · rw [hview.qualifier.1, hview.qualifier.2]
    dsimp only
    cases hhas : view.inventory.has plain with
    | true =>
      rw [hview.has hhas]
      exact agrees_pure hhas
    | false => exact agrees_waiting _ _ _
  · rw [hview.qualifier.2]
    dsimp only
    split
    · exact grows_pure _
    · exact grows_throw _

theorem knownType_agrees (hview : view.Below view') (span span' : Span) (text : String) :
    Agrees (fun _ => True) (knownType view span text) (knownType view' span' text) := by
  unfold knownType
  refine (agrees_settled fun _ => typeAt_eq_ok.trans typeAt_eq_ok.symm).bind (fun type _ => ?_) fun type => ?_
  · have hvirtual : (view'.inventory.virtual? type) = view.inventory.virtual? type := by
      unfold Inventory.virtual?
      rw [hview.virtuals.1, hview.virtuals.2]
    rw [hview.registry, hvirtual]
    split
    · exact agrees_pure trivial
    · exact agrees_failWith _ _
  · split
    · exact grows_pure _
    · exact grows_throw _

theorem namedValue_agrees (hview : view.Below view') (hknown : view.Known) (span span' : Span)
    (type : TypeName) {name : String} (path : List String)
    (hname : Text.dropEnding? ['*'] name.toList = none) :
    Agrees (Value.Known view.inventory) (namedValue view span type name path)
      (namedValue view' span' type name path) := by
  unfold namedValue
  rw [hname]
  exact (locate_agrees hview span span' type name).bind
    (fun key hkey => project_agrees hview hknown span span' path hkey)
    fun key => project_grows _ _ _ _

theorem nameOf_agrees (view view' : View) (value : Value) :
    Agrees (fun _ => True) (nameOf view value) (nameOf view' value) := by
  cases value <;> first | exact agrees_pure trivial | exact agrees_failWith _ _

theorem variableValue_agrees (hview : view.Below view') (hknown : view.Known) (span span' : Span)
    (path : List String) :
    Agrees (Value.Known view.inventory) (variableValue view span path)
      (variableValue view' span' path) := by
  cases path with
  | nil => exact agrees_pure Value.known_null
  | cons head rest =>
    rw [variableValue, variableValue]
    cases hfind : view.scope.find head with
    | none => exact agrees_waiting _ _ _
    | some value =>
      rw [hview.find head value hfind]
      exact follow_agrees hview hknown span span' (hknown.scope head value hfind) rest

theorem operate_agrees (view view' : View) {inventory : Inventory} (op : Language.Operator)
    {left right : Value}
    (hleft : left.Known inventory)
    (hright : right.Known inventory) :
    Agrees (Value.Known inventory) (operate view op left right) (operate view' op left right) := by
  unfold operate
  cases happly : op.apply? left right with
  | some value => exact agrees_pure (hleft.applied hright happly)
  | none => exact agrees_failWith _ _

/-! ## Expressions -/

theorem evaluateAll_agrees {nodes nodes' : List Node}
    (hbare : nodes.map Node.bare = nodes'.map Node.bare)
    (h : ∀ node ∈ nodes, ∀ node' : Node, node.bare = node'.bare →
      Agrees (Value.Known view.inventory) (evaluate view node) (evaluate view' node')) :
    Agrees (fun values => ∀ value ∈ values, value.Known view.inventory) (evaluateAll view nodes)
      (evaluateAll view' nodes') := by
  induction nodes generalizing nodes' with
  | nil =>
    obtain rfl := List.map_eq_nil_iff.1 hbare.symm
    exact agrees_pure fun value hvalue => nomatch hvalue
  | cons node rest ih =>
    obtain ⟨node', rest', rfl, hnode, hrest⟩ := List.map_eq_cons_iff.1 hbare.symm
    rw [evaluateAll, evaluateAll]
    refine Agrees.bind (h node List.mem_cons_self node' hnode.symm) (fun value hvalue => ?_)
      fun _ => ?_
    · refine Agrees.bind (ih hrest.symm fun n hn => h n (List.mem_cons_of_mem _ hn))
        (fun values hvalues => agrees_pure ?_) fun _ => grows_pure _
      exact List.forall_mem_cons.2 ⟨hvalue, hvalues⟩
    · exact (evaluateAll_grows fun n _ => evaluate_grows view' n).bind fun _ => grows_pure _

theorem evaluateEntries_agrees {entries entries' : List Entry}
    (hbare : entries.map Entry.bare = entries'.map Entry.bare)
    (h : ∀ entry ∈ entries, ∀ node' : Node, entry.value.bare = node'.bare →
      Agrees (Value.Known view.inventory) (evaluate view entry.value) (evaluate view' node')) :
    Agrees (fun pairs => ∀ pair ∈ pairs, pair.2.Known view.inventory)
      (evaluateEntries view entries) (evaluateEntries view' entries') := by
  induction entries generalizing entries' with
  | nil =>
    obtain rfl := List.map_eq_nil_iff.1 hbare.symm
    exact agrees_pure fun pair hpair => nomatch hpair
  | cons entry rest ih =>
    obtain ⟨entry', rest', rfl, hentry, hrest⟩ := List.map_eq_cons_iff.1 hbare.symm
    obtain ⟨key, node, span⟩ := entry
    obtain ⟨key', node', span'⟩ := entry'
    rw [Entry.bare_eq, Entry.bare_eq] at hentry
    obtain ⟨rfl, hnode⟩ : key' = key ∧ node'.bare = node.bare := by
      injection hentry with hkey hvalue
      exact ⟨hkey, hvalue⟩
    rw [evaluateEntries, evaluateEntries]
    refine Agrees.bind (h _ List.mem_cons_self node' hnode.symm) (fun value hvalue => ?_)
      fun _ => ?_
    · refine Agrees.bind (ih hrest.symm fun n hn => h n (List.mem_cons_of_mem _ hn))
        (fun pairs hpairs => agrees_pure ?_) fun _ => grows_pure _
      exact List.forall_mem_cons.2 ⟨hvalue, hpairs⟩
    · exact (evaluateEntries_grows fun n _ => evaluate_grows view' _).bind fun _ => grows_pure _

/-- An expression leads itself under every view in which more is known, when no reference in it
asks for several resources. -/
theorem evaluate_agrees (hview : view.Below view') (hknown : view.Known) {node node' : Node}
    (hbare : node.bare = node'.bare)
    (hone : node.Everywhere (NamesOne view)) :
    Agrees (Value.Known view.inventory) (evaluate view node) (evaluate view' node') := by
  induction node using Node.induction generalizing node' with
  | step node ih =>
    have ih : ∀ child ∈ node.children, ∀ child' : Node, child.bare = child'.bare →
        Agrees (Value.Known view.inventory) (evaluate view child) (evaluate view' child') :=
      fun child hchild child' h => ih child hchild h (hone.child child hchild)
    cases node with
    | null =>
      cases node' <;> first | exact agrees_pure Value.known_null | cases hbare
    | bool b =>
      cases node' with
      | bool b' =>
        cases hbare
        exact agrees_pure (Value.known_of_handles_eq_nil rfl)
      | _ => cases hbare
    | number x =>
      cases node' with
      | number x' =>
        cases hbare
        exact agrees_pure (Value.known_of_handles_eq_nil rfl)
      | _ => cases hbare
    | text s =>
      cases node' with
      | text s' =>
        cases hbare
        exact agrees_pure (Value.known_of_handles_eq_nil rfl)
      | _ => cases hbare
    | interpolated parts =>
      cases node' with
      | interpolated parts' =>
        rw [Node.bare, Node.bare, Node.interpolated.injEq, bareNodes_eq_map, bareNodes_eq_map] at hbare
        rw [evaluate, evaluate]
        refine Agrees.bind (evaluateAll_agrees hbare ih) (fun values _ => agrees_pure ?_)
          fun _ => grows_pure _
        exact Value.known_of_handles_eq_nil rfl
      | _ => cases hbare
    | list items =>
      cases node' with
      | list items' =>
        rw [Node.bare, Node.bare, Node.list.injEq, bareNodes_eq_map, bareNodes_eq_map] at hbare
        rw [evaluate, evaluate]
        exact Agrees.bind (evaluateAll_agrees hbare ih)
          (fun values hvalues => agrees_pure (Value.known_list.2 hvalues)) fun _ => grows_pure _
      | _ => cases hbare
    | map entries =>
      cases node' with
      | map entries' =>
        rw [Node.bare, Node.bare, Node.map.injEq, bareEntries_eq_map, bareEntries_eq_map] at hbare
        rw [evaluate, evaluate]
        refine Agrees.bind (evaluateEntries_agrees hbare fun entry h => ih _ (List.mem_map_of_mem h))
          (fun pairs hpairs => agrees_pure ?_) fun _ => grows_pure _
        exact Value.known_map.2 fun entry hentry => hpairs entry (Table.mem_ofPairs hentry)
      | _ => cases hbare
    | var path span =>
      cases node' with
      | var path' span' =>
        obtain rfl : path = path' := by
          injection hbare
        rw [evaluate, evaluate]
        exact variableValue_agrees hview hknown span span' path
      | _ => cases hbare
    | ref type name path span =>
      cases node' with
      | ref type' name' path' span' =>
        obtain ⟨rfl, hname, rfl⟩ : type = type' ∧ bareOption name = bareOption name' ∧
            path = path' := by
          injection hbare with htype hname hpath
          exact ⟨htype, hname, hpath⟩
        cases name with
        | none => exact hone.root.elim
        | some name =>
          cases name' with
          | none => cases hname
          | some name' =>
            have hname : name.bare = name'.bare := Option.some.inj hname
            rw [evaluate, evaluate]
            refine (knownType_agrees hview span span' type).bind (fun type _ => ?_) fun type => ?_
            · -- the name is read first; what it may be follows from the whole reference
              have hread := Agrees.bind (ih name List.mem_cons_self name' hname)
                (fun value _ => nameOf_agrees view view' value) (fun value => nameOf_grows view' value)
              have hstar := hread.mono fun reads text after hrun _ => hone.root reads text after hrun
              have hwhole := hstar.bind
                (fun text htext => namedValue_agrees hview hknown span span' type path htext)
                fun text => namedValue_grows _ _ _ _ _
              rw [bind_assoc, bind_assoc] at hwhole
              exact hwhole
            · refine (evaluate_grows view' name').bind fun _ => ?_
              exact (nameOf_grows _ _).bind fun _ => namedValue_grows _ _ _ _ _
      | _ => cases hbare
    | binary op left right =>
      cases node' with
      | binary op' left' right' =>
        obtain ⟨rfl, hleft, hright⟩ : op = op' ∧ left.bare = left'.bare ∧ right.bare = right'.bare := by
          injection hbare with hop hleft hright
          exact ⟨hop, hleft, hright⟩
        rw [evaluate, evaluate]
        refine Agrees.bind (ih left (by simp [Node.children]) left' hleft) (fun a ha => ?_) fun a => ?_
        · split
          · exact agrees_pure (Value.known_of_handles_eq_nil rfl)
          · split
            · exact agrees_pure (Value.known_of_handles_eq_nil rfl)
            · refine Agrees.bind (ih right (by simp [Node.children]) right' hright)
                (fun b hb => ?_) fun b => ?_
              · split
                · exact agrees_pure (Value.known_of_handles_eq_nil rfl)
                · exact operate_agrees view view' op ha hb
              · split
                · exact grows_pure _
                · exact operate_grows _ _ _ _
        · split
          · exact grows_pure _
          · split
            · exact grows_pure _
            · refine (evaluate_grows view' right').bind fun b => ?_
              split
              · exact grows_pure _
              · exact operate_grows _ _ _ _
      | _ => cases hbare
    | pair entry =>
      cases node' <;> first | exact agrees_failWith _ _ | cases hbare
    | resource type name body span =>
      cases node' <;> first | exact agrees_failWith _ _ | cases hbare
    | block key body span =>
      cases node' <;> first | exact agrees_failWith _ _ | cases hbare
    | directive d =>
      cases node' <;> first | exact agrees_failWith _ _ | cases hbare

end Agreement

end Provision

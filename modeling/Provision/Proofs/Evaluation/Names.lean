import Provision.Proofs.Evaluation.Pairs
import Provision.Proofs.Evaluation.Repeating

/-!
# The names that an expression uses

Of the scope an expression takes the values of the names that it uses, and nothing
else.  Under a scope that is cut down to these names it does the same, and so it is
led on by every view that shows at least their values, whatever the two views make
of other names.
-/

namespace Provision

open Provision.Language (Node Entry)
open Recording

variable {Free : String → Prop}

/-! ## Scopes cut down to some names -/

section Only

variable [DecidablePred Free]

/-- The bindings of some names. -/
def bindingsOnly (Free : String → Prop) [DecidablePred Free] (level : Bindings) : Bindings :=
  level.filter fun entry => Free entry.1

/-- The scope in which only some names are bound. -/
def Scope.only (Free : String → Prop) [DecidablePred Free] (scope : Scope) : Scope :=
  ⟨bindingsOnly Free scope.values, scope.blocks, scope.enclosing.map (bindingsOnly Free)⟩

/-- The view that shows only some names. -/
def View.only (Free : String → Prop) [DecidablePred Free] (view : View) : View :=
  { view with scope := view.scope.only Free }

theorem get?_bindingsOnly (level : Bindings) (name : String) :
    Table.get? (bindingsOnly Free level) name = if Free name then level.get? name else none := by
  induction level with
  | nil => exact (ite_self none).symm
  | cons entry rest ih =>
    obtain ⟨key, value⟩ := entry
    by_cases hkey : Free key
    · have hcut : bindingsOnly Free ((key, value) :: rest) =
          (key, value) :: bindingsOnly Free rest := List.filter_cons_of_pos (decide_eq_true hkey)
      rw [hcut, Table.get?, Table.get?, ih]
      by_cases hname : key = name
      · rw [if_pos hname, if_pos hname, if_pos (hname ▸ hkey)]
      · rw [if_neg hname, if_neg hname]
    · have hcut : bindingsOnly Free ((key, value) :: rest) = bindingsOnly Free rest :=
        List.filter_cons_of_neg fun hfree => hkey (of_decide_eq_true hfree)
      rw [hcut, ih, Table.get?]
      by_cases hname : key = name
      · rw [if_neg (hname ▸ hkey), if_neg (hname ▸ hkey)]
      · rw [if_neg hname]

theorem findIn_map_only (levels : List Bindings) (name : String) :
    Scope.findIn (levels.map (bindingsOnly Free)) name =
      if Free name then Scope.findIn levels name else none := by
  induction levels with
  | nil => exact (ite_self none).symm
  | cons level rest ih =>
    rw [List.map_cons, Scope.findIn, Scope.findIn, get?_bindingsOnly, ih]
    by_cases hname : Free name
    · simp only [if_pos hname]
    · simp only [if_neg hname]

theorem Scope.find_only (scope : Scope) (name : String) :
    (scope.only Free).find name = if Free name then scope.find name else none :=
  findIn_map_only (scope.values :: scope.enclosing) name

theorem View.Known.only {view : View} (h : view.Known) : (view.only Free).Known := by
  refine ⟨fun name value hfind => ?_, h.fields⟩
  have hfind : (view.scope.only Free).find name = some value := hfind
  rw [Scope.find_only] at hfind
  by_cases hname : Free name
  · rw [if_pos hname] at hfind
    exact h.scope name value hfind
  · rw [if_neg hname] at hfind
    cases hfind

end Only

/-! ## Expressions under another scope -/

section Congruence

variable {view : View} {scope : Scope}

theorem follow_scope (view : View) (scope : Scope) (span : Span) (value : Value)
    (path : List String) :
    follow { view with scope := scope } span value path = follow view span value path := by
  induction path generalizing value with
  | nil => cases value <;> rfl
  | cons segment rest ih =>
    cases value with
    | resource key =>
      rw [follow, follow]
      simp only [ih]
    | _ => exact ih _

theorem query_scope (view : View) (scope : Scope) (span : Span) (type : TypeName)
    (front : String) (path : List String) :
    query { view with scope := scope } span type front path = query view span type front path := by
  have hproject : project { view with scope := scope } span path = project view span path := by
    funext key
    unfold project
    rw [follow_scope]
  unfold query
  rw [hproject]

theorem namedValue_scope (view : View) (scope : Scope) (span : Span) (type : TypeName)
    (name : String) (path : List String) :
    namedValue { view with scope := scope } span type name path =
      namedValue view span type name path := by
  have hlocate : locate { view with scope := scope } span type name =
      locate view span type name := rfl
  unfold namedValue project
  simp only [query_scope, follow_scope, hlocate]

theorem nameOf_scope (view : View) (scope : Scope) (value : Value) :
    nameOf { view with scope := scope } value = nameOf view value := by
  cases value <;> rfl

theorem evaluateAll_congr {view' : View} {nodes : List Node}
    (h : ∀ node ∈ nodes, evaluate view' node = evaluate view node) :
    evaluateAll view' nodes = evaluateAll view nodes := by
  induction nodes with
  | nil => rfl
  | cons node rest ih =>
    rw [evaluateAll, evaluateAll, h node List.mem_cons_self,
      ih fun other hother => h other (List.mem_cons_of_mem _ hother)]

theorem evaluateEntries_congr {view' : View} {entries : List Entry}
    (h : ∀ entry ∈ entries, evaluate view' entry.value = evaluate view entry.value) :
    evaluateEntries view' entries = evaluateEntries view entries := by
  induction entries with
  | nil => rfl
  | cons entry rest ih =>
    obtain ⟨key, node, span⟩ := entry
    have hfirst : evaluate view' node = evaluate view node := h _ List.mem_cons_self
    rw [evaluateEntries, evaluateEntries, hfirst,
      ih fun other hother => h other (List.mem_cons_of_mem _ hother)]

/-- A scope that gives the same values to the names that an expression uses is as good. -/
theorem evaluate_scope (hfind : ∀ name, Free name → scope.find name = view.scope.find name)
    {node : Node} (hfree : node.Everywhere (Node.Uses Free)) :
    evaluate { view with scope := scope } node = evaluate view node := by
  induction node using Node.induction with
  | step node ih =>
    have ih : ∀ child ∈ node.children,
        evaluate { view with scope := scope } child = evaluate view child :=
      fun child hchild => ih child hchild (hfree.child child hchild)
    cases node with
    | interpolated parts =>
      have hparts : evaluateAll { view with scope := scope } parts = evaluateAll view parts :=
        evaluateAll_congr ih
      rw [evaluate, evaluate, hparts]
    | list items =>
      have hitems : evaluateAll { view with scope := scope } items = evaluateAll view items :=
        evaluateAll_congr ih
      rw [evaluate, evaluate, hitems]
    | map entries =>
      have hentries := evaluateEntries_congr fun entry (hentry : entry ∈ entries) =>
        ih entry.value (List.mem_map_of_mem hentry)
      rw [evaluate, evaluate, hentries]
    | var path span =>
      cases path with
      | nil => rfl
      | cons head rest =>
        rw [evaluate, evaluate, variableValue, variableValue, hfind head hfree.root]
        simp only [follow_scope]
    | ref type name path span =>
      have hknown : ∀ text, knownType { view with scope := scope } span text =
          knownType view span text := fun _ => rfl
      cases name with
      | none =>
        rw [evaluate, evaluate]
        simp only [query_scope, hknown]
      | some name =>
        rw [evaluate, evaluate, ih name List.mem_cons_self]
        simp only [nameOf_scope, namedValue_scope, hknown]
    | binary op left right =>
      have hoperate : ∀ a b, operate { view with scope := scope } op a b = operate view op a b :=
        fun _ _ => rfl
      rw [evaluate, evaluate, ih left (by simp [Node.children]),
        ih right (by simp [Node.children])]
      simp only [hoperate]
    | _ => rfl

theorem evaluate_only [DecidablePred Free] (view : View) {node : Node}
    (hfree : node.Everywhere (Node.Uses Free)) :
    evaluate (view.only Free) node = evaluate view node :=
  evaluate_scope (fun name hname => by rw [Scope.find_only, if_pos hname]) hfree

/-- Cut down to the names that it uses, the scope does not change what an expression asks for. -/
theorem namesOne_only [DecidablePred Free] {node : Node}
    (hone : node.Everywhere (NamesOne view)) (hfree : node.Everywhere (Node.Uses Free)) :
    node.Everywhere (NamesOne (view.only Free)) := by
  induction node using Node.induction with
  | step node ih =>
    refine .intro ?_ fun child hchild =>
      ih child hchild (hone.child child hchild) (hfree.child child hchild)
    cases node with
    | ref type name path span =>
      cases name with
      | none => exact hone.root
      | some name =>
        intro reads text after hrun
        rw [evaluate_only view (hfree.child name List.mem_cons_self)] at hrun
        have hname : nameOf (view.only Free) = nameOf view :=
          funext fun value => nameOf_scope view _ value
        exact hone.root reads text after (hname ▸ hrun)
    | _ => exact trivial

/-- An expression is led on by every view that shows the values of the names that it uses. -/
theorem evaluate_agrees_only [DecidablePred Free] {view' : View}
    (hview : (view.only Free).Below view') (hknown : view.Known) {node node' : Node}
    (hbare : node.bare = node'.bare) (hone : node.Everywhere (NamesOne view))
    (hfree : node.Everywhere (Node.Uses Free)) :
    Agrees (Value.Known view.inventory) (evaluate view node) (evaluate view' node') :=
  evaluate_only view hfree ▸
    evaluate_agrees hview hknown.only hbare (namesOne_only hone hfree)

end Congruence

end Provision

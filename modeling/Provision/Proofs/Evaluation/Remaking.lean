import Provision.Proofs.Evaluation.Again
import Provision.Proofs.Evaluation.Body
import Provision.Proofs.Evaluation.Founded

/-!
# Resources that are made again

A resource keeps its declaration, so that the body can be evaluated once more
before a change runs.  By then the inventory holds more than when the resource was
declared: the resource itself, and all that was declared after it.  The body comes
to the same all the same, when it leaves the names alone that its references use
and when no resource of the instance hides one outside that a reference asks for.
-/

namespace Provision

open Provision.Language (Node)

/-! ## Scopes that are written down -/

theorem Table.get?_setAll {κ ν : Type} [DecidableEq κ] {pairs : Table κ ν} (h : pairs.Distinct)
    (table : Table κ ν) (key : κ) :
    (table.setAll pairs).get? key = (pairs.get? key).or (table.get? key) := by
  induction pairs generalizing table with
  | nil => rfl
  | cons pair rest ih =>
    obtain ⟨first, value⟩ := pair
    obtain ⟨hfirst, hrest⟩ := List.nodup_cons.1 h
    have hlater : (Table.setAll table ((first, value) :: rest)).get? key =
        (Table.get? rest key).or ((table.set first value).get? key) := ih hrest _
    rw [hlater, Table.get?_set, Table.get?]
    by_cases hkey : first = key
    · subst hkey
      have hnone : Table.get? rest first = none :=
        Option.not_isSome_iff_eq_none.1 fun hsome => hfirst (Table.mem_keys_iff.2 hsome)
      rw [hnone, if_pos rfl, if_pos rfl]
      rfl
    · rw [if_neg hkey, if_neg hkey]

namespace Scope

variable {scope : Scope}

theorem get?_flattenLevels {levels : List Bindings} (h : ∀ level ∈ levels, Table.Distinct level)
    (name : String) :
    Table.get? (flattenLevels levels) name = findIn levels name := by
  induction levels with
  | nil => rfl
  | cons level rest ih =>
    have hrest := ih fun other hother => h other (List.mem_cons_of_mem _ hother)
    rw [flattenLevels, Table.get?_setAll (h level List.mem_cons_self), hrest, findIn]
    cases Table.get? level name <;> rfl

/-- What was visible is bound in the scope that is written down. -/
theorem Neat.find_flatten (h : scope.Neat) (name : String) :
    (withValues scope.flatten).find name = scope.find name := by
  have hget : Table.get? scope.flatten name = scope.find name := get?_flattenLevels h name
  unfold Scope.find withValues
  rw [findIn, hget]
  unfold Scope.find
  cases findIn (scope.values :: scope.enclosing) name <;> rfl

/-- A body starts from the same names in both. -/
theorem Neat.same_child (h : scope.Neat) : scope.child.Same (withValues scope.flatten).child :=
  ⟨rfl, rfl, h.find_flatten⟩

end Scope

/-! ## Bodies -/

/-- The statements of a resource body in the order in which they are tried. -/
def bodyOrder (source : List Node) : List Node :=
  (source.filter fun node => !isDirective node) ++ source.filter isDirective

theorem mem_bodyOrder {source : List Node} {node : Node} : node ∈ bodyOrder source ↔ node ∈ source := by
  unfold bodyOrder
  cases hdirective : isDirective node <;> simp [hdirective]

/-- A resource body tries its statements in their order. -/
theorem resourceBody_runMarked (e : Evaluator) (frame inner : Frame) (source : List Node)
    (base : Progress) :
    (resourceBody frame (runMarked e source inner)).run base =
      match (Step.body ((bodyOrder source).map fun node => runStatement e node inner)).run
        base.entered with
      | (.ok (), p) =>
        (.ok ⟨p.scope.fields, p.credentials, Sorted.union p.reads frame.inherited⟩, p.left base)
      | (.error i, p) => (.error i, p.left base) := by
  rw [resourceBody_run, runMarked_eq_map, List.filter_map, List.filter_map, List.map_map,
    List.map_map, bodyOrder, List.map_append]
  rfl

namespace Rerun

variable {r : Rerun}

/-- A body comes to the same in both runs when its steps are steady. -/
theorem resourceBody_again {e e' : Evaluator} {outer inner inner' : Frame} (outer' : Frame)
    (hinherited : outer'.inherited = outer.inherited) {source : List Node} {p q after : Progress}
    {body : EvaluatedBody}
    (hsteady : ∀ node ∈ source, r.Steady False True (runStatement e node inner)
      (runStatement e' node inner'))
    (hbeside : r.Beside True p.entered q.entered)
    (hrun : (resourceBody outer (runMarked e source inner)).run p = (.ok body, after)) :
    ∃ after', (resourceBody outer' (runMarked e' source inner')).run q = (.ok body, after') ∧
      after'.inventory = r.after := by
  have hrepeated := repeats_body (fun node hnode => hsteady node (mem_bodyOrder.1 hnode)) _ _ hbeside
  rw [resourceBody_runMarked] at hrun ⊢
  generalize (Step.body ((bodyOrder source).map fun node => runStatement e node inner)).run
    p.entered = result at hrepeated hrun
  generalize (Step.body ((bodyOrder source).map fun node => runStatement e' node inner')).run
    q.entered = result' at hrepeated ⊢
  cases hrepeated with
  | ok _ hafter =>
    cases hrun
    obtain ⟨hscope, hreads, hcredentials⟩ := hafter.same trivial
    dsimp only
    rw [hscope.fields, hreads, hcredentials, hinherited]
    exact ⟨_, rfl, hafter.after⟩
  | fails => cases hrun
  | waits _ _ => cases hrun

/-- A statement is steady when it refers to nothing, or when it uses free names only and its
references ask for one resource each, by open names. -/
theorem steady_statement (hsound : r.Sound) {e e' : Evaluator} {frame frame' : Frame}
    (hframes : r.Frames frame frame') {node : Node} (htypes : typesIn node = [])
    (hspares : node.Everywhere (Node.Spares r.Free))
    (hreads : node.Everywhere Node.NotReference ∨
      node.Everywhere (Node.Uses r.Free) ∧ node.Everywhere (Asks r.Open r.anchor)) :
    r.Steady False True (runStatement e node frame) (runStatement e' node frame') := by
  rcases hreads with hplain | ⟨hfree, hone⟩
  · exact Or.inl (repeats_statement hsound hframes htypes hspares (Or.inl ⟨trivial, hplain⟩))
  · have hfixed : ∀ {exact}, r.Fixed False exact node := Or.inr ⟨id, hfree, hone⟩
    refine Or.inr ⟨id, repeats_statement hsound hframes htypes hspares hfixed, firm_of_still ?_⟩
    exact repeats_statement hsound.still ⟨hframes.qualifier, hframes.qualifier, rfl⟩ htypes hspares
      hfixed

end Rerun

/-! ## Declarations -/

namespace Declaration

/-- What the body of a declaration is evaluated under. -/
def view (d : Declaration) (inventory : Inventory) : View where
  inventory := inventory
  scope := Scope.withValues d.bindings
  qualifier := d.qualifier
  undeclared := []
  location := .generated

/-- No statement of the body binds the name. -/
def Leaves (d : Declaration) (name : String) : Prop :=
  ∀ node ∈ d.body, node.Everywhere fun inner => ¬ inner.Binds name

/-- The name is not that of a resource outside and of one in the instance at once. -/
def Open (d : Declaration) (inventory : Inventory) (type : TypeName) (name : String) : Prop :=
  ∀ outer, d.qualifier = some outer → inventory.has ⟨type, name⟩ = true →
    inventory.has ⟨type, qualify (some outer) name⟩ = false

/-- The body can be evaluated again under the inventory: a statement with references only uses names
that the body leaves alone, and its references ask for one resource each, by open names. -/
def Repeatable (d : Declaration) (inventory : Inventory) : Prop :=
  ∀ node ∈ d.body, node.Everywhere Node.NotReference ∨
    node.Everywhere (Node.Uses d.Leaves) ∧
      node.Everywhere (Asks (d.Open inventory) (d.view inventory))

/-- How the declaration came to a resource: its body was evaluated under an inventory, in a scope
that the declaration has written down. -/
structure Comes (d : Declaration) (recorded : Option Inventory) (inventory : Inventory)
    (resource : Resource) : Prop where
  declares : resource.declaration = some d
  blockless : typesInAll d.body = []
  made : ∃ e frame p body q, frame.qualifier = d.qualifier ∧ frame.inherited = d.inherited ∧
    p.Known ∧ p.inventory = inventory ∧ p.scope.flatten = d.bindings ∧
    (resourceBody frame (runMarked e d.body { frame with inResource := true })).run p =
      (.ok body, q) ∧
    finishResource ⟨.configuration, recorded, []⟩ resource.key resource.type resource.origin body =
      .ok { resource with declaration := none }

variable {d : Declaration} {inventory earlier : Inventory} {resource : Resource}

theorem spares_leaves {node : Node} (h : node ∈ d.body) :
    node.Everywhere (Node.Spares d.Leaves) := by
  have hall : ∀ name, d.Leaves name → node.Everywhere fun inner => ¬ inner.Binds name :=
    fun name hname => hname node h
  clear h
  induction node using Node.induction with
  | step node ih =>
    refine .intro (fun name hname => (hall name hname).root) fun child hchild => ?_
    exact ih child hchild fun name hname => (hall name hname).child child hchild

/-- The evaluation of a declaration under an inventory and under one that holds more. -/
def rerun (d : Declaration) (earlier inventory : Inventory) : Rerun where
  before := earlier
  after := inventory
  anchor := d.view inventory
  Free := d.Leaves
  Open := d.Open inventory

theorem within_of_kept (d : Declaration) (hkept : earlier.Kept inventory) :
    Inventory.Within (d.Open inventory) earlier inventory d.qualifier := by
  refine ⟨hkept, fun outer houter type name hopen hhas hhidden => ?_⟩
  rw [hopen outer houter (hkept.has hhas)] at hhidden
  cases hhidden

theorem sound_of_kept (d : Declaration) (hkept : earlier.Kept inventory)
    (hfounded : earlier.Founded) :
    (d.rerun earlier inventory).Sound where
  within := d.within_of_kept hkept
  anchored := d.within_of_kept hkept
  fields key resource hresource other hother := by
    have hrests := hfounded.rests key resource hresource
    rcases hrests.fields other hother with rfl | hother
    · obtain ⟨-, hkey⟩ := hfounded.oneHome.keyed.key_of_resource? hresource
      exact (earlier.has_iff _).2 ⟨resource, hkey.symm ▸ hresource⟩
    · exact hrests.there other hother

/-- The body of a repeatable declaration comes to the same again. -/
theorem Comes.body_again {recorded : Option Inventory} (h : d.Comes recorded earlier resource)
    (hkept : earlier.Kept inventory) (hrepeatable : d.Repeatable inventory) (e : Evaluator)
    (file : Nat) :
    ∃ body after,
      (resourceBody ⟨file, d.qualifier, true, d.inherited, []⟩
        (runMarked e d.body ⟨file, d.qualifier, true, d.inherited, []⟩)).run
          ⟨inventory, [], Scope.withValues d.bindings, [], none⟩ = (.ok body, after) ∧
      after.inventory = inventory ∧
      finishResource ⟨.configuration, recorded, []⟩ resource.key resource.type resource.origin
        body = .ok { resource with declaration := none } := by
  obtain ⟨e', frame, p, body, q, hqualifier, hinherited, hknown, rfl, hbindings, hrun, hfinish⟩ :=
    h.made
  have hsound := d.sound_of_kept hkept hknown.founded
  have hfind : ∀ name, (Scope.withValues d.bindings).find name = p.scope.find name := by
    rw [← hbindings]
    exact hknown.neat.find_flatten
  have hsteady : ∀ node ∈ d.body, (d.rerun p.inventory inventory).Steady False True
      (runStatement e' node { frame with inResource := true })
      (runStatement e node ⟨file, d.qualifier, true, d.inherited, []⟩) := by
    intro node hnode
    refine Rerun.steady_statement hsound ?_ (typesInAll_eq_nil.1 h.blockless node hnode)
      (spares_leaves hnode) (hrepeatable node hnode)
    exact ⟨hqualifier, rfl, rfl⟩
  have hbeside : (d.rerun p.inventory inventory).Beside True p.entered
      (Progress.entered ⟨inventory, [], Scope.withValues d.bindings, [], none⟩) := by
    refine ⟨⟨rfl, fun key hkey => ?_, fun name _ => (hfind name).symm⟩, rfl, fun _ _ => rfl,
      fun _ => ⟨?_, rfl, rfl⟩⟩
    · exact hknown.scope key (Scope.handles_child p.scope hkey)
    · show p.scope.child.Same (Scope.withValues d.bindings).child
      rw [← hbindings]
      exact hknown.neat.same_child
  obtain ⟨after, hagain, hinventory⟩ :=
    Rerun.resourceBody_again ⟨file, d.qualifier, true, d.inherited, []⟩ hinherited.symm hsteady
      hbeside hrun
  exact ⟨body, after, hagain, hinventory, hfinish⟩

/-! ## Entries that are read off -/

/-- What an entry reads, when that can be told without evaluating it: nothing if its value is a text,
or the resource with the type and the name that are written there. -/
def entryRead? : Node → Option (Option (String × String))
  | .pair ⟨_, .text _, _⟩ => some none
  | .pair ⟨_, .ref type (some (.text name)) _ _, _⟩ => some (some (type, name))
  | _ => none

theorem notReference_of_entryRead? {node : Node} (h : entryRead? node = some none) :
    node.Everywhere Node.NotReference := by
  unfold entryRead? at h
  split at h
  · refine .intro trivial fun child hchild => ?_
    obtain rfl := List.mem_singleton.1 hchild
    exact .leaf trivial rfl
  · cases h
  · cases h

theorem asks_of_entryRead? {Free : String → Prop} {Open : TypeName → String → Prop} {view : View}
    {node : Node} {type name : String} (h : entryRead? node = some (some (type, name)))
    (hone : Text.dropEnding? ['*'] name.toList = none)
    (hopen : ∀ found, TypeName.ofText type = .ok found → Open found name) :
    node.Everywhere (Node.Uses Free) ∧ node.Everywhere (Asks Open view) := by
  unfold entryRead? at h
  split at h
  · cases h
  · cases h
    refine ⟨.intro trivial fun child hchild => ?_, .intro trivial fun child hchild => ?_⟩
    · obtain rfl := List.mem_singleton.1 hchild
      refine .intro trivial fun child hchild => ?_
      obtain rfl := List.mem_singleton.1 hchild
      exact .leaf trivial rfl
    · obtain rfl := List.mem_singleton.1 hchild
      refine .intro ?_ fun child hchild => ?_
      · rintro reads text after ⟨⟩
        exact ⟨hone, hopen⟩
      · obtain rfl := List.mem_singleton.1 hchild
        exact .leaf trivial rfl
  · cases h

/-- A declaration can be evaluated again when each of its entries reads nothing, or one resource by a
name that no resource of its instance hides. -/
theorem repeatable_of_entries
    (h : ∀ node ∈ d.body, ∃ read, entryRead? node = some read ∧ ∀ type name, read = some (type, name) →
      Text.dropEnding? ['*'] name.toList = none ∧
        ∀ found, TypeName.ofText type = .ok found → d.Open inventory found name) :
    d.Repeatable inventory := by
  intro node hnode
  obtain ⟨read, hread, hnamed⟩ := h node hnode
  cases read with
  | none => exact Or.inl (notReference_of_entryRead? hread)
  | some found =>
    obtain ⟨hone, hopen⟩ := hnamed found.1 found.2 rfl
    exact Or.inr (asks_of_entryRead? hread hone hopen)

end Declaration

end Provision

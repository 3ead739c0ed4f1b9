import Mathlib.Data.List.Nodup
import Provision.Proofs.Evaluation.Handles

/-!
# Inventories and what they hold

Inserting a resource puts it into one file and takes it out of all others, so a
look-up afterwards finds it or what was there before.  An inventory that is only
ever changed in this way keeps every resource under its own key, in one file.
-/

namespace Provision.Inventory

/-- Every file holds a key at most once. -/
def Distinct (inventory : Inventory) : Prop :=
  ∀ file ∈ inventory.files, Table.Distinct file.resources

theorem findSome?_mapIdx {files : List FileScope} {key : Key} {change : Nat → FileScope → FileScope}
    (h : ∀ position, ∀ file ∈ files, (change position file).resource? key = file.resource? key) :
    (files.mapIdx change).findSome? (fun file => file.resource? key) =
      files.findSome? fun file => file.resource? key := by
  induction files generalizing change with
  | nil => rfl
  | cons file rest ih =>
    rw [List.mapIdx_cons, List.findSome?_cons, List.findSome?_cons, h 0 file List.mem_cons_self]
    rw [ih fun position other hother => h (position + 1) other (List.mem_cons_of_mem _ hother)]

theorem findSome?_mapIdx_of_index {files : List FileScope} {key : Key} {resource : Resource}
    {index : Nat} {change : Nat → FileScope → FileScope}
    (hindex : index < files.length)
    (hhere : ∀ file, (change index file).resource? key = some resource)
    (hothers : ∀ position, position ≠ index → ∀ file ∈ files,
      (change position file).resource? key = none) :
    (files.mapIdx change).findSome? (fun file => file.resource? key) = some resource := by
  induction files generalizing change index with
  | nil => exact absurd hindex (Nat.not_lt_zero _)
  | cons file rest ih =>
    rw [List.mapIdx_cons, List.findSome?_cons]
    cases index with
    | zero => rw [hhere file]
    | succ index =>
      rw [hothers 0 (by omega) file List.mem_cons_self]
      apply ih (Nat.lt_of_succ_lt_succ hindex) hhere
      intro position hposition other hother
      exact hothers (position + 1) (by omega) other (List.mem_cons_of_mem _ hother)

/-- An insertion changes no look-up of another key. -/
theorem resource?_insertAt_of_ne {inventory : Inventory} (h : inventory.Distinct) (index : Nat)
    {resource : Resource} {key : Key} (hkey : resource.key ≠ key) :
    (inventory.insertAt index resource).resource? key = inventory.resource? key := by
  unfold insertAt resource?
  apply findSome?_mapIdx
  intro position file hfile
  by_cases hposition : position = index
  · rw [if_pos hposition]
    unfold FileScope.insert FileScope.resource?
    rw [Table.get?_set, if_neg hkey]
  · rw [if_neg hposition]
    unfold FileScope.remove FileScope.resource?
    rw [Table.get?_erase (h file hfile), if_neg hkey]

/-- After an insertion a look-up finds the new resource under its key and the old ones elsewhere. -/
theorem resource?_insertAt {inventory : Inventory} (h : inventory.Distinct) {index : Nat}
    (hindex : index < inventory.files.length) (resource : Resource) (key : Key) :
    (inventory.insertAt index resource).resource? key =
      if resource.key = key then some resource else inventory.resource? key := by
  by_cases hkey : resource.key = key
  · subst hkey
    rw [if_pos rfl]
    unfold insertAt resource?
    apply findSome?_mapIdx_of_index hindex
    · intro file
      rw [if_pos rfl]
      exact Table.get?_set_self _ _ _
    · intro position hposition file hfile
      rw [if_neg hposition]
      unfold FileScope.remove FileScope.resource?
      rw [Table.get?_erase (h file hfile), if_pos rfl]
  · rw [if_neg hkey]
    exact resource?_insertAt_of_ne h index hkey

theorem length_insertAt (inventory : Inventory) (index : Nat) (resource : Resource) :
    (inventory.insertAt index resource).files.length = inventory.files.length :=
  List.length_mapIdx

theorem paths_insertAt (inventory : Inventory) (index : Nat) (resource : Resource) :
    (inventory.insertAt index resource).files.map FileScope.path =
      inventory.files.map FileScope.path := by
  apply List.ext_getElem
  · simp [insertAt]
  · intro position _ _
    simp only [insertAt, List.getElem_map, List.getElem_mapIdx]
    by_cases hindex : position = index
    · rw [if_pos hindex]
      rfl
    · rw [if_neg hindex]
      rfl

theorem distinct_insertAt {inventory : Inventory} (h : inventory.Distinct) (index : Nat)
    (resource : Resource) :
    (inventory.insertAt index resource).Distinct := by
  intro file hfile
  obtain ⟨position, hposition, rfl⟩ := List.mem_mapIdx.1 hfile
  have hold := h inventory.files[position] (List.getElem_mem hposition)
  by_cases hindex : position = index
  · rw [if_pos hindex]
    exact Table.distinct_set hold _ _
  · rw [if_neg hindex]
    exact Table.distinct_erase hold _

theorem has_insertAt {inventory : Inventory} (h : inventory.Distinct) {index : Nat}
    (hindex : index < inventory.files.length) (resource : Resource) (key : Key) :
    (inventory.insertAt index resource).has key = true ↔
      key = resource.key ∨ inventory.has key = true := by
  unfold has
  rw [resource?_insertAt h hindex]
  by_cases hkey : resource.key = key
  · rw [if_pos hkey]
    exact ⟨fun _ => Or.inl hkey.symm, fun _ => rfl⟩
  · rw [if_neg hkey]
    exact ⟨Or.inr, fun hor => hor.resolve_left (Ne.symm hkey)⟩

/-- Changing what a file holds besides resources changes no look-up. -/
theorem resource?_modifyFile (inventory : Inventory) (index : Nat)
    {change : FileScope → FileScope}
    (hchange : ∀ file, (change file).resources = file.resources) (key : Key) :
    (inventory.modifyFile index change).resource? key = inventory.resource? key := by
  unfold modifyFile resource?
  dsimp only
  generalize inventory.files = files
  induction files generalizing index with
  | nil => cases index <;> rfl
  | cons file rest ih =>
    cases index with
    | zero =>
      rw [List.modify_zero_cons, List.findSome?_cons, List.findSome?_cons]
      unfold FileScope.resource?
      rw [hchange file]
    | succ index =>
      rw [List.modify_succ_cons, List.findSome?_cons, List.findSome?_cons, ih index]

/-! ## One home for each key -/

/-- Every resource is stored under its own key. -/
def Keyed (inventory : Inventory) : Prop :=
  ∀ file ∈ inventory.files, ∀ entry ∈ file.resources, entry.1 = entry.2.key

/-- Every resource is stored under its own key, and no key is held twice. -/
structure OneHome (inventory : Inventory) : Prop where
  keyed : inventory.Keyed
  once : (inventory.resources.map Resource.key).Nodup

section OneHome

variable {inventory : Inventory} {key : Key} {resource : Resource}

theorem keys_of_keyed {files : List FileScope}
    (h : ∀ file ∈ files, ∀ entry ∈ file.resources, entry.1 = entry.2.key) :
    (files.flatMap fun file => Table.values file.resources).map Resource.key =
      files.flatMap fun file => Table.keys file.resources := by
  rw [List.map_flatMap]
  apply List.flatMap_congr
  intro file hfile
  unfold Table.values Table.keys
  rw [List.map_map]
  exact List.map_congr_left fun entry hentry => (h file hfile entry hentry).symm

theorem OneHome.distinct (h : inventory.OneHome) : inventory.Distinct := by
  intro file hfile
  have hkeys := h.once
  unfold resources at hkeys
  rw [keys_of_keyed h.keyed, List.nodup_flatMap] at hkeys
  exact hkeys.1 file hfile

theorem mem_resources :
    resource ∈ inventory.resources ↔
      ∃ file ∈ inventory.files, ∃ key, (key, resource) ∈ file.resources := by
  unfold resources Table.values
  simp [List.mem_flatMap]

/-- What a look-up finds is stored under the key asked for. -/
theorem Keyed.key_of_resource? (h : inventory.Keyed) (hfound : inventory.resource? key = some resource) :
    resource ∈ inventory.resources ∧ resource.key = key := by
  obtain ⟨file, hfile, hget⟩ := List.exists_of_findSome?_eq_some hfound
  have hentry := Table.mem_of_get? hget
  exact ⟨mem_resources.2 ⟨file, hfile, key, hentry⟩, (h file hfile _ hentry).symm⟩

theorem resource?_isSome_of_mem {file : FileScope} (hfile : file ∈ inventory.files)
    (hentry : (key, resource) ∈ file.resources) :
    (inventory.resource? key).isSome := by
  unfold resource?
  rw [List.findSome?_isSome_iff]
  refine ⟨file, hfile, ?_⟩
  exact Table.mem_keys_iff.1 (List.mem_map_of_mem hentry)

/-- A look-up finds a resource exactly when the inventory holds it under that key. -/
theorem OneHome.resource?_eq_some_iff (h : inventory.OneHome) :
    inventory.resource? key = some resource ↔
      resource ∈ inventory.resources ∧ resource.key = key := by
  constructor
  · exact h.keyed.key_of_resource?
  · rintro ⟨hmem, rfl⟩
    obtain ⟨file, hfile, stored, hentry⟩ := mem_resources.1 hmem
    have hstored : stored = resource.key := h.keyed file hfile _ hentry
    subst hstored
    obtain ⟨other, hother⟩ := Option.isSome_iff_exists.1 (resource?_isSome_of_mem hfile hentry)
    obtain ⟨hin, hkey⟩ := h.keyed.key_of_resource? hother
    rw [hother, List.inj_on_of_nodup_map h.once hin hmem hkey]

/-- The resources with a key are the one that a look-up finds. -/
theorem OneHome.filter_key (h : inventory.OneHome) (key : Key) :
    inventory.resources.filter (fun resource => resource.key = key) =
      (inventory.resource? key).toList := by
  have hnodup : (inventory.resources.filter fun resource => decide (resource.key = key)).Nodup :=
    (List.Nodup.of_map _ h.once).filter _
  cases hfound : inventory.resource? key with
  | none =>
    apply List.filter_eq_nil_iff.2
    intro resource hmem hkey
    have hsome := h.resource?_eq_some_iff.2 ⟨hmem, of_decide_eq_true hkey⟩
    rw [hfound] at hsome
    cases hsome
  | some resource =>
    apply List.perm_singleton.1
    apply (List.perm_ext_iff_of_nodup hnodup (List.nodup_singleton _)).2
    intro other
    rw [List.mem_filter, decide_eq_true_iff, ← h.resource?_eq_some_iff, hfound,
      List.mem_singleton, Option.some_inj]
    exact eq_comm

theorem has_iff (inventory : Inventory) (key : Key) :
    inventory.has key = true ↔ ∃ resource, inventory.resource? key = some resource :=
  Option.isSome_iff_exists

theorem has_eq_false_iff (inventory : Inventory) (key : Key) :
    inventory.has key = false ↔ inventory.resource? key = none :=
  Option.isSome_eq_false_iff.trans Option.isNone_iff_eq_none

end OneHome

end Provision.Inventory

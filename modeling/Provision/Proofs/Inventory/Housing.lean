import Mathlib.Data.Set.Card
import Provision.Plan.Refresh
import Provision.Proofs.Inventory.Sifting
import Provision.Proofs.State.Kept

/-!
# One home for every key

Whatever the engine does to an inventory is made of a few edits: it makes room for a
file, puts a resource into one, takes a key out, gives a resource other fields, or
changes what the files say besides their resources.  Each edit leaves every resource
under its own key and every key in one file, so this holds wherever a sequence of
evaluations, refreshes and runs has led from an inventory without files.  The look-ups
then agree on where a key is, and an inserted resource disturbs no other.
-/

namespace Provision

open Provision.Language (Node Directive SourceFile)

namespace Inventory

/-! ## Edits -/

/-- The second inventory comes from the first by edits, one after another. -/
inductive Edited (before : Inventory) : Inventory → Prop
  | refl : Edited before before
  /-- What the files say besides their resources, and what is shared across them, may change. -/
  | declare {after other : Inventory} (h : Edited before after)
      (hshelved : other.shelved = after.shelved) : Edited before other
  | ensureFile {after : Inventory} (h : Edited before after) (path : Path) :
      Edited before (after.ensureFile path).1
  | insertAt {after : Inventory} (h : Edited before after) (index : Nat) (resource : Resource) :
      Edited before (after.insertAt index resource)
  | remove {after : Inventory} (h : Edited before after) (key : Key) :
      Edited before (after.remove key)
  | refill {after : Inventory} (h : Edited before after) (key : Key) (fields : Bindings) :
      Edited before (after.update key fun resource => { resource with fields := fields })

section Edits

variable {a b c : Inventory}

theorem Edited.trans (hfirst : Edited a b) (hsecond : Edited b c) : Edited a c := by
  induction hsecond with
  | refl => exact hfirst
  | declare _ hshelved ih => exact ih.declare hshelved
  | ensureFile _ path ih => exact ih.ensureFile path
  | insertAt _ index resource ih => exact ih.insertAt index resource
  | remove _ key ih => exact ih.remove key
  | refill _ key fields ih => exact ih.refill key fields

theorem Edited.insert (h : Edited a b) (path : Path) (resource : Resource) :
    Edited a (b.insert path resource) :=
  (h.ensureFile path).insertAt _ resource

theorem Grown.edited (h : a.Grown b) : Edited a b := by
  induction h with
  | refl => exact .refl
  | insert _ index resource _ _ _ ih => exact ih.insertAt index resource

end Edits

end Inventory

/-! ### Evaluating -/

section Evaluating

variable {inventory after : Inventory}

theorem ensureFiles_edited (inventory : Inventory) (files : List SourceFile) :
    inventory.Edited (ensureFiles inventory files).1 := by
  induction files generalizing inventory with
  | nil => exact .refl
  | cons file rest ih =>
    exact (Inventory.Edited.ensureFile .refl (⟨file.path⟩ : Path)).trans (ih _)

theorem Round.result_edited (round : Round) (indices : List Nat) :
    round.inventory.Edited (round.result indices) := by
  unfold Round.result
  generalize round.scopes.zip indices = entries
  generalize round.inventory = evaluated
  induction entries generalizing evaluated with
  | nil => exact .refl
  | cons entry rest ih =>
    rw [List.foldl_cons]
    refine (Inventory.Edited.declare .refl ?_).trans (ih _)
    exact Inventory.shelved_modifyFile _ _ fun _ => rfl

theorem evaluateFiles_edited {setup : EvaluationSetup} {files : List SourceFile}
    (h : evaluateFiles setup inventory files = .ok after) : inventory.Edited after := by
  unfold evaluateFiles at h
  obtain ⟨⟨round, indices⟩, hstart, h⟩ := bind_eq_ok.1 h
  obtain ⟨last, hlast, h⟩ := bind_eq_ok.1 h
  cases h
  unfold Round.start at hstart
  obtain ⟨taken, htaken, hstart⟩ := bind_eq_ok.1 hstart
  cases hstart
  have hbegun := (ensureFiles_edited inventory files).declare (shelved_takeAllDefinitions htaken).1
  exact (hbegun.trans (Round.run_grown hlast).edited).trans (last.result_edited _)

theorem reevaluate_edited (depth : Nat) (pending current : Inventory) (key : Key) :
    pending.Edited (reevaluate depth pending current key).2 := by
  rcases reevaluate_adds depth pending current key with
    hgrown | ⟨body, file, resource, again, hgrown, -, -, -, heq⟩
  · exact hgrown.edited
  · rw [heq]
    exact hgrown.edited.insertAt file again

end Evaluating

/-! ### Refreshing -/

section Refreshing

variable {ω : Type}

theorem refreshOne_edited (provider : Provider ω) (progress : Refreshed ω) (key : Key) :
    progress.inventory.Edited (refreshOne provider progress key).inventory := by
  unfold refreshOne
  split
  · exact .refl
  · split
    · exact .refl
    · split
      · exact .refill .refl key _
      · exact .remove .refl key
      · exact .refl

theorem refresh_edited (provider : Provider ω) (inventory : Inventory) (world : ω) :
    inventory.Edited (refresh provider inventory world).inventory := by
  have hall (keys : List Key) (progress : Refreshed ω) :
      progress.inventory.Edited (keys.foldl (refreshOne provider) progress).inventory := by
    induction keys generalizing progress with
    | nil => exact .refl
    | cons key rest ih => exact (refreshOne_edited provider progress key).trans (ih _)
  exact hall _ ⟨inventory, [], world⟩

end Refreshing

/-! ### Applying -/

section Applying

variable {ω : Type} {backing : Backing ω} {run after : Run ω}

theorem withDeclarations_edited (pending state : Inventory) :
    state.Edited (withDeclarations pending state) := by
  unfold withDeclarations
  generalize declarationPaths pending state = paths
  induction paths generalizing state with
  | nil => exact .refl
  | cons path rest ih =>
    exact ((Inventory.Edited.ensureFile .refl path).declare
      (shelved_carryDeclarations pending state path)).trans (ih _)

/-- A deed edits the pending inventory and the state. -/
theorem Does.edited {deed : Deed} (h : Does backing run deed after) :
    run.pending.Edited after.pending ∧ run.state.Edited after.state := by
  cases h with
  | reevaluate key => exact ⟨reevaluate_edited _ _ _ key, .refl⟩
  | created => exact ⟨.insert .refl _ _, .insert .refl _ _⟩
  | updated => exact ⟨.insert .refl _ _, .insert .refl _ _⟩
  | createFailed => exact ⟨.refl, .refl⟩
  | updateFailed => exact ⟨.refl, .refl⟩
  | deleted => exact ⟨.refl, .remove .refl _⟩
  | deleteFailed => exact ⟨.refl, .refl⟩
  | absent => exact ⟨.refl, .refl⟩
  | save hstate =>
    subst hstate
    exact ⟨.refl, withDeclarations_edited _ _⟩

theorem Course.edited {deeds : List Deed} (h : Course backing run deeds after) :
    run.pending.Edited after.pending ∧ run.state.Edited after.state := by
  induction h with
  | nil => exact ⟨.refl, .refl⟩
  | cons hdoes _ ih => exact ⟨hdoes.edited.1.trans ih.1, hdoes.edited.2.trans ih.2⟩

theorem applyPlan_edited (backing : Backing ω)
    (approve : ChangeGroup → List PlannedChange → Bool) (failFast : Bool) (plan : Plan)
    (run : Run ω) :
    run.pending.Edited (applyPlan backing approve failFast plan run).2.pending ∧
      run.state.Edited (applyPlan backing approve failFast plan run).2.state := by
  obtain ⟨schedule, -, -, hcourse, -⟩ := applyPlan_follows backing approve failFast plan run
  exact hcourse.edited

end Applying

namespace Inventory

/-! ## What edits keep -/

section Keeping

variable {inventory other : Inventory} {key : Key}

theorem paths_of_shelved (h : other.shelved = inventory.shelved) :
    other.files.map FileScope.path = inventory.files.map FileScope.path := by
  have hpaths := congrArg (List.map Prod.fst) h
  unfold shelved at hpaths
  rw [List.map_map, List.map_map] at hpaths
  exact hpaths

theorem Apart.of_paths (h : inventory.Apart)
    (hpaths : other.files.map FileScope.path = inventory.files.map FileScope.path) :
    other.Apart := by
  rw [apart_iff_paths] at h ⊢
  exact hpaths ▸ h

theorem paths_update (inventory : Inventory) (key : Key) (change : Resource → Resource) :
    (inventory.update key change).files.map FileScope.path =
      inventory.files.map FileScope.path := by
  unfold update
  dsimp only
  induction inventory.files with
  | nil => rfl
  | cons file rest ih =>
    unfold updateFirst
    split
    · rfl
    · rw [List.map_cons, ih, List.map_cons]

theorem update_of_absent {change : Resource → Resource} (h : inventory.resource? key = none) :
    inventory.update key change = inventory := by
  have hfiles : ∀ files : List FileScope, (∀ file ∈ files, file.resource? key = none) →
      updateFirst key change files = files := by
    intro files hnone
    induction files with
    | nil => rfl
    | cons file rest ih =>
      rw [updateFirst, hnone file List.mem_cons_self,
        ih fun later hlater => hnone later (List.mem_cons_of_mem _ hlater)]
  unfold update
  rw [hfiles _ (List.findSome?_eq_none_iff.1 h)]

/-- Giving a resource other fields leaves each key with one home. -/
theorem oneHome_refill (h : inventory.OneHome) (key : Key) (fields : Bindings) :
    (inventory.update key fun resource => { resource with fields := fields }).OneHome := by
  cases hfound : inventory.resource? key with
  | none =>
    rw [update_of_absent hfound]
    exact h
  | some found =>
    let keep : Resource → Option Resource := fun resource => some { resource with fields := fields }
    have hkeep : KeepsKeys keep := by
      intro old resource hkept
      cases hkept
      rfl
    have hkept : keep found = some { found with fields := fields } := rfl
    rw [update_eq_sifted h hfound hkept]
    exact oneHome_sifted h (hkeep.onlyAt key)

theorem Edited.oneHome (hedited : inventory.Edited other) (h : inventory.OneHome) :
    other.OneHome := by
  induction hedited with
  | refl => exact h
  | declare _ hshelved ih => exact (oneHome_of_shelved hshelved).2 ih
  | ensureFile _ path ih => exact oneHome_ensureFile ih path
  | insertAt _ index resource ih => exact oneHome_insertAt ih index resource
  | remove _ key ih => exact oneHome_remove ih key
  | refill _ key fields ih => exact oneHome_refill ih key fields

theorem Edited.apart (hedited : inventory.Edited other) (h : inventory.Apart) : other.Apart := by
  induction hedited with
  | refl => exact h
  | declare _ hshelved ih => exact ih.of_paths (paths_of_shelved hshelved)
  | ensureFile _ path ih => exact ih.ensureFile path
  | insertAt _ index resource ih => exact ih.of_paths (paths_insertAt _ index resource)
  | remove _ key ih => exact ih.of_headings (headings_remove _ key)
  | refill _ key fields ih => exact ih.of_paths (paths_update _ key _)

end Keeping

/-! ## Where a key is -/

/-- Every resource is stored under its own key and every key in at most one file, no two files have
the same path, the look-ups agree on where a key is, and the count of the resources is that of the
keys. -/
structure Housed (inventory : Inventory) : Prop where
  keyed : ∀ file ∈ inventory.files, ∀ entry ∈ file.resources, entry.1 = entry.2.key
  apart : inventory.files.Pairwise fun file other => file.path.same other.path = false
  distinct : ∀ file ∈ inventory.files, (Table.keys file.resources).Nodup
  once : ∀ {i j : Nat} {file other : FileScope} {key : Key},
    inventory.files[i]? = some file → inventory.files[j]? = some other →
    key ∈ Table.keys file.resources → key ∈ Table.keys other.resources → i = j
  fileIndexOf? : ∀ (key : Key) (index : Nat), inventory.fileIndexOf? key = some index ↔
    ∃ file, inventory.files[index]? = some file ∧ key ∈ Table.keys file.resources
  fileOf? : ∀ (key : Key) (path : Path), inventory.fileOf? key = some path ↔
    ∃ index file, inventory.fileIndexOf? key = some index ∧
      inventory.files[index]? = some file ∧ file.path = path
  resource? : ∀ (key : Key) (resource : Resource), inventory.resource? key = some resource ↔
    ∃ index file, inventory.fileIndexOf? key = some index ∧
      inventory.files[index]? = some file ∧ (key, resource) ∈ file.resources
  count : inventory.resourceCount = {key | inventory.has key = true}.ncard

section Places

variable {inventory : Inventory} {key : Key}

theorem resourceCount_eq_length (inventory : Inventory) :
    inventory.resourceCount = (keysOf inventory.files).length := by
  have hsum (files : List FileScope) (count : Nat) :
      files.foldl (fun count file => count + file.resources.length) count =
        count + (keysOf files).length := by
    induction files generalizing count with
    | nil => rfl
    | cons file rest ih =>
      have hkeys : (Table.keys file.resources).length = file.resources.length := List.length_map _
      have hsplit : keysOf (file :: rest) = Table.keys file.resources ++ keysOf rest :=
        List.flatMap_cons
      rw [List.foldl_cons, ih, hsplit, List.length_append, hkeys, Nat.add_assoc]
  exact (hsum inventory.files 0).trans (Nat.zero_add _)

theorem mem_keysOf_iff : key ∈ keysOf inventory.files ↔ inventory.has key = true := by
  unfold keysOf has Inventory.resource?
  rw [List.mem_flatMap, List.findSome?_isSome_iff]
  constructor
  · rintro ⟨file, hfile, hkey⟩
    exact ⟨file, hfile, Table.mem_keys_iff.1 hkey⟩
  · rintro ⟨file, hfile, hsome⟩
    exact ⟨file, hfile, Table.mem_keys_iff.2 hsome⟩

theorem fileOf?_eq (inventory : Inventory) (key : Key) :
    inventory.fileOf? key = (inventory.fileIndexOf? key).bind fun index =>
      (inventory.files.map FileScope.path)[index]? := by
  unfold Inventory.fileOf? Inventory.fileIndexOf?
  rw [List.find?_eq_bind_findIdx?_getElem?, Option.map_bind]
  simp only [Function.comp_def, List.getElem?_map]

theorem OneHome.housed (h : inventory.OneHome) (hapart : inventory.Apart) : inventory.Housed := by
  obtain ⟨hkeyed, honce⟩ := oneHome_iff.1 h
  obtain ⟨hdistinct, hplaces⟩ := nodup_keysOf_iff.1 honce
  have honly : ∀ {i j : Nat} {file other : FileScope} {key : Key},
      inventory.files[i]? = some file → inventory.files[j]? = some other →
      key ∈ Table.keys file.resources → key ∈ Table.keys other.resources → i = j := by
    intro i j file other key hfile hother hkey hkey'
    obtain ⟨hi, rfl⟩ := List.getElem?_eq_some_iff.1 hfile
    obtain ⟨hj, rfl⟩ := List.getElem?_eq_some_iff.1 hother
    rcases Nat.lt_trichotomy i j with hlt | heq | hlt
    · exact absurd hkey' (hplaces i j hi hj key hlt hkey)
    · exact heq
    · exact absurd hkey (hplaces j i hj hi key hlt hkey')
  have hindex : ∀ (key : Key) (index : Nat), inventory.fileIndexOf? key = some index ↔
      ∃ file, inventory.files[index]? = some file ∧ key ∈ Table.keys file.resources := by
    intro key index
    constructor
    · intro hfound
      obtain ⟨hroom, hhas, -⟩ := List.findIdx?_eq_some_iff_getElem.1 hfound
      exact ⟨inventory.files[index], List.getElem?_eq_getElem hroom, Table.mem_keys_iff.2 hhas⟩
    · rintro ⟨file, hfile, hkey⟩
      obtain ⟨hroom, rfl⟩ := List.getElem?_eq_some_iff.1 hfile
      refine List.findIdx?_eq_some_iff_getElem.2 ⟨hroom, Table.mem_keys_iff.1 hkey, ?_⟩
      intro before hbefore hhas
      exact hplaces before index _ hroom key hbefore (Table.mem_keys_iff.2 hhas) hkey
  refine ⟨hkeyed, hapart, hdistinct, honly, hindex, ?_, ?_, ?_⟩
  · intro key path
    rw [fileOf?_eq, Option.bind_eq_some_iff]
    simp only [List.getElem?_map, Option.map_eq_some_iff]
    constructor
    · rintro ⟨index, hfound, file, hfile, hpath⟩
      exact ⟨index, file, hfound, hfile, hpath⟩
    · rintro ⟨index, file, hfound, hfile, hpath⟩
      exact ⟨index, hfound, file, hfile, hpath⟩
  · intro key resource
    constructor
    · intro hfound
      obtain ⟨file, hmem, hget⟩ := List.exists_of_findSome?_eq_some hfound
      obtain ⟨index, hroom, rfl⟩ := List.mem_iff_getElem.1 hmem
      have hentry := Table.mem_of_get? hget
      exact ⟨index, _, (hindex key index).2 ⟨_, List.getElem?_eq_getElem hroom,
        List.mem_map_of_mem hentry⟩, List.getElem?_eq_getElem hroom, hentry⟩
    · rintro ⟨index, file, -, hfile, hentry⟩
      have hmem := List.mem_of_getElem? hfile
      exact h.resource?_eq_some_iff.2
        ⟨mem_resources.2 ⟨file, hmem, key, hentry⟩, (hkeyed file hmem _ hentry).symm⟩
  · have hset : {key | inventory.has key = true} = ↑(keysOf inventory.files).toFinset := by
      ext key
      rw [List.coe_toFinset]
      exact mem_keysOf_iff.symm
    rw [hset, Set.ncard_coe_finset, List.toFinset_card_of_nodup honce, resourceCount_eq_length]

end Places

/-! ## Insertion disturbs no other resource -/

/-- Between two inventories nothing but the resource under a key has changed: every other key has
its resource where it was, and all others are in the same order. -/
structure SameBesides (key : Key) (before after : Inventory) : Prop where
  resource? : ∀ other, other ≠ key → after.resource? other = before.resource? other
  fileOf? : ∀ other, other ≠ key → after.fileOf? other = before.fileOf? other
  fileIndexOf? : ∀ other, other ≠ key → after.fileIndexOf? other = before.fileIndexOf? other
  order : (after.resources.filter fun resource => resource.key ≠ key) =
    before.resources.filter fun resource => resource.key ≠ key

section Insertion

variable {inventory : Inventory} {key other : Key}

theorem findIdx?_mapIdx {files : List FileScope} {key : Key} {change : Nat → FileScope → FileScope}
    (h : ∀ position, ∀ file ∈ files,
      Table.has (change position file).resources key = Table.has file.resources key) :
    ((files.mapIdx change).findIdx? fun file => Table.has file.resources key) =
      files.findIdx? fun file => Table.has file.resources key := by
  induction files generalizing change with
  | nil => rfl
  | cons file rest ih =>
    rw [List.mapIdx_cons, List.findIdx?_cons, List.findIdx?_cons, h 0 file List.mem_cons_self,
      ih fun position other hother => h (position + 1) other (List.mem_cons_of_mem _ hother)]

theorem filter_cons_congr {keep : Resource → Bool} (first : Resource) {rest others : List Resource}
    (h : rest.filter keep = others.filter keep) :
    (first :: rest).filter keep = (first :: others).filter keep := by
  rw [List.filter_cons, List.filter_cons, h]

theorem filter_values_set {table : Table Key Resource} {resource : Resource}
    (hkeyed : ∀ entry ∈ table, entry.1 = entry.2.key) :
    ((Table.values (Table.set table resource.key resource)).filter fun other =>
        other.key ≠ resource.key) =
      (Table.values table).filter fun other => other.key ≠ resource.key := by
  induction table with
  | nil => exact List.filter_cons_of_neg (by simp)
  | cons entry rest ih =>
    obtain ⟨stored, old⟩ := entry
    have hstored : stored = old.key := hkeyed _ List.mem_cons_self
    rw [Table.set]
    split
    · next heq =>
      -- the new resource takes the place of the one with its key
      have hold : old.key = resource.key := hstored.symm.trans heq
      exact (List.filter_cons_of_neg (by simp)).trans
        (List.filter_cons_of_neg (by simp [hold])).symm
    · exact filter_cons_congr old
        (ih fun entry hentry => hkeyed entry (List.mem_cons_of_mem _ hentry))

theorem filter_values_erase {table : Table Key Resource} {key : Key}
    (hkeyed : ∀ entry ∈ table, entry.1 = entry.2.key) :
    ((Table.values (Table.erase table key)).filter fun other => other.key ≠ key) =
      (Table.values table).filter fun other => other.key ≠ key := by
  induction table with
  | nil => rfl
  | cons entry rest ih =>
    obtain ⟨stored, old⟩ := entry
    have hstored : stored = old.key := hkeyed _ List.mem_cons_self
    rw [Table.erase]
    split
    · next heq =>
      have hold : old.key = key := hstored.symm.trans heq
      exact (List.filter_cons_of_neg (by simp [hold])).symm
    · exact filter_cons_congr old
        (ih fun entry hentry => hkeyed entry (List.mem_cons_of_mem _ hentry))

theorem filter_resources_mapIdx {files : List FileScope} {keep : Resource → Bool}
    {change : Nat → FileScope → FileScope}
    (h : ∀ position, ∀ file ∈ files, (Table.values (change position file).resources).filter keep =
      (Table.values file.resources).filter keep) :
    ((files.mapIdx change).flatMap fun file => Table.values file.resources).filter keep =
      (files.flatMap fun file => Table.values file.resources).filter keep := by
  induction files generalizing change with
  | nil => rfl
  | cons file rest ih =>
    rw [List.mapIdx_cons, List.flatMap_cons, List.flatMap_cons, List.filter_append,
      List.filter_append, h 0 file List.mem_cons_self,
      ih fun position other hother => h (position + 1) other (List.mem_cons_of_mem _ hother)]

theorem SameBesides.trans {a b c : Inventory} (hfirst : SameBesides key a b)
    (hsecond : SameBesides key b c) : SameBesides key a c where
  resource? other hother := (hsecond.resource? other hother).trans (hfirst.resource? other hother)
  fileOf? other hother := (hsecond.fileOf? other hother).trans (hfirst.fileOf? other hother)
  fileIndexOf? other hother :=
    (hsecond.fileIndexOf? other hother).trans (hfirst.fileIndexOf? other hother)
  order := hsecond.order.trans hfirst.order

theorem sameBesides_of_files {after : Inventory} (h : after.files = inventory.files) :
    SameBesides key inventory after := by
  constructor
  · intro other _
    exact congrArg (List.findSome? fun file => file.resource? other) h
  · intro other _
    exact congrArg (fun files => (files.find? fun file => Table.has file.resources other).map
      FileScope.path) h
  · intro other _
    exact congrArg (List.findIdx? fun file => Table.has file.resources other) h
  · exact congrArg (fun files => (files.flatMap fun file => Table.values file.resources).filter
      fun resource => resource.key ≠ key) h

/-- A file that is new holds nothing, and it comes last. -/
theorem sameBesides_ensureFile (inventory : Inventory) (path : Path) (key : Key) :
    SameBesides key inventory (inventory.ensureFile path).1 := by
  rcases files_ensureFile inventory path with hfiles | hfiles
  · exact sameBesides_of_files hfiles
  · constructor
    · intro other _
      unfold Inventory.resource?
      rw [hfiles, List.findSome?_append]
      exact Option.or_none
    · intro other _
      unfold Inventory.fileOf?
      rw [hfiles, List.find?_append]
      exact congrArg _ Option.or_none
    · intro other _
      unfold Inventory.fileIndexOf?
      rw [hfiles, List.findIdx?_append]
      exact Option.or_none
    · unfold resources
      rw [hfiles, List.flatMap_append]
      exact congrArg _ (List.append_nil _)

/-- An insertion into a file leaves what has another key. -/
theorem sameBesides_insertAt (h : inventory.OneHome) (index : Nat) (resource : Resource) :
    SameBesides resource.key inventory (inventory.insertAt index resource) := by
  have hindex (other : Key) (hother : other ≠ resource.key) :
      (inventory.insertAt index resource).fileIndexOf? other = inventory.fileIndexOf? other := by
    refine findIdx?_mapIdx fun position file hfile => ?_
    have hlook := @resource?_changed resource _ (h.distinct file hfile)
      (position = index) _ other
    rw [if_neg hother] at hlook
    exact congrArg Option.isSome hlook
  refine ⟨fun other hother => resource?_insertAt_of_ne h.distinct index hother.symm,
    fun other hother => ?_, hindex, filter_resources_mapIdx fun position file hfile => ?_⟩
  · rw [fileOf?_eq, fileOf?_eq, hindex other hother, paths_insertAt]
  · split
    · exact filter_values_set (h.keyed file hfile)
    · exact filter_values_erase (h.keyed file hfile)

theorem sameBesides_insert (h : inventory.OneHome) (path : Path) (resource : Resource) :
    SameBesides resource.key inventory (inventory.insert path resource) :=
  (sameBesides_ensureFile inventory path resource.key).trans
    (sameBesides_insertAt (oneHome_ensureFile h path) _ resource)

/-- An inserted resource is found in the file with the path. -/
theorem insert_found (h : inventory.OneHome) (hapart : inventory.Apart) (path : Path)
    (resource : Resource) :
    (inventory.insert path resource).resource? resource.key = some resource ∧
      ∃ place, (inventory.insert path resource).fileOf? resource.key = some place ∧
        place.same path = true := by
  have hhome := oneHome_insert h path resource
  have hhoused := hhome.housed (hapart.insert path resource)
  have hholds : (inventory.insert path resource).Holds path resource.key resource := by
    rw [holds_insert h.distinct, if_pos rfl]
    exact ⟨Path.same_iff.2 rfl, rfl⟩
  obtain ⟨file, hmem, hsame, hget⟩ := hholds
  obtain ⟨index, hroom, rfl⟩ := List.mem_iff_getElem.1 hmem
  have hfile := List.getElem?_eq_getElem hroom
  have hindex := (hhoused.fileIndexOf? resource.key index).2
    ⟨_, hfile, Table.mem_keys_iff.2 (Option.isSome_of_eq_some hget)⟩
  exact ⟨(hhoused.resource? _ _).2 ⟨index, _, hindex, hfile, Table.mem_of_get? hget⟩,
    _, (hhoused.fileOf? _ _).2 ⟨index, _, hindex, hfile, rfl⟩, hsame⟩

end Insertion

/-! ## Reachable inventories -/

/-- An inventory to which a sequence of steps of the engine has led from one without files.  Besides
whole evaluations, refreshes and runs, their parts count as well: what an evaluation that fails has
done so far, and what a run holds when it saves. -/
inductive Reachable : Inventory → Prop
  | empty (registry : Registry) : Reachable (.empty registry)
  | evaluate {setup : EvaluationSetup} {inventory after : Inventory} {files : List SourceFile}
      (h : Reachable inventory) (hresult : evaluateFiles setup inventory files = .ok after) :
      Reachable after
  | sources {inventory : Inventory} (h : Reachable inventory) (files : List SourceFile) :
      Reachable (ensureFiles inventory files).1
  | definition {inventory after : Inventory} {path : Path} {index : Nat} {d : Directive}
      (h : Reachable inventory) (hresult : takeDefinition path index inventory d = .ok after) :
      Reachable after
  | statement {progress : Progress} (h : Reachable progress.inventory) (setting : Setting)
      (depth : Nat) (node : Node) (frame : Frame) :
      Reachable
        ((runStatement (Evaluator.atDepth setting depth) node frame).run progress).2.inventory
  | reevaluate {pending : Inventory} (h : Reachable pending) (depth : Nat) (current : Inventory)
      (key : Key) : Reachable (Provision.reevaluate depth pending current key).2
  | insert {inventory : Inventory} (h : Reachable inventory) (path : Path) (resource : Resource) :
      Reachable (inventory.insert path resource)
  | remove {inventory : Inventory} (h : Reachable inventory) (key : Key) :
      Reachable (inventory.remove key)
  | refreshOne {ω : Type} {progress : Refreshed ω} (h : Reachable progress.inventory)
      (provider : Provider ω) (key : Key) :
      Reachable (Provision.refreshOne provider progress key).inventory
  | refresh {ω : Type} {inventory : Inventory} (h : Reachable inventory) (provider : Provider ω)
      (world : ω) : Reachable (Provision.refresh provider inventory world).inventory
  | deedPending {ω : Type} {backing : Backing ω} {run after : Run ω} {deed : Deed}
      (h : Reachable run.pending) (hdoes : Does backing run deed after) : Reachable after.pending
  | deedState {ω : Type} {backing : Backing ω} {run after : Run ω} {deed : Deed}
      (h : Reachable run.state) (hdoes : Does backing run deed after) : Reachable after.state
  | applyPending {ω : Type} {run : Run ω} (h : Reachable run.pending) (backing : Backing ω)
      (approve : ChangeGroup → List PlannedChange → Bool) (failFast : Bool) (plan : Plan) :
      Reachable (applyPlan backing approve failFast plan run).2.pending
  | applyState {ω : Type} {run : Run ω} (h : Reachable run.state) (backing : Backing ω)
      (approve : ChangeGroup → List PlannedChange → Bool) (failFast : Bool) (plan : Plan) :
      Reachable (applyPlan backing approve failFast plan run).2.state

section Reaching

variable {inventory : Inventory}

theorem Reachable.edited (h : inventory.Reachable) :
    ∃ registry, (Inventory.empty registry).Edited inventory := by
  induction h with
  | empty registry => exact ⟨registry, .refl⟩
  | evaluate _ hresult ih =>
    exact ih.imp fun _ hedited => hedited.trans (evaluateFiles_edited hresult)
  | sources _ files ih => exact ih.imp fun _ hedited => hedited.trans (ensureFiles_edited _ files)
  | definition _ hresult ih =>
    exact ih.imp fun _ hedited => hedited.declare (shelved_takeDefinition hresult).1
  | @statement progress _ setting depth node frame ih =>
    have hgrown := runStatement_grows (atDepth_grows setting depth) node frame progress
    exact ih.imp fun _ hedited => hedited.trans hgrown.edited
  | reevaluate _ depth current key ih =>
    exact ih.imp fun _ hedited => hedited.trans (reevaluate_edited depth _ current key)
  | insert _ path resource ih => exact ih.imp fun _ hedited => hedited.insert path resource
  | remove _ key ih => exact ih.imp fun _ hedited => hedited.remove key
  | refreshOne _ provider key ih =>
    exact ih.imp fun _ hedited => hedited.trans (refreshOne_edited provider _ key)
  | refresh _ provider world ih =>
    exact ih.imp fun _ hedited => hedited.trans (refresh_edited provider _ world)
  | deedPending _ hdoes ih => exact ih.imp fun _ hedited => hedited.trans hdoes.edited.1
  | deedState _ hdoes ih => exact ih.imp fun _ hedited => hedited.trans hdoes.edited.2
  | applyPending _ backing approve failFast plan ih =>
    exact ih.imp fun _ hedited =>
      hedited.trans (applyPlan_edited backing approve failFast plan _).1
  | applyState _ backing approve failFast plan ih =>
    exact ih.imp fun _ hedited =>
      hedited.trans (applyPlan_edited backing approve failFast plan _).2

theorem Reachable.oneHome (h : inventory.Reachable) : inventory.OneHome := by
  obtain ⟨registry, hedited⟩ := h.edited
  exact hedited.oneHome (sound_empty registry).oneHome

theorem Reachable.apart (h : inventory.Reachable) : inventory.Apart := by
  obtain ⟨registry, hedited⟩ := h.edited
  exact hedited.apart List.Pairwise.nil

/-- However an inventory was reached from an empty one, every resource stands under its own key
and every key in one file, where all look-ups find it, and an insertion, into a file with a path or
at a position, leaves all other resources where they are and in their order. -/
theorem reachable_one_home (h : inventory.Reachable) :
    inventory.Housed ∧
    (∀ (path : Path) (resource : Resource),
      SameBesides resource.key inventory (inventory.insert path resource) ∧
        (inventory.insert path resource).resource? resource.key = some resource ∧
        ∃ place, (inventory.insert path resource).fileOf? resource.key = some place ∧
          place.same path = true) ∧
    ∀ (index : Nat) (resource : Resource),
      SameBesides resource.key inventory (inventory.insertAt index resource) := by
  have hhome := h.oneHome
  exact ⟨hhome.housed h.apart,
    fun path resource =>
      ⟨sameBesides_insert hhome path resource, insert_found hhome h.apart path resource⟩,
    fun index resource => sameBesides_insertAt hhome index resource⟩

end Reaching

/-- Two shelves in two files, of which one has moved to the file of the other. -/
def movedShelves : Inventory :=
  (((Inventory.empty {}).insert ⟨"/a"⟩ (shelf "low" "north" "l" [])).insert ⟨"/b"⟩
    (shelf "high" "east" "h" [])).insert ⟨"/b"⟩ (shelf "low" "south" "l" [])

/-- Both shelves are where they were put last, and stay there when one is labelled anew. -/
theorem reachable_one_home_shelves :
    movedShelves.Reachable ∧ movedShelves.Housed ∧ movedShelves.resourceCount = 2 ∧
      movedShelves.files.map FileScope.path = [⟨"/a"⟩, ⟨"/b"⟩] ∧
      movedShelves.fileIndexOf? (shelfKey "low") = some 1 ∧
      movedShelves.resources.map Resource.key = [shelfKey "high", shelfKey "low"] ∧
      (movedShelves.insert ⟨"/b"⟩ (shelf "high" "east" "new" [])).fileOf? (shelfKey "low") =
        some ⟨"/b"⟩ := by
  have hreachable : movedShelves.Reachable :=
    (((Reachable.empty {}).insert _ _).insert _ _).insert _ _
  obtain ⟨hhoused, hinsert, -⟩ := reachable_one_home hreachable
  refine ⟨hreachable, hhoused, by decide, by decide, by decide, by decide, ?_⟩
  rw [(hinsert ⟨"/b"⟩ (shelf "high" "east" "new" [])).1.fileOf? (shelfKey "low") (by decide)]
  decide

end Inventory

end Provision

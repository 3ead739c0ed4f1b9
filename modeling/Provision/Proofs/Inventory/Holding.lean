import Provision.Proofs.Inventory

/-!
# Where an inventory holds what

The resources of an inventory are looked at file by file.  Inserting one puts it
under its key into one file and nowhere else, removing a key takes it out of the
file that holds it, and either leaves every other key where it was.  An
inventory that holds each key once does so afterwards.
-/

namespace Provision

theorem Path.same_iff {a b : Path} : a.same b = true ↔ a.components = b.components :=
  decide_eq_true_iff

theorem Path.same_congr {a b : Path} (h : a.same b = true) (c : Path) :
    a.same c = true ↔ b.same c = true := by
  rw [Path.same_iff, Path.same_iff, Path.same_iff.1 h]

theorem Path.same_comm {a b : Path} : a.same b = true ↔ b.same a = true := by
  rw [Path.same_iff, Path.same_iff]
  exact eq_comm

namespace Inventory

/-- A file with the path holds the resource under the key. -/
def Holds (inventory : Inventory) (path : Path) (key : Key) (resource : Resource) : Prop :=
  ∃ file ∈ inventory.files, file.path.same path = true ∧ file.resource? key = some resource

section Insertion

variable {inventory : Inventory} {path : Path} {key : Key} {resource found : Resource}

/-- What a file holds after a resource was inserted into it or taken out of it. -/
theorem resource?_changed {file : FileScope} (h : Table.Distinct file.resources) (here : Prop)
    [Decidable here] (key : Key) :
    (if here then file.insert resource else file.remove resource.key).resource? key =
      if key = resource.key then if here then some resource else none else file.resource? key := by
  by_cases hhere : here
  · rw [if_pos hhere, if_pos hhere]
    unfold FileScope.insert FileScope.resource?
    rw [Table.get?_set]
    by_cases hkey : key = resource.key
    · rw [if_pos hkey, if_pos hkey.symm]
    · rw [if_neg hkey, if_neg (Ne.symm hkey)]
  · rw [if_neg hhere, if_neg hhere]
    unfold FileScope.remove FileScope.resource?
    rw [Table.get?_erase h]
    by_cases hkey : key = resource.key
    · rw [if_pos hkey, if_pos hkey.symm]
    · rw [if_neg hkey, if_neg (Ne.symm hkey)]

theorem holds_insertAt (h : inventory.Distinct) {index : Nat}
    (hindex : index < inventory.files.length) :
    (inventory.insertAt index resource).Holds path key found ↔
      if key = resource.key then inventory.files[index].path.same path = true ∧ found = resource
      else inventory.Holds path key found := by
  have hfile : ∀ position (hposition : position < inventory.files.length),
      ((if position = index then inventory.files[position].insert resource
        else inventory.files[position].remove resource.key).path =
          inventory.files[position].path) ∧
      ((if position = index then inventory.files[position].insert resource
        else inventory.files[position].remove resource.key).resource? key =
          if key = resource.key then if position = index then some resource else none
          else inventory.files[position].resource? key) := by
    intro position hposition
    refine ⟨?_, resource?_changed (h _ (List.getElem_mem hposition)) _ _⟩
    split <;> rfl
  unfold Holds insertAt
  constructor
  · rintro ⟨file, hmem, hsame, hfound⟩
    obtain ⟨position, hposition, rfl⟩ := List.mem_mapIdx.1 hmem
    rw [(hfile position hposition).1] at hsame
    rw [(hfile position hposition).2] at hfound
    by_cases hkey : key = resource.key
    · rw [if_pos hkey] at hfound ⊢
      by_cases hhere : position = index
      · subst hhere
        rw [if_pos rfl] at hfound
        cases hfound
        exact ⟨hsame, rfl⟩
      · rw [if_neg hhere] at hfound
        cases hfound
    · rw [if_neg hkey] at hfound ⊢
      exact ⟨inventory.files[position], List.getElem_mem hposition, hsame, hfound⟩
  · intro hheld
    by_cases hkey : key = resource.key
    · rw [if_pos hkey] at hheld
      obtain ⟨hsame, rfl⟩ := hheld
      refine ⟨_, List.mem_mapIdx.2 ⟨index, hindex, rfl⟩, ?_, ?_⟩
      · rw [(hfile index hindex).1]
        exact hsame
      · rw [(hfile index hindex).2, if_pos hkey, if_pos rfl]
    · rw [if_neg hkey] at hheld
      obtain ⟨file, hmem, hsame, hfound⟩ := hheld
      obtain ⟨position, hposition, rfl⟩ := List.mem_iff_getElem.1 hmem
      refine ⟨_, List.mem_mapIdx.2 ⟨position, hposition, rfl⟩, ?_, ?_⟩
      · rw [(hfile position hposition).1]
        exact hsame
      · rw [(hfile position hposition).2, if_neg hkey]
        exact hfound

/-- Making room for a file leaves the files that are there and may add an empty one. -/
theorem files_ensureFile (inventory : Inventory) (path : Path) :
    (inventory.ensureFile path).1.files = inventory.files ∨
      (inventory.ensureFile path).1.files = inventory.files ++ [{ path := path }] := by
  unfold ensureFile
  cases inventory.indexOf? path with
  | some index => exact Or.inl rfl
  | none => exact Or.inr rfl

theorem ensureFile_index (inventory : Inventory) (path : Path) :
    ∃ _ : (inventory.ensureFile path).2 < (inventory.ensureFile path).1.files.length,
      (inventory.ensureFile path).1.files[(inventory.ensureFile path).2].path.same path
        = true := by
  unfold ensureFile
  cases hindex : inventory.indexOf? path with
  | some index =>
    obtain ⟨hlt, hsame, -⟩ := List.findIdx?_eq_some_iff_getElem.1 hindex
    exact ⟨hlt, hsame⟩
  | none =>
    refine ⟨by simp, ?_⟩
    simp [Path.same]

theorem holds_ensureFile (inventory : Inventory) (place path : Path) (key : Key)
    (resource : Resource) :
    (inventory.ensureFile place).1.Holds path key resource ↔ inventory.Holds path key resource := by
  unfold Holds
  rcases files_ensureFile inventory place with hfiles | hfiles
  · rw [hfiles]
  · rw [hfiles]
    constructor
    · rintro ⟨file, hmem, hsame, hfound⟩
      rcases List.mem_append.1 hmem with hmem | hmem
      · exact ⟨file, hmem, hsame, hfound⟩
      · rw [List.mem_singleton.1 hmem] at hfound
        cases hfound
    · rintro ⟨file, hmem, hsame, hfound⟩
      exact ⟨file, List.mem_append_left _ hmem, hsame, hfound⟩

theorem distinct_ensureFile (h : inventory.Distinct) (path : Path) :
    (inventory.ensureFile path).1.Distinct := by
  intro file hmem
  rcases files_ensureFile inventory path with hfiles | hfiles
  · rw [hfiles] at hmem
    exact h file hmem
  · rw [hfiles] at hmem
    rcases List.mem_append.1 hmem with hmem | hmem
    · exact h file hmem
    · rw [List.mem_singleton.1 hmem]
      exact List.nodup_nil

/-- An inserted resource stands in the given file and nowhere else; all others stand where they
stood. -/
theorem holds_insert (h : inventory.Distinct) {place : Path} :
    (inventory.insert place resource).Holds path key found ↔
      if key = resource.key then place.same path = true ∧ found = resource
      else inventory.Holds path key found := by
  obtain ⟨hindex, hplace⟩ := ensureFile_index inventory place
  refine (holds_insertAt (distinct_ensureFile h place) hindex).trans ?_
  rw [holds_ensureFile, Path.same_congr hplace]

end Insertion

/-! ## One home, kept -/

section OneHome

variable {inventory : Inventory}

/-- The keys that some files hold, file by file. -/
def keysOf (files : List FileScope) : List Key :=
  files.flatMap fun file => Table.keys file.resources

theorem oneHome_iff :
    inventory.OneHome ↔ inventory.Keyed ∧ (keysOf inventory.files).Nodup := by
  constructor
  · intro h
    refine ⟨h.keyed, ?_⟩
    have honce := h.once
    unfold resources at honce
    rw [keys_of_keyed h.keyed] at honce
    exact honce
  · rintro ⟨hkeyed, honce⟩
    refine ⟨hkeyed, ?_⟩
    unfold resources
    rw [keys_of_keyed hkeyed]
    exact honce

theorem nodup_keysOf_iff {files : List FileScope} :
    (keysOf files).Nodup ↔
      (∀ file ∈ files, Table.Distinct file.resources) ∧
      ∀ i j (hi : i < files.length) (hj : j < files.length) (key : Key),
        i < j → key ∈ Table.keys files[i].resources → key ∉ Table.keys files[j].resources := by
  unfold keysOf
  rw [List.nodup_flatMap, List.pairwise_iff_getElem]
  constructor
  · rintro ⟨hdistinct, hapart⟩
    exact ⟨hdistinct, fun i j hi hj key hlt hin hin' => hapart i j hi hj hlt hin hin'⟩
  · rintro ⟨hdistinct, hapart⟩
    exact ⟨hdistinct, fun i j hi hj hlt key hin hin' => hapart i j hi hj key hlt hin hin'⟩

theorem keyed_insertAt (h : inventory.Keyed) (index : Nat) (resource : Resource) :
    (inventory.insertAt index resource).Keyed := by
  intro file hfile entry hentry
  obtain ⟨position, hposition, rfl⟩ := List.mem_mapIdx.1 hfile
  have hold := h inventory.files[position] (List.getElem_mem hposition)
  by_cases hhere : position = index
  · rw [if_pos hhere] at hentry
    rcases Table.mem_set hentry with hentry | hentry
    · rw [hentry]
    · exact hold entry hentry
  · rw [if_neg hhere] at hentry
    exact hold entry ((Table.erase_sublist _ _).subset hentry)

theorem mem_keys_insert {file : FileScope} {resource : Resource} {key : Key} :
    key ∈ Table.keys (file.insert resource).resources ↔
      key = resource.key ∨ key ∈ Table.keys file.resources := by
  unfold FileScope.insert
  rw [Table.mem_keys_iff, Table.mem_keys_iff, Table.get?_set]
  by_cases hkey : resource.key = key
  · rw [if_pos hkey]
    exact ⟨fun _ => Or.inl hkey.symm, fun _ => rfl⟩
  · rw [if_neg hkey]
    exact ⟨Or.inr, fun hor => hor.resolve_left (Ne.symm hkey)⟩

theorem mem_keys_remove {file : FileScope} (h : Table.Distinct file.resources) {key other : Key} :
    other ∈ Table.keys (file.remove key).resources ↔
      other ≠ key ∧ other ∈ Table.keys file.resources := by
  unfold FileScope.remove
  rw [Table.mem_keys_iff, Table.mem_keys_iff, Table.get?_erase h]
  by_cases hkey : key = other
  · rw [if_pos hkey]
    constructor
    · intro hsome
      cases hsome
    · rintro ⟨hne, -⟩
      exact absurd hkey.symm hne
  · rw [if_neg hkey]
    exact ⟨fun hsome => ⟨Ne.symm hkey, hsome⟩, And.right⟩

/-- Inserting a resource anywhere leaves each key with one home. -/
theorem oneHome_insertAt (h : inventory.OneHome) (index : Nat) (resource : Resource) :
    (inventory.insertAt index resource).OneHome := by
  obtain ⟨hkeyed, honce⟩ := oneHome_iff.1 h
  obtain ⟨-, hapart⟩ := nodup_keysOf_iff.1 honce
  have hdistinct := h.distinct
  refine oneHome_iff.2 ⟨keyed_insertAt hkeyed index resource, nodup_keysOf_iff.2 ⟨?_, ?_⟩⟩
  · exact distinct_insertAt hdistinct index resource
  · intro i j hi hj key hlt hin hin'
    have hi' : i < inventory.files.length := by
      rw [length_insertAt] at hi
      exact hi
    have hj' : j < inventory.files.length := by
      rw [length_insertAt] at hj
      exact hj
    have hdi := hdistinct inventory.files[i] (List.getElem_mem hi')
    have hdj := hdistinct inventory.files[j] (List.getElem_mem hj')
    simp only [insertAt, List.getElem_mapIdx] at hin hin'
    by_cases hhere : i = index
    · rw [if_pos hhere, mem_keys_insert] at hin
      rw [if_neg (by omega), mem_keys_remove hdj] at hin'
      exact hapart i j hi' hj' key hlt (hin.resolve_left hin'.1) hin'.2
    · rw [if_neg hhere, mem_keys_remove hdi] at hin
      by_cases hthere : j = index
      · rw [if_pos hthere, mem_keys_insert] at hin'
        exact hapart i j hi' hj' key hlt hin.2 (hin'.resolve_left hin.1)
      · rw [if_neg hthere, mem_keys_remove hdj] at hin'
        exact hapart i j hi' hj' key hlt hin.2 hin'.2

/-- Inserting a resource where it is already changes nothing. -/
theorem insertAt_of_held (h : inventory.OneHome) {key : Key} {resource : Resource} {index : Nat}
    (hresource : inventory.resource? key = some resource)
    (hindex : inventory.fileIndexOf? key = some index) :
    inventory.insertAt index resource = inventory := by
  obtain ⟨hkeyed, honce⟩ := oneHome_iff.1 h
  obtain ⟨-, hapart⟩ := nodup_keysOf_iff.1 honce
  obtain ⟨-, rfl⟩ := hkeyed.key_of_resource? hresource
  obtain ⟨hroom, hhas, -⟩ := List.findIdx?_eq_some_iff_getElem.1 hindex
  have hhere : resource.key ∈ Table.keys inventory.files[index].resources :=
    Table.mem_keys_iff.2 hhas
  have hone : ∀ i (hi : i < inventory.files.length),
      resource.key ∈ Table.keys inventory.files[i].resources → i = index := by
    intro i hi hin
    rcases Nat.lt_trichotomy i index with hlt | heq | hlt
    · exact absurd hhere (hapart i index hi hroom _ hlt hin)
    · exact heq
    · exact absurd hin (hapart index i hroom hi _ hlt hhere)
  have hholds : inventory.files[index].resource? resource.key = some resource := by
    obtain ⟨file, hfile, hfound⟩ := List.exists_of_findSome?_eq_some hresource
    obtain ⟨i, hi, rfl⟩ := List.mem_iff_getElem.1 hfile
    obtain rfl := hone i hi (Table.mem_keys_iff.2 (Option.isSome_iff_exists.2 ⟨resource, hfound⟩))
    exact hfound
  have hfiles : (inventory.insertAt index resource).files = inventory.files := by
    refine List.ext_getElem (length_insertAt _ _ _) fun i hi hi' => ?_
    simp only [insertAt, List.getElem_mapIdx]
    by_cases hposition : i = index
    · subst hposition
      rw [if_pos rfl]
      unfold FileScope.insert
      rw [Table.set_of_get? hholds]
    · rw [if_neg hposition]
      unfold FileScope.remove
      rw [Table.erase_of_notMem fun hin => hposition (hone i hi' hin)]
  exact congrArg (fun files => { inventory with files := files }) hfiles

theorem oneHome_ensureFile (h : inventory.OneHome) (path : Path) :
    (inventory.ensureFile path).1.OneHome := by
  obtain ⟨hkeyed, honce⟩ := oneHome_iff.1 h
  rcases files_ensureFile inventory path with hfiles | hfiles
  · refine oneHome_iff.2 ⟨?_, hfiles ▸ honce⟩
    intro file hmem
    exact hkeyed file (hfiles ▸ hmem)
  · refine oneHome_iff.2 ⟨?_, ?_⟩
    · intro file hmem
      rw [hfiles] at hmem
      rcases List.mem_append.1 hmem with hmem | hmem
      · exact hkeyed file hmem
      · rw [List.mem_singleton.1 hmem]
        intro entry hentry
        cases hentry
    · rw [hfiles]
      unfold keysOf
      rw [List.flatMap_append]
      simpa [keysOf, Table.keys] using honce

theorem oneHome_insert (h : inventory.OneHome) (path : Path) (resource : Resource) :
    (inventory.insert path resource).OneHome :=
  oneHome_insertAt (oneHome_ensureFile h path) _ resource

end OneHome

/-! ## Removing a key -/

section Removal

variable {inventory : Inventory} {key : Key}

theorem keysOf_removeFirst_sublist (key : Key) (files : List FileScope) :
    (keysOf (removeFirst key files)).Sublist (keysOf files) := by
  induction files with
  | nil => exact List.Sublist.slnil
  | cons file rest ih =>
    unfold removeFirst
    split
    · exact ((Table.erase_sublist file.resources key).map Prod.fst).append (List.Sublist.refl _)
    · exact (List.Sublist.refl _).append ih

theorem mem_removeFirst {files : List FileScope} {file : FileScope}
    (h : file ∈ removeFirst key files) :
    ∃ old ∈ files, file = old ∨ file = old.remove key := by
  induction files with
  | nil => cases h
  | cons first rest ih =>
    unfold removeFirst at h
    split at h
    · rcases List.mem_cons.1 h with h | h
      · exact ⟨first, List.mem_cons_self, Or.inr h⟩
      · exact ⟨file, List.mem_cons_of_mem _ h, Or.inl rfl⟩
    · rcases List.mem_cons.1 h with h | h
      · exact ⟨first, List.mem_cons_self, Or.inl h⟩
      · obtain ⟨old, hold, hfile⟩ := ih h
        exact ⟨old, List.mem_cons_of_mem _ hold, hfile⟩

theorem oneHome_remove (h : inventory.OneHome) (key : Key) : (inventory.remove key).OneHome := by
  obtain ⟨hkeyed, honce⟩ := oneHome_iff.1 h
  refine oneHome_iff.2 ⟨?_, honce.sublist (keysOf_removeFirst_sublist key inventory.files)⟩
  intro file hfile entry hentry
  obtain ⟨old, hold, rfl | rfl⟩ := mem_removeFirst hfile
  · exact hkeyed file hold entry hentry
  · exact hkeyed old hold entry ((Table.erase_sublist _ _).subset hentry)

theorem removeFirst_holds {files : List FileScope} (honce : (keysOf files).Nodup) {path : Path}
    {other : Key} {resource : Resource} :
    (∃ file ∈ removeFirst key files,
        file.path.same path = true ∧ file.resource? other = some resource) ↔
      other ≠ key ∧
        ∃ file ∈ files, file.path.same path = true ∧ file.resource? other = some resource := by
  induction files with
  | nil =>
    constructor
    · rintro ⟨file, hmem, -⟩
      cases hmem
    · rintro ⟨-, file, hmem, -⟩
      cases hmem
  | cons first rest ih =>
    have hsplit : (keysOf (first :: rest)).Nodup ↔ (Table.keys first.resources).Nodup ∧
        (keysOf rest).Nodup ∧ ∀ held ∈ Table.keys first.resources, held ∉ keysOf rest := by
      unfold keysOf
      rw [List.flatMap_cons, List.nodup_append]
      constructor
      · rintro ⟨hfirst, hrest, hapart⟩
        exact ⟨hfirst, hrest, fun held hin hin' => hapart held hin held hin' rfl⟩
      · rintro ⟨hfirst, hrest, hapart⟩
        exact ⟨hfirst, hrest, fun held hin held' hin' heq => hapart held hin (heq ▸ hin')⟩
    obtain ⟨hfirst, hrest, hapart⟩ := hsplit.1 honce
    unfold removeFirst
    by_cases hhas : Table.has first.resources key = true
    · -- The first file holds the key, so no later one does.
      have hnone : ∀ file ∈ rest, file.resource? key = none := by
        intro file hmem
        by_contra hsome
        refine hapart key (Table.mem_keys_iff.2 hhas) (List.mem_flatMap.2 ⟨file, hmem, ?_⟩)
        exact Table.mem_keys_iff.2 (Option.isSome_iff_ne_none.2 hsome)
      have hhead : (first.remove key).resource? other =
          if key = other then none else first.resource? other :=
        Table.get?_erase hfirst key other
      rw [if_pos hhas]
      simp only [List.exists_mem_cons_iff]
      rw [hhead]
      by_cases hkey : key = other
      · subst hkey
        constructor
        · rintro (⟨-, hfound⟩ | ⟨file, hmem, -, hfound⟩)
          · rw [if_pos rfl] at hfound
            cases hfound
          · rw [hnone file hmem] at hfound
            cases hfound
        · rintro ⟨hne, -⟩
          exact absurd rfl hne
      · rw [if_neg hkey]
        exact ⟨fun hheld => ⟨Ne.symm hkey, hheld⟩, And.right⟩
    · rw [if_neg hhas]
      simp only [List.exists_mem_cons_iff]
      rw [ih hrest]
      constructor
      · rintro (⟨hsame, hfound⟩ | ⟨hne, hheld⟩)
        · refine ⟨?_, Or.inl ⟨hsame, hfound⟩⟩
          rintro rfl
          exact hhas (Option.isSome_of_eq_some hfound)
        · exact ⟨hne, Or.inr hheld⟩
      · rintro ⟨hne, hhere | hheld⟩
        · exact Or.inl hhere
        · exact Or.inr ⟨hne, hheld⟩

/-- Removing a key takes it out of the one file that held it. -/
theorem holds_remove (h : inventory.OneHome) {path : Path} {other : Key} {resource : Resource} :
    (inventory.remove key).Holds path other resource ↔
      other ≠ key ∧ inventory.Holds path other resource :=
  removeFirst_holds (oneHome_iff.1 h).2

end Removal

/-! ## What a file says besides its resources -/

section Declarations

variable {inventory other : Inventory}

/-- The files with their resources, without what else they declare. -/
def shelved (inventory : Inventory) : List (Path × Table Key Resource) :=
  inventory.files.map fun file => (file.path, file.resources)

/-- What a change of a file does not touch is as before. -/
theorem map_modifyFile {β : Type} (inventory : Inventory) (index : Nat)
    {change : FileScope → FileScope} {look : FileScope → β}
    (hchange : ∀ file, look (change file) = look file) :
    (inventory.modifyFile index change).files.map look = inventory.files.map look := by
  unfold modifyFile
  dsimp only
  generalize inventory.files = files
  induction files generalizing index with
  | nil => cases index <;> rfl
  | cons file rest ih =>
    cases index with
    | zero => rw [List.modify_zero_cons, List.map_cons, List.map_cons, hchange file]
    | succ index => rw [List.modify_succ_cons, List.map_cons, List.map_cons, ih index]

theorem shelved_modifyFile (inventory : Inventory) (index : Nat) {change : FileScope → FileScope}
    (hchange : ∀ file, ((change file).path, (change file).resources) = (file.path, file.resources)) :
    (inventory.modifyFile index change).shelved = inventory.shelved :=
  inventory.map_modifyFile index hchange

theorem holds_iff_shelved {path : Path} {key : Key} {resource : Resource} :
    inventory.Holds path key resource ↔
      ∃ shelf ∈ inventory.shelved,
        shelf.1.same path = true ∧ Table.get? shelf.2 key = some resource := by
  unfold Holds shelved
  simp only [List.mem_map, exists_exists_and_eq_and]
  exact Iff.rfl

theorem holds_of_shelved (h : inventory.shelved = other.shelved) (path : Path) (key : Key)
    (resource : Resource) :
    inventory.Holds path key resource ↔ other.Holds path key resource := by
  rw [holds_iff_shelved, holds_iff_shelved, h]

theorem oneHome_iff_shelved :
    inventory.OneHome ↔
      (∀ shelf ∈ inventory.shelved, ∀ entry ∈ shelf.2, entry.1 = entry.2.key) ∧
        (inventory.shelved.flatMap fun shelf => Table.keys shelf.2).Nodup := by
  rw [oneHome_iff]
  unfold Keyed keysOf shelved
  rw [List.forall_mem_map, List.flatMap_map]

theorem oneHome_of_shelved (h : inventory.shelved = other.shelved) :
    inventory.OneHome ↔ other.OneHome := by
  rw [oneHome_iff_shelved, oneHome_iff_shelved, h]

end Declarations

end Inventory

end Provision

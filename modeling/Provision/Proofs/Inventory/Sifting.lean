import Provision.Proofs.Inventory.Holding

/-!
# Inventories put through a sieve

A sieve looks at one resource after the other and drops it or keeps it, perhaps changed, under its
key.  What is left stands in the files and in the order of before.  Changing or removing the
resource under a key is the sieve that lets all others pass.
-/

namespace Provision

/-- What a table keeps when each value is replaced by what `keep` makes of it, or dropped. -/
def Table.sifted {κ ν : Type} (keep : ν → Option ν) (table : Table κ ν) : Table κ ν :=
  table.filterMap fun entry => (keep entry.2).map fun value => (entry.1, value)

/-- The file with each resource replaced by what `keep` makes of it, or dropped. -/
def FileScope.sifted (keep : Resource → Option Resource) (file : FileScope) : FileScope :=
  { file with resources := Table.sifted keep file.resources }

/-- The inventory with each resource replaced by what `keep` makes of it, or dropped. -/
def Inventory.sifted (keep : Resource → Option Resource) (inventory : Inventory) : Inventory :=
  { inventory with files := inventory.files.map (FileScope.sifted keep) }

/-- A sieve for the resource with one key. -/
def onlyAt (key : Key) (keep : Resource → Option Resource) (resource : Resource) : Option Resource :=
  if resource.key = key then keep resource else some resource

/-- Whatever passes the sieve stays under its key. -/
def KeepsKeys (keep : Resource → Option Resource) : Prop :=
  ∀ resource kept, keep resource = some kept → kept.key = resource.key

section Sieves

variable {inventory : Inventory} {keep other : Resource → Option Resource} {key : Key}
variable {resource found : Resource} {table : Table Key Resource} {files : List FileScope}

theorem KeepsKeys.onlyAt (h : KeepsKeys keep) (key : Key) : KeepsKeys (onlyAt key keep) := by
  intro resource kept hkept
  unfold Provision.onlyAt at hkept
  split at hkept
  · exact h resource kept hkept
  · exact congrArg Resource.key (Option.some.inj hkept).symm

theorem Table.sifted_of_same (h : ∀ entry ∈ table, keep entry.2 = some entry.2) :
    Table.sifted keep table = table := by
  unfold Table.sifted
  refine (List.filterMap_congr fun entry hentry => ?_).trans List.filterMap_some
  rw [h entry hentry]
  rfl

theorem FileScope.sifted_of_absent {file : FileScope}
    (hkeyed : ∀ entry ∈ file.resources, entry.1 = entry.2.key) (h : file.resource? key = none) :
    file.sifted (onlyAt key keep) = file := by
  have hsame : Table.sifted (onlyAt key keep) file.resources = file.resources := by
    refine Table.sifted_of_same fun entry hentry => if_neg fun heq => ?_
    have hin : key ∈ Table.keys file.resources :=
      List.mem_map.2 ⟨entry, hentry, (hkeyed entry hentry).trans heq⟩
    exact Option.isSome_iff_ne_none.1 (Table.mem_keys_iff.1 hin) h
  unfold FileScope.sifted
  rw [hsame]

theorem Table.values_sifted (keep : Resource → Option Resource) (table : Table Key Resource) :
    Table.values (Table.sifted keep table) = (Table.values table).filterMap keep := by
  unfold Table.values Table.sifted
  rw [List.map_filterMap, List.filterMap_map]
  refine List.filterMap_congr fun entry _ => ?_
  rw [Option.map_map, Function.comp_apply]
  exact congrFun Option.map_id _

/-- A sieve for one key sets its value or erases it. -/
theorem Table.sifted_onlyAt (hkeyed : ∀ entry ∈ table, entry.1 = entry.2.key)
    (hdistinct : Table.Distinct table) (hfound : Table.get? table key = some found) :
    Table.sifted (onlyAt key keep) table =
      match keep found with
      | some kept => Table.set table key kept
      | none => Table.erase table key := by
  induction table with
  | nil => cases hfound
  | cons entry rest ih =>
    obtain ⟨first, resource⟩ := entry
    obtain ⟨hfirst, hlater⟩ := List.nodup_cons.1 hdistinct
    obtain rfl : first = resource.key := hkeyed _ List.mem_cons_self
    have hrest : ∀ entry ∈ rest, entry.1 = entry.2.key := fun entry hentry =>
      hkeyed entry (List.mem_cons_of_mem _ hentry)
    have hcons : Table.sifted (onlyAt key keep) ((resource.key, resource) :: rest) =
        ((onlyAt key keep resource).map fun value => (resource.key, value)).toList ++
          Table.sifted (onlyAt key keep) rest := by
      unfold Table.sifted
      rw [List.filterMap_cons]
      cases onlyAt key keep resource <;> rfl
    rw [hcons]
    rw [Table.get?] at hfound
    by_cases hkey : resource.key = key
    · subst hkey
      rw [if_pos rfl] at hfound
      cases hfound
      have hsame : Table.sifted (onlyAt found.key keep) rest = rest := by
        refine Table.sifted_of_same fun entry hentry => if_neg fun heq => hfirst ?_
        exact List.mem_map.2 ⟨entry, hentry, (hrest entry hentry).trans heq⟩
      rw [hsame, onlyAt, if_pos rfl]
      cases keep found with
      | none =>
        dsimp only
        rw [Table.erase, if_pos rfl]
        rfl
      | some kept =>
        dsimp only
        rw [Table.set, if_pos rfl]
        rfl
    · rw [if_neg hkey] at hfound
      rw [ih hrest hlater hfound, onlyAt, if_neg hkey]
      cases keep found with
      | none =>
        dsimp only
        rw [Table.erase, if_neg hkey]
        rfl
      | some kept =>
        dsimp only
        rw [Table.set, if_neg hkey]
        rfl

namespace Inventory

theorem resources_sifted (keep : Resource → Option Resource) (inventory : Inventory) :
    (inventory.sifted keep).resources = inventory.resources.filterMap keep := by
  unfold resources sifted
  dsimp only
  induction inventory.files with
  | nil => rfl
  | cons file rest ih =>
    rw [List.map_cons, List.flatMap_cons, List.flatMap_cons, List.filterMap_append, ih,
      ← Table.values_sifted]
    rfl

theorem sifted_congr (h : ∀ resource ∈ inventory.resources, keep resource = other resource) :
    inventory.sifted keep = inventory.sifted other := by
  unfold sifted
  refine congrArg (fun files => { inventory with files := files })
    (List.map_congr_left fun file hfile => ?_)
  refine congrArg (fun resources => { file with resources := resources })
    (List.filterMap_congr fun entry hentry => ?_)
  rw [h entry.2 (mem_resources.2 ⟨file, hfile, entry.1, hentry⟩)]

theorem sifted_of_same (h : ∀ resource ∈ inventory.resources, keep resource = some resource) :
    inventory.sifted keep = inventory := by
  unfold sifted
  refine congrArg (fun files => { inventory with files := files })
    ((List.map_congr_left fun file hfile => ?_).trans (List.map_id _))
  have hsame : Table.sifted keep file.resources = file.resources :=
    Table.sifted_of_same fun entry hentry =>
      h entry.2 (mem_resources.2 ⟨file, hfile, entry.1, hentry⟩)
  unfold FileScope.sifted
  rw [hsame, id]

theorem sifted_sifted (keep other : Resource → Option Resource) (inventory : Inventory) :
    (inventory.sifted keep).sifted other =
      inventory.sifted fun resource => (keep resource).bind other := by
  unfold sifted
  dsimp only
  rw [List.map_map]
  refine congrArg (fun files => { inventory with files := files })
    (List.map_congr_left fun file _ => ?_)
  refine congrArg (fun resources => { file with resources := resources }) ?_
  unfold FileScope.sifted Table.sifted
  dsimp only
  rw [List.filterMap_filterMap]
  refine List.filterMap_congr fun entry _ => ?_
  cases keep entry.2 <;> simp

theorem oneHome_sifted (h : inventory.OneHome) (hkeep : KeepsKeys keep) :
    (inventory.sifted keep).OneHome := by
  constructor
  · intro file hfile entry hentry
    obtain ⟨old, hold, rfl⟩ := List.mem_map.1 hfile
    obtain ⟨⟨key, resource⟩, hstored, hentry⟩ := List.mem_filterMap.1 hentry
    obtain ⟨kept, hkept, rfl⟩ := Option.map_eq_some_iff.1 hentry
    exact (h.keyed old hold _ hstored).trans (hkeep resource kept hkept).symm
  · rw [resources_sifted]
    refine h.once.sublist ?_
    induction inventory.resources with
    | nil => exact List.Sublist.slnil
    | cons resource rest ih =>
      rw [List.filterMap_cons]
      cases hkept : keep resource with
      | none => exact ih.cons _
      | some kept =>
        rw [List.map_cons, List.map_cons, hkeep resource kept hkept]
        exact ih.cons_cons _

/-- A look-up finds what the sieve makes of what was found before. -/
theorem resource?_sifted (h : inventory.OneHome) (hkeep : KeepsKeys keep) (key : Key) :
    (inventory.sifted keep).resource? key = (inventory.resource? key).bind keep := by
  refine Option.ext fun resource => ?_
  rw [(oneHome_sifted h hkeep).resource?_eq_some_iff, resources_sifted, List.mem_filterMap,
    Option.bind_eq_some_iff]
  constructor
  · rintro ⟨⟨old, hold, hkept⟩, rfl⟩
    exact ⟨old, h.resource?_eq_some_iff.2 ⟨hold, (hkeep old resource hkept).symm⟩, hkept⟩
  · rintro ⟨old, hold, hkept⟩
    obtain ⟨hmem, rfl⟩ := h.resource?_eq_some_iff.1 hold
    exact ⟨⟨old, hmem, hkept⟩, hkeep old resource hkept⟩

theorem resource?_of_stored (h : inventory.OneHome) {file : FileScope}
    (hfile : file ∈ inventory.files) {entry : Key × Resource} (hentry : entry ∈ file.resources) :
    inventory.resource? entry.1 = some entry.2 :=
  h.resource?_eq_some_iff.2
    ⟨mem_resources.2 ⟨file, hfile, entry.1, hentry⟩, (h.keyed file hfile entry hentry).symm⟩

theorem keys_siftedFile (h : inventory.OneHome) (hkeep : KeepsKeys keep) {file : FileScope}
    (hfile : file ∈ inventory.files) :
    Table.keys (Table.sifted keep file.resources) =
      (Table.keys file.resources).filter (inventory.sifted keep).has := by
  unfold Table.keys Table.sifted
  rw [List.map_filterMap, List.filter_map, ← List.filterMap_eq_map, List.filterMap_filter]
  refine List.filterMap_congr fun entry hentry => ?_
  have hpasses : (inventory.sifted keep).has entry.1 = (keep entry.2).isSome := by
    unfold has
    rw [resource?_sifted h hkeep, resource?_of_stored h hfile hentry]
    rfl
  rw [Function.comp_apply, hpasses]
  cases keep entry.2 <;> rfl

/-- Each file keeps the keys that pass, in their order. -/
theorem files_sifted (h : inventory.OneHome) (hkeep : KeepsKeys keep) :
    (inventory.sifted keep).files.map (fun file => (file.path, Table.keys file.resources)) =
      inventory.files.map fun file =>
        (file.path, (Table.keys file.resources).filter (inventory.sifted keep).has) := by
  unfold sifted
  dsimp only
  rw [List.map_map]
  exact List.map_congr_left fun file hfile => Prod.ext rfl (keys_siftedFile h hkeep hfile)

/-- What passes stays in its file. -/
theorem fileOf?_sifted (h : inventory.OneHome) (hkeep : KeepsKeys keep)
    (hhas : (inventory.sifted keep).has key = true) :
    (inventory.sifted keep).fileOf? key = inventory.fileOf? key := by
  have hsame : ∀ file ∈ inventory.files,
      Table.has (Table.sifted keep file.resources) key = Table.has file.resources key := by
    intro file hfile
    refine Bool.eq_iff_iff.2 ?_
    rw [Table.has, Table.has, ← Table.mem_keys_iff, ← Table.mem_keys_iff,
      keys_siftedFile h hkeep hfile, List.mem_filter]
    exact and_iff_left hhas
  unfold fileOf?
  rw [sifted, List.find?_map, Option.map_map, ← List.head?_filter, ← List.head?_filter,
    List.filter_congr (q := fun file => Table.has file.resources key) hsame]
  rfl

/-! ### Changing one resource -/

/-- A resource has one file that holds it, and a sieve for its key changes that file alone. -/
theorem files_onlyAt (h : inventory.OneHome) (keep : Resource → Option Resource)
    (hfound : inventory.resource? key = some found) :
    ∃ front file back, inventory.files = front ++ file :: back ∧
      (∀ other ∈ front, other.resource? key = none) ∧ file.resource? key = some found ∧
      (inventory.sifted (onlyAt key keep)).files = front ++
        { file with resources :=
          match keep found with
          | some kept => Table.set file.resources key kept
          | none => Table.erase file.resources key } :: back := by
  obtain ⟨front, file, back, hfiles, hholds, hbefore⟩ := List.findSome?_eq_some_iff.1 hfound
  have hkeyed : ∀ held ∈ front ++ file :: back, ∀ entry ∈ held.resources, entry.1 = entry.2.key :=
    hfiles ▸ h.keyed
  have hlater : ∀ other ∈ back, other.resource? key = none := by
    intro other hother
    have honce := (oneHome_iff.1 h).2
    unfold keysOf at honce
    rw [hfiles, List.flatMap_append, List.flatMap_cons] at honce
    have hapart := (List.nodup_append.1 (List.nodup_append.1 honce).2.1).2.2
    refine Option.not_isSome_iff_eq_none.1 fun hsome => hapart key ?_ key ?_ rfl
    · exact Table.mem_keys_iff.2 (Option.isSome_of_eq_some hholds)
    · exact List.mem_flatMap.2 ⟨other, hother, Table.mem_keys_iff.2 hsome⟩
  have hmem : file ∈ front ++ file :: back := List.mem_append_right _ List.mem_cons_self
  have hdistinct : Table.Distinct file.resources := h.distinct file (hfiles ▸ hmem)
  refine ⟨front, file, back, hfiles, hbefore, hholds, ?_⟩
  have hsame : ∀ others : List FileScope, (∀ other ∈ others, other.resource? key = none) →
      (∀ other ∈ others, other ∈ front ++ file :: back) →
        others.map (FileScope.sifted (onlyAt key keep)) = others := by
    intro others hnone hin
    refine (List.map_congr_left fun other hother => ?_).trans (List.map_id _)
    exact FileScope.sifted_of_absent (hkeyed other (hin other hother)) (hnone other hother)
  unfold sifted
  dsimp only
  rw [hfiles, List.map_append, List.map_cons, FileScope.sifted,
    Table.sifted_onlyAt (hkeyed file hmem) hdistinct hholds,
    hsame front hbefore fun other hother => List.mem_append_left _ hother,
    hsame back hlater fun other hother =>
      List.mem_append_right _ (List.mem_cons_of_mem _ hother)]

theorem update_eq_sifted (h : inventory.OneHome) {change : Resource → Resource}
    (hfound : inventory.resource? key = some found) (hkept : keep found = some (change found)) :
    inventory.update key change = inventory.sifted (onlyAt key keep) := by
  obtain ⟨front, file, back, hfiles, hbefore, hholds, hsifted⟩ := files_onlyAt h keep hfound
  have hupdate : ∀ before : List FileScope, (∀ other ∈ before, other.resource? key = none) →
      updateFirst key change (before ++ file :: back) = before ++
        { file with resources := Table.set file.resources key (change found) } :: back := by
    intro before hnone
    induction before with
    | nil =>
      rw [List.nil_append, updateFirst, hholds]
      rfl
    | cons other rest ih =>
      rw [List.cons_append, updateFirst, hnone other List.mem_cons_self,
        ih fun later hlater => hnone later (List.mem_cons_of_mem _ hlater)]
      rfl
  rw [hkept] at hsifted
  have hall := (congrArg (updateFirst key change) hfiles).trans
    ((hupdate front hbefore).trans hsifted.symm)
  exact congrArg (fun files => { inventory with files := files }) hall

theorem remove_eq_sifted (h : inventory.OneHome) (hfound : inventory.resource? key = some found)
    (hgone : keep found = none) :
    inventory.remove key = inventory.sifted (onlyAt key keep) := by
  obtain ⟨front, file, back, hfiles, hbefore, hholds, hsifted⟩ := files_onlyAt h keep hfound
  have hremove : ∀ before : List FileScope, (∀ other ∈ before, other.resource? key = none) →
      removeFirst key (before ++ file :: back) = before ++
        { file with resources := Table.erase file.resources key } :: back := by
    intro before hnone
    induction before with
    | nil =>
      have hhas : Table.has file.resources key = true := Option.isSome_of_eq_some hholds
      rw [List.nil_append, removeFirst, if_pos hhas]
      rfl
    | cons other rest ih =>
      have hhas : ¬ Table.has other.resources key = true :=
        Option.not_isSome_iff_eq_none.2 (hnone other List.mem_cons_self)
      rw [List.cons_append, removeFirst, if_neg hhas,
        ih fun later hlater => hnone later (List.mem_cons_of_mem _ hlater)]
      rfl
  rw [hgone] at hsifted
  have hall := (congrArg (removeFirst key) hfiles).trans
    ((hremove front hbefore).trans hsifted.symm)
  exact congrArg (fun files => { inventory with files := files }) hall

/-- A sieve that the resource under its key passes unchanged changes nothing. -/
theorem sifted_onlyAt_of_same (h : inventory.OneHome)
    (hkept : ∀ found, inventory.resource? key = some found → keep found = some found) :
    inventory.sifted (onlyAt key keep) = inventory := by
  refine sifted_of_same fun resource hresource => ?_
  unfold onlyAt
  split
  · next hkey => exact hkept resource (h.resource?_eq_some_iff.2 ⟨hresource, hkey⟩)
  · rfl

end Inventory

end Sieves

end Provision

import Provision.Proofs.State.Reached

/-!
# A save that stops

The files of a state are saved one after the other, up to the first that fails.
What stands on the disk then is again the state of an inventory: the files saved
so far, and those of the earlier state at all other paths.
-/

namespace Provision

namespace StateStore

variable {ω : Type} {store : StateStore ω} {world after : ω} {files : List FileScope}

/-- Each state file is written or removed as a whole or is left as it was, no other file changes
with it, and imports can be followed through all the files that are there. -/
structure Atomic (store : StateStore ω) : Prop where
  written : ∀ {path text world after}, store.write (statePath path) text world = (.ok (), after) →
    ∀ other, store.read (statePath other) after =
      if path.same other then .ok (some text) else store.read (statePath other) world
  removed : ∀ {path world after}, store.remove (statePath path) world = (.ok (), after) →
    ∀ other, store.read (statePath other) after =
      if path.same other then .ok none else store.read (statePath other) world
  unwritten : ∀ {path text world e after},
    store.write (statePath path) text world = (.error e, after) →
      ∀ other, store.read (statePath other) after = store.read (statePath other) world
  unremoved : ∀ {path world e after}, store.remove (statePath path) world = (.error e, after) →
    ∀ other, store.read (statePath other) after = store.read (statePath other) world
  reach : ∀ {paths : List Path} {world},
    paths.Pairwise (fun path other => path.same other = false) →
      (∀ path ∈ paths, ∃ text, store.read (statePath path) world = .ok (some text)) →
        paths.length < store.reach world

/-- The files that are saved before the first that fails. -/
def savedFiles (store : StateStore ω) : List FileScope → ω → List FileScope
  | [], _ => []
  | file :: rest, world =>
    match store.saveFile file world with
    | (.error _, _) => []
    | (.ok (), after) => file :: savedFiles store rest after

theorem savedFiles_prefix (store : StateStore ω) (files : List FileScope) (world : ω) :
    store.savedFiles files world <+: files := by
  induction files generalizing world with
  | nil => exact List.prefix_rfl
  | cons file rest ih =>
    unfold savedFiles
    split
    · exact List.nil_prefix
    · exact List.cons_prefix_cons.2 ⟨rfl, ih _⟩

theorem Atomic.read_saveFile (h : store.Atomic) {file : FileScope}
    (hsave : store.saveFile file world = (.ok (), after)) (path : Path) :
    store.read (statePath path) after =
      if file.path.same path then .ok file.recordedText else store.read (statePath path) world := by
  unfold saveFile at hsave
  unfold FileScope.recordedText
  split at hsave
  · next hempty =>
    rw [if_pos hempty]
    exact h.removed hsave path
  · next hoccupied =>
    rw [if_neg hoccupied]
    exact h.written hsave path

theorem Atomic.read_saveFile_failed (h : store.Atomic) {file : FileScope} {e : StateError}
    (hsave : store.saveFile file world = (.error e, after)) (path : Path) :
    store.read (statePath path) after = store.read (statePath path) world := by
  unfold saveFile at hsave
  split at hsave
  · exact h.unremoved hsave path
  · exact h.unwritten hsave path

/-- After a save, whether it has failed or not, each file that was saved reads as it was saved, and
every other one as before. -/
theorem Atomic.read_saveFiles (h : store.Atomic)
    (hapart : files.Pairwise fun file other => file.path.same other.path = false) (path : Path) :
    store.read (statePath path) (store.saveFiles files world).2 =
      match (store.savedFiles files world).find? fun file => file.path.same path with
      | some file => .ok file.recordedText
      | none => store.read (statePath path) world := by
  induction files generalizing world with
  | nil => rfl
  | cons file rest ih =>
    obtain ⟨hfirst, hrest⟩ := List.pairwise_cons.1 hapart
    unfold saveFiles savedFiles
    cases hsave : store.saveFile file world with
    | mk outcome between =>
      cases outcome with
      | error e => exact h.read_saveFile_failed hsave path
      | ok =>
        dsimp only
        rw [List.find?_cons]
        rw [ih hrest, h.read_saveFile hsave path]
        by_cases hsame : file.path.same path = true
        · -- none of the later files has the path
          have hnone : ((store.savedFiles rest between).find? fun file => file.path.same path) =
              none := by
            rw [List.find?_eq_none]
            intro other hother hagain
            have hmem := (store.savedFiles_prefix rest between).subset hother
            have hclash := Path.same_trans hsame (Path.same_comm.1 hagain)
            rw [hfirst other hmem] at hclash
            cases hclash
          rw [hnone, hsame]
          rfl
        · rw [if_neg hsame, Bool.eq_false_iff.2 hsame]

end StateStore

namespace Inventory

variable {old new kept : Inventory} {written : List Path} {path target : Path} {key : Key}
  {resource : Resource}

/-- The files at some paths stand as in the new inventory, all others as in the old one. -/
structure Mixed (old new : Inventory) (written : List Path) (kept : Inventory) : Prop where
  registry : kept.registry = old.registry
  apart : kept.Apart
  look : ∀ path, kept.file? path = if path.isIn written then new.file? path else old.file? path

theorem find?_filter_notIn {files : List FileScope} (h : path.isIn written = false) :
    ((files.filter fun file => !file.path.isIn written).find? fun file => file.path.same path) =
      files.find? fun file => file.path.same path := by
  rw [List.find?_filter]
  congr 1
  funext file
  cases hsame : file.path.same path with
  | false => simp
  | true => simp [Path.isIn_congr hsame, h]

theorem find?_eq_none_iff_isIn {files : List FileScope} :
    (files.find? fun file => file.path.same path) = none ↔
      path.isIn (files.map FileScope.path) = false := by
  rw [List.find?_eq_none, ← Bool.not_eq_true, Path.isIn_iff]
  simp only [List.mem_map, exists_exists_and_eq_and, not_exists, not_and, Path.same_comm]

/-- Some files of the new inventory put in the place of those of the old one. -/
theorem exists_mixed (hold : old.Apart) (hnew : new.Apart) {front : List FileScope}
    (hfront : front <+: new.files) :
    ∃ kept, Mixed old new (front.map FileScope.path) kept ∧
      ∀ path, kept.file? path =
        (front.find? fun file => file.path.same path).or (old.file? path) := by
  obtain ⟨rest, hrest⟩ := hfront
  have hsplit := hnew
  unfold Apart at hsplit
  rw [← hrest, List.pairwise_append] at hsplit
  let kept : Inventory := { old with
    files := front ++ old.files.filter fun file => !file.path.isIn (front.map FileScope.path) }
  have hlook (path : Path) : kept.file? path =
      (front.find? fun file => file.path.same path).or (old.file? path) := by
    show (front ++ _).find? _ = _
    rw [List.find?_append]
    cases hfound : front.find? fun file => file.path.same path with
    | some file => rfl
    | none =>
      rw [find?_filter_notIn (find?_eq_none_iff_isIn.1 hfound)]
      rfl
  refine ⟨kept, ⟨rfl, ?_, fun path => ?_⟩, hlook⟩
  · refine List.pairwise_append.2 ⟨hsplit.1, hold.sublist List.filter_sublist, ?_⟩
    intro file hfile other hother
    have hnot := (List.mem_filter.1 hother).2
    rw [Bool.not_eq_true', ← Bool.not_eq_true, Path.isIn_iff] at hnot
    rw [← Bool.not_eq_true]
    exact fun hsame => hnot ⟨file.path, List.mem_map_of_mem hfile, Path.same_comm.1 hsame⟩
  · rw [hlook]
    cases hfound : front.find? fun file => file.path.same path with
    | none => rw [if_neg (Bool.eq_false_iff.1 (find?_eq_none_iff_isIn.1 hfound)), Option.none_or]
    | some file =>
      have hin : path.isIn (front.map FileScope.path) = true := by
        rw [← Bool.not_eq_false, ← find?_eq_none_iff_isIn, hfound]
        nofun
      rw [if_pos hin, Option.some_or]
      unfold file?
      rw [← hrest, List.find?_append, hfound, Option.some_or]

/-- When a save has stopped, the disk shows the old state with the files saved so far in it. -/
theorem stopped_shows {ω : Type} {store : StateStore ω} {world : ω} (hatomic : store.Atomic)
    (hold : old.Apart) (hnew : new.Apart) (hshows : store.Shows old world) :
    ∃ kept, Mixed old new ((store.savedFiles new.files world).map FileScope.path) kept ∧
      store.Shows kept (store.save new world).2 := by
  obtain ⟨kept, hkept, hlook⟩ := exists_mixed hold hnew (store.savedFiles_prefix new.files world)
  refine ⟨kept, hkept, fun path => ?_⟩
  unfold StateStore.save
  rw [hatomic.read_saveFiles hnew, hlook]
  cases (store.savedFiles new.files world).find? fun file => file.path.same path with
  | some file => rfl
  | none => exact hshows path

/-- The files that a disk shows are fewer than its reach. -/
theorem recorded_length_lt {ω : Type} {store : StateStore ω} {world : ω} (hatomic : store.Atomic)
    (hkept : kept.Apart) (hshows : store.Shows kept world) :
    kept.recorded.length < store.reach world := by
  rw [← List.length_map (f := FileScope.path)]
  refine hatomic.reach (List.pairwise_map.2 (hkept.sublist List.filter_sublist)) ?_
  refine List.forall_mem_map.2 fun file hfile => ?_
  obtain ⟨hmem, hoccupied⟩ := List.mem_filter.1 hfile
  refine ⟨stateText file, ?_⟩
  rw [hshows, hkept.file?_eq hmem, Option.bind_some, FileScope.recordedText,
    if_neg (by simpa using hoccupied)]

/-! ## What is left of two inventories -/

section Mixing

variable (h : Mixed old new written kept)
include h

theorem Mixed.mem_files {file : FileScope} (hfile : file ∈ kept.files) :
    file ∈ new.files ∨ file ∈ old.files := by
  have hlook := h.look file.path
  rw [h.apart.file?_eq hfile] at hlook
  split at hlook
  · exact Or.inl (file?_eq_some hlook.symm).1
  · exact Or.inr (file?_eq_some hlook.symm).1

theorem Mixed.holds_iff (hold : old.Apart) (hnew : new.Apart) :
    kept.Holds path key resource ↔
      if path.isIn written then new.Holds path key resource else old.Holds path key resource := by
  rw [h.apart.holds_iff, h.look]
  split
  · exact hnew.holds_iff.symm
  · exact hold.holds_iff.symm

theorem Mixed.imports_iff :
    kept.Imports path target ↔
      if path.isIn written then new.Imports path target else old.Imports path target := by
  unfold Imports
  rw [h.look]
  split <;> rfl

/-- Whatever both inventories could record of files and resources is recorded of the mixed one. -/
theorem Mixed.writable (hold : old.Writable) (hnew : new.Writable)
    (hregistry : new.registry = old.registry)
    (honce : ∀ {key path place resource found}, kept.Holds path key resource →
      kept.Holds place key found → path.same place = true) :
    kept.Writable := by
  obtain ⟨hframed, htakes⟩ := writable_iff.1 hold
  obtain ⟨hnewFramed, hnewTakes⟩ := writable_iff.1 hnew
  have hkeyed : kept.Keyed := fun file hfile => (h.mem_files hfile).elim
    (hnew.oneHome.keyed file) (hold.oneHome.keyed file)
  have hdistinct : kept.Distinct := fun file hfile => (h.mem_files hfile).elim
    (hnew.oneHome.distinct file) (hold.oneHome.distinct file)
  have hnewRegistry : kept.registry = new.registry := h.registry.trans hregistry.symm
  refine writable_iff.2 ⟨⟨h.registry ▸ hframed.named,
    oneHome_of_apart h.apart hkeyed hdistinct honce, h.apart, fun file hfile => ?_⟩, ?_⟩
  · rcases h.mem_files hfile with hfile | hfile
    · exact (hnewFramed.files file hfile).of_registry hnewRegistry
    · exact (hframed.files file hfile).of_registry h.registry
  · intro resource hresource
    obtain ⟨file, hfile, hmem⟩ := List.mem_flatMap.1 hresource
    unfold Takes
    rcases h.mem_files hfile with hfile | hfile
    · rw [hnewRegistry]
      exact hnewTakes resource (List.mem_flatMap.2 ⟨file, hfile, hmem⟩)
    · rw [h.registry]
      exact htakes resource (List.mem_flatMap.2 ⟨file, hfile, hmem⟩)

end Mixing

end Inventory

/-! ## A store in memory -/

/-- The texts of some state files, by the configuration files they belong to.  Some of them cannot
be changed. -/
structure Shelf where
  texts : List (Path × String) := []
  stuck : List Path := []

namespace Shelf

variable {shelf : Shelf} {path other : Path} {text : String}

/-- The configuration file that a state file belongs to. -/
def owner (path : Path) : Path :=
  ⟨String.ofList (path.text.toList.take (path.text.toList.length - ".state".toList.length))⟩

theorem owner_statePath (path : Path) : owner (statePath path) = path := by
  unfold owner statePath
  dsimp only
  rw [String.toList_append, List.length_append, Nat.add_sub_cancel, List.take_left,
    String.ofList_toList]

/-- The text for a configuration file. -/
def text? (shelf : Shelf) (path : Path) : Option String :=
  (shelf.texts.find? fun entry => entry.1.same path).map Prod.snd

/-- Takes away the text for a configuration file. -/
def without (shelf : Shelf) (path : Path) : Shelf :=
  { shelf with texts := shelf.texts.filter fun entry => !entry.1.same path }

/-- Puts a text in the place of the one for a configuration file. -/
def put (shelf : Shelf) (path : Path) (text : String) : Shelf :=
  { shelf with texts := (path, text) :: (shelf.without path).texts }

theorem text?_without (shelf : Shelf) (path other : Path) :
    (shelf.without path).text? other = if path.same other then none else shelf.text? other := by
  unfold without text?
  dsimp only
  rw [List.find?_filter]
  by_cases hsame : path.same other = true
  · rw [if_pos hsame, Option.map_eq_none_iff, List.find?_eq_none]
    intro entry _ hfound
    obtain ⟨hnot, hother⟩ := of_decide_eq_true hfound
    rw [Path.same_trans hother (Path.same_comm.1 hsame)] at hnot
    cases hnot
  · rw [if_neg hsame]
    congr 2
    funext entry
    cases hentry : entry.1.same other with
    | false => simp
    | true =>
      have hpath : entry.1.same path = false := by
        rw [← Bool.not_eq_true]
        exact fun hpath => hsame (Path.same_trans (Path.same_comm.1 hpath) hentry)
      simp [hpath]

theorem text?_put (shelf : Shelf) (path : Path) (text : String) (other : Path) :
    (shelf.put path text).text? other =
      if path.same other then some text else shelf.text? other := by
  unfold put text?
  dsimp only
  rw [List.find?_cons]
  have hwithout := shelf.text?_without path other
  unfold text? at hwithout
  by_cases hsame : path.same other = true
  · rw [hsame]
    rfl
  · rw [Bool.eq_false_iff.2 hsame]
    dsimp only
    rw [hwithout, if_neg hsame]
    rfl

/-- The state files on a shelf. -/
def store : StateStore Shelf where
  read path shelf := .ok (shelf.text? (owner path))
  write path text shelf :=
    if (owner path).isIn shelf.stuck then (.error (.write path), shelf)
    else (.ok (), shelf.put (owner path) text)
  remove path shelf :=
    if (owner path).isIn shelf.stuck then (.error (.remove path), shelf)
    else (.ok (), shelf.without (owner path))
  reach shelf := shelf.texts.length + 1

/-- Paths that all have texts are no more than these. -/
theorem length_le_texts {paths : List Path}
    (hapart : paths.Pairwise fun path other => path.same other = false)
    (htexts : ∀ path ∈ paths, ∃ text, shelf.text? path = some text) :
    paths.length ≤ shelf.texts.length := by
  let entry (path : Path) : Path × String :=
    (shelf.texts.find? fun entry => entry.1.same path).getD (path, "")
  have hentry : ∀ path ∈ paths, entry path ∈ shelf.texts ∧ (entry path).1.same path = true := by
    intro path hpath
    obtain ⟨text, htext⟩ := htexts path hpath
    obtain ⟨found, hfound, -⟩ := Option.map_eq_some_iff.1 htext
    have heq : entry path = found := congrArg (Option.getD · (path, "")) hfound
    rw [heq]
    have hsame := List.find?_some hfound
    exact ⟨List.mem_of_find?_eq_some hfound, hsame⟩
  have hnodup : (paths.map entry).Nodup := by
    refine List.pairwise_map.2 (hapart.imp_of_mem fun {path other} hpath hother hfalse heq => ?_)
    have hsame := Path.same_trans (Path.same_comm.1 (hentry path hpath).2)
      (heq ▸ (hentry other hother).2)
    rw [hfalse] at hsame
    cases hsame
  have hsub : paths.map entry ⊆ shelf.texts := by
    intro found hfound
    obtain ⟨path, hpath, rfl⟩ := List.mem_map.1 hfound
    exact (hentry path hpath).1
  rw [← List.length_map (f := entry)]
  exact (List.subperm_of_subset hnodup hsub).length_le

theorem store_atomic : store.Atomic where
  written := by
    intro path text shelf after hwrite other
    unfold store at hwrite ⊢
    dsimp only at hwrite ⊢
    rw [owner_statePath] at hwrite ⊢
    split at hwrite
    · cases hwrite
    · cases hwrite
      rw [text?_put]
      split <;> rfl
  removed := by
    intro path shelf after hremove other
    unfold store at hremove ⊢
    dsimp only at hremove ⊢
    rw [owner_statePath] at hremove ⊢
    split at hremove
    · cases hremove
    · cases hremove
      rw [text?_without]
      split <;> rfl
  unwritten := by
    intro path text shelf e after hwrite other
    unfold store at hwrite
    dsimp only at hwrite
    split at hwrite <;> cases hwrite
    rfl
  unremoved := by
    intro path shelf e after hremove other
    unfold store at hremove
    dsimp only at hremove
    split at hremove <;> cases hremove
    rfl
  reach := by
    intro paths shelf hapart htexts
    refine Nat.lt_succ_of_le (length_le_texts hapart fun path hpath => ?_)
    obtain ⟨text, htext⟩ := htexts path hpath
    unfold store at htext
    dsimp only at htext
    rw [owner_statePath] at htext
    exact ⟨text, Except.ok.inj htext⟩

end Shelf

/-- A shelf with the state of an inventory. -/
def Inventory.shelf (inventory : Inventory) (stuck : List Path) : Shelf where
  texts := inventory.recorded.map fun file => (file.path, stateText file)
  stuck := stuck

theorem Inventory.shelf_shows {inventory : Inventory} (h : inventory.Apart) (stuck : List Path) :
    Shelf.store.Shows inventory (inventory.shelf stuck) := by
  intro path
  have hunique {file : FileScope} (hfile : file ∈ inventory.files)
      (hsame : file.path.same path = true) : inventory.file? path = some file :=
    (inventory.file?_congr hsame).symm.trans (h.file?_eq hfile)
  show Except.ok (Shelf.text? (inventory.shelf stuck) (Shelf.owner (statePath path))) = _
  rw [Shelf.owner_statePath]
  unfold Shelf.text? Inventory.shelf
  dsimp only
  rw [List.find?_map, Option.map_map]
  congr 1
  show (inventory.recorded.find? fun file => file.path.same path).map stateText = _
  cases hfound : inventory.recorded.find? fun file => file.path.same path with
  | some file =>
    obtain ⟨hmem, hoccupied⟩ := List.mem_filter.1 (List.mem_of_find?_eq_some hfound)
    have hsame := List.find?_some hfound
    rw [hunique hmem hsame, Option.bind_some, FileScope.recordedText,
      if_neg (by simpa using hoccupied), Option.map_some]
  | none =>
    cases hfile : inventory.file? path with
    | none => rfl
    | some file =>
      obtain ⟨hmem, hsame⟩ := file?_eq_some hfile
      have hempty : file.isEmpty = true := by
        by_contra hoccupied
        refine List.find?_eq_none.1 hfound file (List.mem_filter.2 ⟨hmem, ?_⟩) hsame
        simpa using hoccupied
      rw [Option.bind_some, FileScope.recordedText, if_pos hempty]
      rfl

end Provision

import Provision.Disk
import Provision.Proofs.Canonical
import Provision.Proofs.Evaluation.Handles

/-!
# Disks without links

Where no links are, a canonical path leads to the place that its names tell.  So
the files that can be read under such paths are entries of the disk, and there is
no more than one path for each.
-/

namespace Provision

open Provision.Path (IsName named ofComponents)

namespace Disk

/-- There are no links on the disk. -/
def LinkFree (disk : Disk) : Prop :=
  ∀ entry ∈ disk.entries, ∀ target, entry.2 ≠ .link target

variable {disk : Disk} {place found : Place} {entry : DiskEntry} {path : Path}

theorem entry?_nil (disk : Disk) : disk.entry? [] = some .directory := rfl

theorem entry?_eq_some (h : disk.entry? place = some entry) :
    place = [] ∧ entry = .directory ∨ (place, entry) ∈ disk.entries := by
  unfold entry? at h
  split at h
  · next hempty =>
    cases h
    exact Or.inl ⟨List.isEmpty_iff.1 hempty, rfl⟩
  · exact Or.inr (Table.mem_of_get? h)

theorem LinkFree.entry?_ne (h : disk.LinkFree) (place : Place) (target : String) :
    disk.entry? place ≠ some (.link target) := by
  intro hentry
  rcases entry?_eq_some hentry with ⟨-, hdirectory⟩ | hmem
  · cases hdirectory
  · exact h _ hmem target rfl

/-- A walk along names ends at the place that they tell. -/
theorem LinkFree.walk_eq_found (h : disk.LinkFree) {ending : Ending} {slash : Bool}
    {onLink : OnLink} {names : List FileName} (hnames : ∀ name ∈ names, IsName name)
    (hplace : disk.entry? place = some .directory)
    (hwalk : disk.walk ending slash onLink place names = .ok (.found found entry)) :
    found = place ++ names ∧ disk.entry? found = some entry := by
  induction names generalizing place with
  | nil =>
    cases hwalk
    exact ⟨(List.append_nil _).symm, hplace⟩
  | cons name rest ih =>
    have hname := hnames name List.mem_cons_self
    have hrest : ∀ name ∈ rest, IsName name := fun name hmem =>
      hnames name (List.mem_cons_of_mem _ hmem)
    rw [walk, if_neg hname.ne_here, if_neg hname.ne_up] at hwalk
    dsimp only at hwalk
    split at hwalk
    · cases hwalk
    · split at hwalk
      · cases hwalk
      · split at hwalk
        · split at hwalk <;> cases hwalk
        · next hdirectory =>
          obtain ⟨hfound, hentry⟩ := ih hrest hdirectory hwalk
          exact ⟨by rw [hfound, List.append_assoc]; rfl, hentry⟩
        · next hfile =>
          split at hwalk
          · next hlast =>
            cases hwalk
            rw [Bool.and_eq_true, List.isEmpty_iff] at hlast
            rw [hlast.1]
            exact ⟨rfl, hfile⟩
          · cases hwalk
        · next target htarget => exact absurd htarget (h.entry?_ne _ target)

theorem walkLinks_eq_walk (disk : Disk) (ending : Ending) (links : Nat) (slash : Bool)
    (place : Place) (names : List FileName) :
    ∃ onLink, disk.walkLinks ending links slash place names =
      disk.walk ending slash onLink place names := by
  cases links with
  | zero => exact ⟨_, rfl⟩
  | succ links => exact ⟨_, rfl⟩

theorem pathOf_eq (place : Place) : pathOf place = ofComponents (.root :: named place) := by
  unfold pathOf ofComponents
  rw [Path.textOf]
  simp [named, Path.Component.text, Function.comp_def]

theorem segments_pathOf {names : List FileName} (hnames : ∀ name ∈ names, IsName name) :
    segments (pathOf names).text.toList = names := by
  unfold segments pathOf
  rw [String.toList_ofList]
  cases names with
  | nil => rfl
  | cons name rest =>
    have hsplit : Text.split '/' ('/' :: Text.join ['/'] (name :: rest)) = [] :: name :: rest := by
      rw [Text.split, if_pos rfl,
        Text.split_join (List.cons_ne_nil _ _) fun piece hmem => (hnames piece hmem).unsplit]
    rw [hsplit, List.filter_cons_of_neg (by simp), List.filter_eq_self]
    intro piece hpiece
    rw [Bool.not_eq_true', List.isEmpty_eq_false_iff]
    exact (hnames piece hpiece).ne_nil

/-- Looking up a canonical path finds what is at the place of its names. -/
theorem LinkFree.locate_eq_found (h : disk.LinkFree) {names : List FileName}
    (hnames : ∀ name ∈ names, IsName name) {ending : Ending}
    (hlocate : disk.locate ending (pathOf names) = .ok (.found found entry)) :
    found = names ∧ disk.entry? found = some entry := by
  unfold locate locateNames at hlocate
  obtain ⟨-, -, hlinks⟩ := bind_eq_ok.1 hlocate
  obtain ⟨onLink, hwalk⟩ := disk.walkLinks_eq_walk ending linkLimit
    (endsWithSlash (pathOf names).text.toList) [] names
  have habsolute : (pathOf names).isAbsolute = true := pathOf_eq names ▸ Path.isAbsolute_rooted _
  rw [if_pos habsolute, segments_pathOf hnames, hwalk] at hlinks
  exact h.walk_eq_found hnames disk.entry?_nil hlinks

/-- A canonical path of a file that can be read is the place of an entry, and stays as it is. -/
theorem LinkFree.readText?_eq_some (h : disk.LinkFree) (hpath : path.Canonical) {text : String}
    (hread : disk.readText? path = some text) :
    disk.canonical? path = .ok path ∧ path ≠ ⟨"/"⟩ ∧ path ∈ disk.entries.keys.map pathOf := by
  obtain ⟨names, hnames, rfl⟩ := hpath.eq_rooted
  rw [← pathOf_eq] at hread ⊢
  unfold readText? read inspect at hread
  cases hlocate : disk.locate .target (pathOf names) with
  | error e =>
    rw [hlocate] at hread
    cases hread
  | ok located =>
    rw [hlocate] at hread
    cases located with
    | vacant place slash => cases hread
    | found place entry =>
      obtain ⟨rfl, hentry⟩ := h.locate_eq_found hnames hlocate
      have hfile : entry ≠ .directory := by
        rintro rfl
        cases hread
      have hmem : (place, entry) ∈ disk.entries :=
        (entry?_eq_some hentry).resolve_left fun hroot => hfile hroot.2
      refine ⟨?_, ?_, List.mem_map_of_mem (List.mem_map_of_mem hmem)⟩
      · unfold canonical?
        rw [hlocate]
      · intro hroot
        have hplace : segments (pathOf place).text.toList = [] := by
          rw [hroot]
          rfl
        rw [segments_pathOf hnames] at hplace
        subst hplace
        exact hfile (Option.some.inj hentry).symm

theorem length_entries_lt_reach (disk : Disk) : disk.entries.length < disk.reach := by
  unfold reach linkLimit
  omega

end Disk

end Provision

import Mathlib.Logic.Relation
import Provision.Imports
import Provision.Proofs.Inventory.Holding
import Provision.Proofs.Outcome

/-!
# What imports lead to

The imports of the files of an inventory make a graph of paths.  Following
imports from a root reads every file that the graph leads to, however the
imports branch and wherever they run in a circle, as long as there are more
rounds than files.
-/

namespace Provision

open Provision.Language (SourceFile)

theorem Path.same_refl (path : Path) : path.same path = true :=
  Path.same_iff.2 rfl

theorem Path.same_trans {a b c : Path} (hab : a.same b = true) (hbc : b.same c = true) :
    a.same c = true :=
  (Path.same_congr hab c).2 hbc

theorem Path.isIn_iff {path : Path} {paths : List Path} :
    path.isIn paths = true ↔ ∃ other ∈ paths, path.same other = true :=
  List.any_eq_true

theorem Path.isIn_of_mem {path : Path} {paths : List Path} (h : path ∈ paths) :
    path.isIn paths = true :=
  Path.isIn_iff.2 ⟨path, h, path.same_refl⟩

theorem Path.isIn_congr {path other : Path} (h : path.same other = true) (paths : List Path) :
    path.isIn paths = other.isIn paths := by
  apply Bool.eq_iff_iff.2
  rw [Path.isIn_iff, Path.isIn_iff]
  exact exists_congr fun third => and_congr_right fun _ => Path.same_congr h third

theorem Path.isIn_cons {path first : Path} {rest : List Path} :
    path.isIn (first :: rest) = true ↔ path.same first = true ∨ path.isIn rest = true := by
  unfold Path.isIn
  rw [List.any_cons, Bool.or_eq_true]

theorem Path.isIn_append {path : Path} {front back : List Path} :
    path.isIn (front ++ back) = true ↔ path.isIn front = true ∨ path.isIn back = true := by
  unfold Path.isIn
  rw [List.any_append, Bool.or_eq_true]

namespace Inventory

variable {inventory : Inventory} {path other target root : Path}

theorem file?_congr (inventory : Inventory) (h : path.same other = true) :
    inventory.file? path = inventory.file? other := by
  unfold file?
  congr 1
  funext file
  apply Bool.eq_iff_iff.2
  rw [Path.same_comm, Path.same_congr h, Path.same_comm]

theorem file?_eq_some {file : FileScope} (h : inventory.file? path = some file) :
    file ∈ inventory.files ∧ file.path.same path = true := by
  unfold file? at h
  have hsame := List.find?_some h
  exact ⟨List.mem_of_find?_eq_some h, hsame⟩

/-- The file with the path imports the target. -/
def Imports (inventory : Inventory) (path target : Path) : Prop :=
  ∃ file, inventory.file? path = some file ∧ target.isIn file.imports = true

/-- The file with the path imports the target, or the target is another spelling of the path. -/
def Leads (inventory : Inventory) (path target : Path) : Prop :=
  path.same target = true ∨ inventory.Imports path target

/-- Imports lead from the root to the path, from file to file. -/
def ImportsReach (inventory : Inventory) (root path : Path) : Prop :=
  Relation.ReflTransGen inventory.Leads root path

/-- The file with the path holds a resource. -/
def Populated (inventory : Inventory) (path : Path) : Prop :=
  ∃ file, inventory.file? path = some file ∧ file.resources ≠ []

/-- The file with the path has something that is recorded: a resource or an import. -/
def Occupied (inventory : Inventory) (path : Path) : Prop :=
  ∃ file, inventory.file? path = some file ∧ file.isEmpty = false

theorem occupied_iff :
    inventory.Occupied path ↔ inventory.Populated path ∨ ∃ target, inventory.Imports path target := by
  have hfile (file : FileScope) : file.isEmpty = false ↔
      file.resources ≠ [] ∨ ∃ target : Path, target.isIn file.imports = true := by
    unfold FileScope.isEmpty
    rw [Bool.and_eq_false_iff, List.isEmpty_eq_false_iff, List.isEmpty_eq_false_iff]
    refine or_congr_right ⟨fun himports => ?_, ?_⟩
    · obtain ⟨target, htarget⟩ := List.exists_mem_of_ne_nil _ himports
      exact ⟨target, Path.isIn_of_mem htarget⟩
    · rintro ⟨target, htarget⟩
      obtain ⟨first, hfirst, -⟩ := Path.isIn_iff.1 htarget
      exact List.ne_nil_of_mem hfirst
  unfold Occupied Populated Imports
  constructor
  · rintro ⟨file, hfound, hoccupied⟩
    rcases (hfile file).1 hoccupied with hresources | ⟨target, htarget⟩
    · exact Or.inl ⟨file, hfound, hresources⟩
    · exact Or.inr ⟨target, file, hfound, htarget⟩
  · rintro (⟨file, hfound, hresources⟩ | ⟨target, file, hfound, htarget⟩)
    · exact ⟨file, hfound, (hfile file).2 (Or.inl hresources)⟩
    · exact ⟨file, hfound, (hfile file).2 (Or.inr ⟨target, htarget⟩)⟩

theorem imports_congr (h : path.same other = true) :
    inventory.Imports path target ↔ inventory.Imports other target := by
  unfold Imports
  rw [inventory.file?_congr h]

theorem occupied_congr (h : path.same other = true) :
    inventory.Occupied path ↔ inventory.Occupied other := by
  unfold Occupied
  rw [inventory.file?_congr h]

/-! ## Reading along imports -/

/-- Reading gives back, for each file that has something recorded, a source with the imports of
that file, and passes over all other paths. -/
structure ReadsBack {ε : Type} (inventory : Inventory)
    (read : Path → Except ε (Option SourceFile)) : Prop where
  vacant : ∀ path, ¬ inventory.Occupied path → read path = .ok none
  occupied : ∀ path, inventory.Occupied path → ∃ source, read path = .ok (some source) ∧
    ∀ target, target.isIn (importTargets path source) = true ↔ inventory.Imports path target

/-- The files with something recorded that are not among those seen. -/
def unread (inventory : Inventory) (seen : List Path) : List FileScope :=
  inventory.files.filter fun file => !file.isEmpty && !file.path.isIn seen

section Following

variable {ε : Type} {read : Path → Except ε (Option SourceFile)}

/-- The path has nothing recorded, or its source is among those given and the imports of that
source are among the targets. -/
def ReadInto (inventory : Inventory) (read : Path → Except ε (Option SourceFile))
    (sources : List SourceFile) (targets : List Path) (path : Path) : Prop :=
  ¬ inventory.Occupied path ∨
    ∃ source ∈ sources, ∃ spelled : Path, spelled.same path = true ∧
      read spelled = .ok (some source) ∧
      ∀ target, inventory.Imports path target → target.isIn targets = true

theorem ReadInto.mono {sources more : List SourceFile} {targets further : List Path}
    (h : inventory.ReadInto read sources targets path)
    (hsources : ∀ source ∈ sources, source ∈ more)
    (htargets : ∀ target : Path, target.isIn targets = true → target.isIn further = true) :
    inventory.ReadInto read more further path := by
  refine h.imp_right ?_
  rintro ⟨source, hsource, spelled, hsame, hread, himports⟩
  exact ⟨source, hsources source hsource, spelled, hsame, hread,
    fun target htarget => htargets target (himports target htarget)⟩

/-- What reading a list of paths amounts to. -/
structure ReadsAll (inventory : Inventory) (read : Path → Except ε (Option SourceFile))
    (paths seen : List Path) (found : ReadFiles) : Prop where
  sees : ∀ path : Path, path.isIn found.seen = true ↔
    path.isIn paths = true ∨ path.isIn seen = true
  reads : ∀ path : Path, path.isIn found.seen = true → path.isIn seen = false →
    inventory.ReadInto read found.files found.targets path
  /-- Whenever something was read, a file that was not seen before is seen now. -/
  progress : found.files ≠ [] → ∃ path : Path, inventory.Occupied path ∧
    path.isIn found.seen = true ∧ path.isIn seen = false
  idle : found.files = [] → found.targets = []

theorem readFiles_readsAll (h : inventory.ReadsBack read) (paths seen : List Path) :
    ∃ found, readFiles read paths seen = .ok found ∧ inventory.ReadsAll read paths seen found := by
  induction paths generalizing seen with
  | nil =>
    refine ⟨_, rfl, ?_, ?_, fun hne => absurd rfl hne, fun _ => rfl⟩
    · intro path
      exact ⟨Or.inr, fun hin => hin.resolve_left Bool.false_ne_true⟩
    · intro path hin hnot
      exact absurd hin (Bool.eq_false_iff.1 hnot)
  | cons first rest ih =>
    unfold readFiles
    by_cases hseen : first.isIn seen = true
    · rw [if_pos hseen]
      obtain ⟨found, hrun, hfound⟩ := ih seen
      refine ⟨found, hrun, ?_, hfound.reads, hfound.progress, hfound.idle⟩
      intro path
      have hfirst : path.same first = true → path.isIn seen = true := fun hsame =>
        (Path.isIn_congr hsame seen).trans hseen
      rw [hfound.sees, Path.isIn_cons]
      tauto
    · rw [if_neg hseen]
      obtain ⟨later, hrun, hlater⟩ := ih (seen ++ [first])
      have hsees (path : Path) : path.isIn later.seen = true ↔
          path.isIn (first :: rest) = true ∨ path.isIn seen = true := by
        rw [hlater.sees, Path.isIn_append, Path.isIn_cons, Path.isIn_cons]
        have hnil : path.isIn [] = false := rfl
        rw [hnil]
        tauto
      have hunseen {path : Path} (hnot : path.isIn seen = false) (hother : ¬ path.same first = true) :
          path.isIn (seen ++ [first]) = false := by
        rw [← Bool.not_eq_true, Path.isIn_append, Path.isIn_cons]
        rintro (hin | hsame | hin)
        · exact Bool.eq_false_iff.1 hnot hin
        · exact hother hsame
        · exact Bool.false_ne_true hin
      by_cases hoccupied : inventory.Occupied first
      · obtain ⟨source, hread, himports⟩ := h.occupied first hoccupied
        refine ⟨⟨source :: later.files, importTargets first source ++ later.targets, later.seen⟩,
          ?_, hsees, ?_, ?_, fun hnil => absurd hnil (List.cons_ne_nil _ _)⟩
        · rw [hread, ok_bind, hrun, ok_bind]
        · intro path hin hnot
          by_cases hsame : path.same first = true
          · refine Or.inr ⟨source, List.mem_cons_self, first, Path.same_comm.1 hsame, hread, ?_⟩
            intro target htarget
            exact Path.isIn_append.2 (Or.inl ((himports target).2 ((imports_congr hsame).1 htarget)))
          · exact (hlater.reads path hin (hunseen hnot hsame)).mono
              (fun _ => List.mem_cons_of_mem _)
              fun target htarget => Path.isIn_append.2 (Or.inr htarget)
        · intro _
          exact ⟨first, hoccupied, (hsees first).2 (Or.inl (Path.isIn_of_mem List.mem_cons_self)),
            Bool.eq_false_iff.2 hseen⟩
      · refine ⟨later, ?_, hsees, ?_, ?_, hlater.idle⟩
        · rw [h.vacant first hoccupied, ok_bind, hrun, ok_bind]
        · intro path hin hnot
          by_cases hsame : path.same first = true
          · exact Or.inl ((occupied_congr hsame).not.2 hoccupied)
          · exact hlater.reads path hin (hunseen hnot hsame)
        · intro hne
          obtain ⟨path, hpath, hin, hnot⟩ := hlater.progress hne
          refine ⟨path, hpath, hin, ?_⟩
          rw [← Bool.not_eq_true, Path.isIn_append, not_or] at hnot
          exact Bool.eq_false_iff.2 hnot.1

/-- Whatever is seen later leaves no more unread, and less when a file was not seen before. -/
theorem length_unread_lt {seen later : List Path} {path : Path}
    (hmono : ∀ path : Path, path.isIn seen = true → path.isIn later = true)
    (hoccupied : inventory.Occupied path) (hnew : path.isIn seen = false)
    (hlater : path.isIn later = true) :
    (inventory.unread later).length < (inventory.unread seen).length := by
  have hsplit : inventory.unread later =
      (inventory.unread seen).filter fun file => !file.path.isIn later := by
    unfold unread
    rw [List.filter_filter]
    apply List.filter_congr
    intro file _
    have := hmono file.path
    cases hold : file.path.isIn seen <;> cases hnow : file.path.isIn later <;> simp_all
  obtain ⟨file, hfile, hkept⟩ := hoccupied
  obtain ⟨hmem, hsame⟩ := file?_eq_some hfile
  rw [hsplit]
  apply List.length_filter_lt_length_iff_exists.2
  refine ⟨file, List.mem_filter.2 ⟨hmem, ?_⟩, ?_⟩
  · rw [hkept, Path.isIn_congr hsame, hnew]
    rfl
  · rw [Path.isIn_congr hsame, hlater]
    decide

/-- With enough rounds the paths and all that their imports lead to are read. -/
theorem followImports_closed (h : inventory.ReadsBack read) {rounds : Nat} (paths seen : List Path)
    (hrounds : (inventory.unread seen).length < rounds) :
    ∃ sources final, followImports read rounds paths seen = .ok sources ∧
      (∀ path : Path, path.isIn paths = true ∨ path.isIn seen = true → path.isIn final = true) ∧
      ∀ path : Path, path.isIn final = true → path.isIn seen = false →
        inventory.ReadInto read sources final path := by
  induction rounds generalizing paths seen with
  | zero => exact absurd hrounds (Nat.not_lt_zero _)
  | succ rounds ih =>
    unfold followImports
    cases paths with
    | nil =>
      refine ⟨[], seen, rfl, fun path hin => hin.resolve_left Bool.false_ne_true, ?_⟩
      intro path hin hnot
      exact absurd hin (Bool.eq_false_iff.1 hnot)
    | cons first rest =>
      rw [List.isEmpty_cons, if_neg Bool.false_ne_true]
      obtain ⟨found, hrun, hfound⟩ := readFiles_readsAll h (first :: rest) seen
      rw [hrun, ok_bind]
      by_cases hfiles : found.files = []
      · -- Nothing was read, so there is nothing to follow, in however many rounds.
        have hnext : followImports read rounds found.targets found.seen = .ok [] := by
          rw [hfound.idle hfiles]
          cases rounds <;> rfl
        rw [hnext, ok_bind, hfiles]
        refine ⟨[], found.seen, rfl, fun path => (hfound.sees path).2, ?_⟩
        intro path hin hnot
        refine Or.inl ((hfound.reads path hin hnot).resolve_right ?_)
        rintro ⟨source, hsource, -⟩
        rw [hfiles] at hsource
        cases hsource
      · obtain ⟨path, hoccupied, hlater, hnew⟩ := hfound.progress hfiles
        have hless := length_unread_lt (fun path hin => (hfound.sees path).2 (Or.inr hin))
          hoccupied hnew hlater
        obtain ⟨sources, final, hnext, hgrown, hclosed⟩ :=
          ih found.targets found.seen (by omega)
        rw [hnext, ok_bind]
        refine ⟨found.files ++ sources, final, rfl, ?_, ?_⟩
        · intro path hin
          exact hgrown path (Or.inr ((hfound.sees path).2 hin))
        · intro path hin hnot
          by_cases hseen : path.isIn found.seen = true
          · exact (hfound.reads path hseen hnot).mono (fun _ => List.mem_append_left _)
              fun target htarget => hgrown target (Or.inl htarget)
          · exact (hclosed path hin (Bool.eq_false_iff.2 hseen)).mono
              (fun _ => List.mem_append_right _) fun target htarget => htarget

/-- Following imports from some roots reads every file that the imports lead to from one of them. -/
theorem followImports_reaches_from (h : inventory.ReadsBack read) {rounds : Nat}
    (hrounds : (inventory.unread []).length < rounds) (roots : List Path) :
    ∃ sources, followImports read rounds roots [] = .ok sources ∧
      ∀ root ∈ roots, ∀ path, inventory.ImportsReach root path → inventory.Occupied path →
        ∃ source ∈ sources, ∃ spelled : Path, spelled.same path = true ∧
          read spelled = .ok (some source) := by
  obtain ⟨sources, final, hrun, hstart, hclosed⟩ := followImports_closed h roots [] hrounds
  refine ⟨sources, hrun, fun root hroot path hreaches hoccupied => ?_⟩
  have hread (path : Path) (hin : path.isIn final = true) :
      inventory.ReadInto read sources final path := hclosed path hin rfl
  have hfinal : path.isIn final = true := by
    induction hreaches with
    | refl => exact hstart root (Or.inl (Path.isIn_of_mem hroot))
    | @tail between target _ hleads ih =>
      rcases hleads with hsame | himports
      · rw [← Path.isIn_congr hsame]
        exact ih ((occupied_congr hsame).2 hoccupied)
      · have hbetween : inventory.Occupied between := occupied_iff.2 (Or.inr ⟨target, himports⟩)
        rcases hread between (ih hbetween) with hvacant | ⟨-, -, -, -, -, htargets⟩
        · exact absurd hbetween hvacant
        · exact htargets target himports
  rcases hread path hfinal with hvacant | ⟨source, hsource, spelled, hsame, hsourced, -⟩
  · exact absurd hoccupied hvacant
  · exact ⟨source, hsource, spelled, hsame, hsourced⟩

/-- Following imports from a root reads every file that the imports lead to. -/
theorem followImports_reaches (h : inventory.ReadsBack read) {rounds : Nat}
    (hrounds : inventory.files.length < rounds) (root : Path) :
    ∃ sources, followImports read rounds [root] [] = .ok sources ∧
      ∀ path, inventory.ImportsReach root path → inventory.Occupied path →
        ∃ source ∈ sources, ∃ spelled : Path, spelled.same path = true ∧
          read spelled = .ok (some source) := by
  have hunread : (inventory.unread []).length < rounds :=
    Nat.lt_of_le_of_lt (List.length_filter_le _ _) hrounds
  obtain ⟨sources, hrun, hreads⟩ := followImports_reaches_from h hunread [root]
  exact ⟨sources, hrun, hreads root List.mem_cons_self⟩

/-! ## Reading each file once -/

/-- Sources that were read under paths that are all different and not among those seen. -/
structure ReadOnce (read : Path → Except ε (Option SourceFile)) (seen spelled : List Path)
    (sources : List SourceFile) : Prop where
  each : List.Forall₂ (fun path source => read path = .ok (some source)) spelled sources
  apart : spelled.Pairwise fun path other => path.same other = false
  fresh : ∀ path ∈ spelled, path.isIn seen = false

theorem ReadOnce.append {seen later front back : List Path} {sources others : List SourceFile}
    (h : ReadOnce read seen front sources) (hback : ReadOnce read later back others)
    (hmono : ∀ path : Path, path.isIn seen = true → path.isIn later = true)
    (hlater : ∀ path ∈ front, path.isIn later = true) :
    ReadOnce read seen (front ++ back) (sources ++ others) where
  each := List.rel_append h.each hback.each
  apart := by
    refine List.pairwise_append.2 ⟨h.apart, hback.apart, fun path hpath other hother => ?_⟩
    rw [← Bool.not_eq_true]
    intro hsame
    have hseen : other.isIn later = true := (Path.isIn_congr hsame later).symm.trans (hlater path hpath)
    exact Bool.false_ne_true ((hback.fresh other hother).symm.trans hseen)
  fresh := by
    intro path hpath
    rcases List.mem_append.1 hpath with hpath | hpath
    · exact h.fresh path hpath
    · rw [← Bool.not_eq_true]
      intro hseen
      exact Bool.false_ne_true ((hback.fresh path hpath).symm.trans (hmono path hseen))

theorem readFiles_readOnce {paths seen : List Path} {found : ReadFiles}
    (h : readFiles read paths seen = .ok found) :
    ∃ spelled, ReadOnce read seen spelled found.files ∧
      (∀ path : Path, path.isIn seen = true → path.isIn found.seen = true) ∧
      ∀ path ∈ spelled, path.isIn found.seen = true := by
  induction paths generalizing seen found with
  | nil =>
    cases h
    exact ⟨[], ⟨.nil, List.Pairwise.nil, nofun⟩, fun _ => id, nofun⟩
  | cons first rest ih =>
    unfold readFiles at h
    by_cases hseen : first.isIn seen = true
    · rw [if_pos hseen] at h
      exact ih h
    · rw [if_neg hseen] at h
      obtain ⟨answer, hread, h⟩ := bind_eq_ok.1 h
      obtain ⟨later, hlater, h⟩ := bind_eq_ok.1 h
      obtain ⟨spelled, honce, hmono, hspelled⟩ := ih hlater
      have hfirst : ∀ path : Path, path.isIn (seen ++ [first]) = true ↔
          path.isIn seen = true ∨ path.same first = true := by
        intro path
        rw [Path.isIn_append, Path.isIn_cons]
        exact or_congr_right (or_iff_left Bool.false_ne_true)
      have hgrown (path : Path) (hin : path.isIn seen = true) : path.isIn later.seen = true :=
        hmono path ((hfirst path).2 (Or.inl hin))
      have hfreshFirst : ∀ path ∈ [first], path.isIn seen = false :=
        List.forall_mem_singleton.2 (Bool.eq_false_iff.2 hseen)
      have hseenFirst : ∀ path ∈ [first], path.isIn (seen ++ [first]) = true :=
        List.forall_mem_singleton.2 ((hfirst first).2 (Or.inr first.same_refl))
      cases answer with
      | none =>
        cases h
        have hnone : ReadOnce read seen [] [] := ⟨.nil, List.Pairwise.nil, nofun⟩
        exact ⟨spelled, hnone.append honce (fun path hin => (hfirst path).2 (Or.inl hin)) nofun,
          hgrown, hspelled⟩
      | some source =>
        cases h
        have hone : ReadOnce read seen [first] [source] :=
          ⟨.cons hread .nil, List.pairwise_singleton _ _, hfreshFirst⟩
        refine ⟨first :: spelled, hone.append honce (fun path hin => (hfirst path).2 (Or.inl hin))
          hseenFirst, hgrown, ?_⟩
        exact List.forall_mem_cons.2
          ⟨hmono first (hseenFirst first List.mem_cons_self), hspelled⟩

/-- Following imports reads no file twice. -/
theorem followImports_readOnce {rounds : Nat} {paths seen : List Path} {sources : List SourceFile}
    (h : followImports read rounds paths seen = .ok sources) :
    ∃ spelled, ReadOnce read seen spelled sources := by
  induction rounds generalizing paths seen sources with
  | zero =>
    cases h
    exact ⟨[], .nil, List.Pairwise.nil, nofun⟩
  | succ rounds ih =>
    unfold followImports at h
    split at h
    · cases h
      exact ⟨[], .nil, List.Pairwise.nil, nofun⟩
    · obtain ⟨found, hfound, h⟩ := bind_eq_ok.1 h
      obtain ⟨later, hlater, h⟩ := bind_eq_ok.1 h
      cases h
      obtain ⟨front, hfront, hmono, hseen⟩ := readFiles_readOnce hfound
      obtain ⟨back, hback⟩ := ih hlater
      exact ⟨front ++ back, hfront.append hback hmono hseen⟩

end Following

end Inventory

end Provision

import Provision.Proofs.Imports
import Provision.Proofs.State.Kept

/-!
# Recorded files stay within reach

Saving rewrites the imports of one file of the state after the other.  A file
that is no longer imported keeps an import as long as the file behind it has
something recorded, so a chain of such files is never cut before the resource
at its end, in whatever order the files are visited.
-/

namespace Provision

namespace Inventory

variable {pending state : Inventory} {path place target root : Path}

/-! ## The imports of one file -/

theorem find?_modify_first {files : List FileScope} {index : Nat}
    (hindex : (files.findIdx? fun file => file.path.same path) = some index)
    {change : FileScope → FileScope} (hchange : ∀ file, (change file).path = file.path) :
    ((files.modify index change).find? fun file => file.path.same place) =
      if path.same place then (files.find? fun file => file.path.same place).map change
      else files.find? fun file => file.path.same place := by
  induction files generalizing index with
  | nil => cases hindex
  | cons file rest ih =>
    rw [List.findIdx?_cons] at hindex
    by_cases hfirst : file.path.same path = true
    · rw [if_pos hfirst] at hindex
      cases hindex
      rw [List.modify_zero_cons, List.find?_cons, List.find?_cons, hchange file]
      have hplace : file.path.same place = path.same place :=
        Bool.eq_iff_iff.2 (Path.same_congr hfirst place)
      rw [hplace]
      cases path.same place <;> rfl
    · rw [if_neg hfirst] at hindex
      obtain ⟨next, hnext, rfl⟩ := Option.map_eq_some_iff.1 hindex
      rw [List.modify_succ_cons, List.find?_cons, List.find?_cons, ih hnext]
      cases hplace : file.path.same place with
      | false => rfl
      | true =>
        have hother : ¬ path.same place = true := fun hsame =>
          hfirst ((Path.same_congr hplace path).2 (Path.same_comm.1 hsame))
        dsimp only
        rw [if_neg hother]

theorem indexOf?_ensureFile (state : Inventory) (path : Path) :
    (state.ensureFile path).1.indexOf? path = some (state.ensureFile path).2 := by
  unfold ensureFile
  cases hindex : state.indexOf? path with
  | some index => exact hindex
  | none =>
    unfold indexOf? at hindex ⊢
    rw [List.findIdx?_append, hindex]
    simp [List.findIdx?_cons, Path.same_refl]

theorem file?_ensureFile (state : Inventory) (path place : Path) :
    (state.ensureFile path).1.file? place =
      (state.file? place).or (if path.same place then some { path := path } else none) := by
  unfold ensureFile
  cases hindex : state.indexOf? path with
  | some index =>
    dsimp only
    by_cases hsame : path.same place = true
    · obtain ⟨hlt, hfound, -⟩ := List.findIdx?_eq_some_iff_getElem.1 hindex
      have hsome : (state.file? place).isSome = true :=
        List.find?_isSome.2 ⟨_, List.getElem_mem hlt, Path.same_trans hfound hsame⟩
      rw [Option.or_of_isSome hsome]
    · rw [if_neg hsame, Option.or_none]
  | none =>
    unfold file?
    dsimp only
    rw [List.find?_append]
    congr 1
    rw [List.find?_singleton]

/-- Carrying over the declarations of one file changes that file only. -/
theorem file?_carryDeclarations (pending state : Inventory) (path place : Path) :
    ∃ plugins, (carryDeclarations pending state path).file? place =
      if path.same place then
        some { ((state.file? place).getD { path := path }) with
          imports := recordedImports (pending.file? path) (state.file? path) state
          plugins := plugins }
      else state.file? place := by
  refine ⟨(((pending.file? path).or (state.file? path)).map FileScope.plugins).getD [], ?_⟩
  unfold carryDeclarations modifyFile file?
  dsimp only
  rw [find?_modify_first (indexOf?_ensureFile state path)]
  on_goal 2 => exact fun _ => rfl
  have hfile := file?_ensureFile state path place
  unfold file? at hfile
  rw [hfile]
  by_cases hsame : path.same place = true
  · rw [if_pos hsame, if_pos hsame, if_pos hsame]
    cases state.files.find? fun file => file.path.same place <;> rfl
  · rw [if_neg hsame, if_neg hsame, if_neg hsame, Option.or_none]

/-- The imports recorded for a file are those declared, and those recorded before whose file has
something recorded. -/
theorem isIn_recordedImports (pending state : Inventory) (path target : Path) :
    target.isIn (recordedImports (pending.file? path) (state.file? path) state) = true ↔
      pending.Imports path target ∨ state.Imports path target ∧ state.Occupied target := by
  have hpopulated (path : Path) :
      ((state.file? path).any fun file => !file.isEmpty) = true ↔ state.Occupied path := by
    unfold Occupied
    rw [Option.any_eq_true]
    simp only [Bool.not_eq_true']
  have himports (inventory : Inventory) :
      target.isIn (((inventory.file? path).map FileScope.imports).getD []) = true ↔
        inventory.Imports path target := by
    unfold Imports
    cases inventory.file? path with
    | none => simp [Path.isIn]
    | some file => simp
  rw [← himports pending, ← himports state]
  unfold recordedImports
  dsimp only
  generalize ((pending.file? path).map FileScope.imports).getD [] = fresh
  generalize ((state.file? path).map FileScope.imports).getD [] = old
  induction old generalizing fresh with
  | nil => exact ⟨Or.inl, fun hor => hor.resolve_right fun hand => Bool.false_ne_true hand.1⟩
  | cons first rest ih =>
    rw [List.foldl_cons]
    refine (ih _).trans ?_
    rw [Path.isIn_cons]
    by_cases hadded : ((state.file? first).any fun file => !file.isEmpty) = true
    · have hfirst : target.same first = true → state.Occupied target := fun hsame =>
        (occupied_congr hsame).2 ((hpopulated first).1 hadded)
      by_cases hheld : first.isIn fresh = true
      · have hsame : target.same first = true → target.isIn fresh = true := fun hsame =>
          (Path.isIn_congr hsame fresh).trans hheld
        rw [hadded, hheld, Bool.not_true, Bool.and_false, if_neg Bool.false_ne_true]
        tauto
      · rw [hadded, Bool.eq_false_iff.2 hheld, Bool.not_false, Bool.and_true, if_pos rfl,
          Path.isIn_append, Path.isIn_cons]
        have hnil : target.isIn [] = false := rfl
        rw [hnil]
        tauto
    · have hfirst : target.same first = true → ¬ state.Occupied target := fun hsame hoccupied =>
        hadded ((hpopulated first).2 ((occupied_congr hsame).1 hoccupied))
      rw [Bool.eq_false_iff.2 hadded, Bool.false_and, if_neg Bool.false_ne_true]
      tauto

theorem imports_carryDeclarations :
    (carryDeclarations pending state path).Imports place target ↔
      if path.same place then
        pending.Imports place target ∨ state.Imports place target ∧ state.Occupied target
      else state.Imports place target := by
  obtain ⟨plugins, hfile⟩ := file?_carryDeclarations pending state path place
  unfold Imports
  rw [hfile]
  by_cases hsame : path.same place = true
  · rw [if_pos hsame, if_pos hsame]
    simp only [Option.some.injEq, exists_eq_left']
    rw [isIn_recordedImports, imports_congr hsame, @imports_congr state _ _ _ hsame]
    rfl
  · rw [if_neg hsame, if_neg hsame]

theorem populated_carryDeclarations :
    (carryDeclarations pending state path).Populated place ↔ state.Populated place := by
  obtain ⟨plugins, hfile⟩ := file?_carryDeclarations pending state path place
  unfold Populated
  rw [hfile]
  by_cases hsame : path.same place = true
  · rw [if_pos hsame]
    cases state.file? place <;> simp
  · rw [if_neg hsame]

/-! ## All files in turn -/

/-- The recorded imports lead from the path to a file that holds a resource. -/
def Sustains (state : Inventory) (path : Path) : Prop :=
  ∃ last, state.ImportsReach path last ∧ state.Populated last

/-- What carrying over declarations keeps of the state it began with: the files that hold
resources, and each import on the way to one of them. -/
structure Preserves (state later : Inventory) : Prop where
  populated : ∀ path, later.Populated path ↔ state.Populated path
  imports : ∀ path target, state.Imports path target → state.Sustains target →
    later.Imports path target

theorem Sustains.of_leads (hleads : state.Leads path target) (h : state.Sustains target) :
    state.Sustains path := by
  obtain ⟨last, hreaches, hpopulated⟩ := h
  exact ⟨last, Relation.ReflTransGen.head hleads hreaches, hpopulated⟩

/-- A file from which imports lead to a resource has something recorded at any time. -/
theorem Preserves.occupied {later : Inventory} (h : state.Preserves later)
    (hsustains : state.Sustains path) : later.Occupied path := by
  obtain ⟨last, hreaches, hpopulated⟩ := hsustains
  induction hreaches using Relation.ReflTransGen.head_induction_on with
  | refl => exact occupied_iff.2 (Or.inl ((h.populated last).2 hpopulated))
  | head hleads hrest ih =>
    rcases hleads with hsame | himports
    · exact (occupied_congr hsame).2 ih
    · exact occupied_iff.2 (Or.inr ⟨_, h.imports _ _ himports ⟨last, hrest, hpopulated⟩⟩)

theorem Preserves.carryDeclarations {later : Inventory} (h : state.Preserves later) (path : Path) :
    state.Preserves (carryDeclarations pending later path) := by
  constructor
  · intro place
    rw [populated_carryDeclarations, h.populated]
  · intro place target himports hsustains
    have hkept := h.imports place target himports hsustains
    rw [imports_carryDeclarations]
    split
    · exact Or.inr ⟨hkept, h.occupied hsustains⟩
    · exact hkept

theorem preserves_foldl (pending : Inventory) {later : Inventory} (h : state.Preserves later)
    (paths : List Path) :
    state.Preserves (paths.foldl (Provision.carryDeclarations pending) later) := by
  induction paths generalizing later with
  | nil => exact h
  | cons path rest ih => exact ih (h.carryDeclarations path)

theorem preserves_withDeclarations (pending state : Inventory) :
    state.Preserves (withDeclarations pending state) :=
  preserves_foldl pending ⟨fun _ => Iff.rfl, fun _ _ himports _ => himports⟩ _

/-- Once the declarations of a file are carried over they stay. -/
theorem imports_foldl_of_pending {paths : List Path} (himports : pending.Imports place target)
    (h : place.isIn paths = true ∨ state.Imports place target) :
    (paths.foldl (carryDeclarations pending) state).Imports place target := by
  induction paths generalizing state with
  | nil => exact h.resolve_left Bool.false_ne_true
  | cons path rest ih =>
    apply ih
    rw [Path.isIn_cons] at h
    by_cases hsame : path.same place = true
    · refine Or.inr (imports_carryDeclarations.2 ?_)
      rw [if_pos hsame]
      exact Or.inl himports
    · rcases h with (hfirst | hrest) | hheld
      · exact absurd (Path.same_comm.1 hfirst) hsame
      · exact Or.inl hrest
      · refine Or.inr (imports_carryDeclarations.2 ?_)
        rw [if_neg hsame]
        exact hheld

theorem isIn_declarationPaths {file : FileScope} (h : file ∈ pending.files) (state : Inventory) :
    file.path.isIn (declarationPaths pending state) = true := by
  have hfold (files : List FileScope) (paths : List Path) (path : Path)
      (hin : path.isIn paths = true ∨ ∃ file ∈ files, path.same file.path = true) :
      path.isIn (files.foldl (fun paths file =>
        if paths.any fun path => path.same file.path then paths else paths ++ [file.path]) paths)
        = true := by
    induction files generalizing paths with
    | nil => exact hin.resolve_right fun ⟨_, hmem, _⟩ => nomatch hmem
    | cons first rest ih =>
      rw [List.foldl_cons]
      refine ih _ ?_
      rw [List.exists_mem_cons_iff] at hin
      split
      · next hany =>
        obtain ⟨other, hother, hsame⟩ := List.any_eq_true.1 hany
        have hfirst : path.same first.path = true → path.isIn paths = true := fun hpath =>
          Path.isIn_iff.2 ⟨other, hother, Path.same_trans hpath (Path.same_comm.1 hsame)⟩
        tauto
      · rw [Path.isIn_append, Path.isIn_cons]
        tauto
  exact hfold pending.files _ file.path (Or.inr ⟨file, h, file.path.same_refl⟩)

/-- The imports that the configuration declares are all recorded. -/
theorem imports_withDeclarations (himports : pending.Imports path target) (state : Inventory) :
    (withDeclarations pending state).Imports path target := by
  obtain ⟨file, hfile, -⟩ := id himports
  obtain ⟨hmem, hsame⟩ := file?_eq_some hfile
  refine imports_foldl_of_pending himports (Or.inl ?_)
  rw [← Path.isIn_congr hsame]
  exact isIn_declarationPaths hmem state

theorem reaches_withDeclarations (h : pending.ImportsReach root path) (state : Inventory) :
    (withDeclarations pending state).ImportsReach root path :=
  Relation.ReflTransGen.mono (fun _ _ hleads => hleads.imp_right fun himports =>
    imports_withDeclarations himports state) _ _ h

/-- A file of the state or of the configuration leads to the target by an import that is declared
or recorded. -/
def LeadsEither (pending state : Inventory) (path target : Path) : Prop :=
  pending.Leads path target ∨ state.Leads path target

/-- What imports led to, declared or recorded, is reached through the recorded ones afterwards,
when resources are to be found from there. -/
theorem reaches_of_either
    (hpending : ∀ file ∈ pending.files, pending.ImportsReach root file.path)
    (hclosed : ∀ file ∈ pending.files, ∀ target ∈ file.imports, (pending.file? target).isSome)
    (hreaches : Relation.ReflTransGen (LeadsEither pending state) root path)
    (hsustains : state.Sustains path) :
    (withDeclarations pending state).ImportsReach root path := by
  induction hreaches with
  | refl => exact Relation.ReflTransGen.refl
  | @tail between target _ hleads ih =>
    have hsame (hsame : between.same target = true) :
        (withDeclarations pending state).ImportsReach root target :=
      (ih (hsustains.of_leads (Or.inl hsame))).tail (Or.inl hsame)
    rcases hleads with (hspelled | ⟨file, hfile, htarget⟩) | hspelled | himports
    · exact hsame hspelled
    · -- The target of a declared import is a file of the configuration.
      obtain ⟨declared, hdeclared, htargetSame⟩ := Path.isIn_iff.1 htarget
      obtain ⟨other, hother⟩ := Option.isSome_iff_exists.1
        (hclosed file (file?_eq_some hfile).1 declared hdeclared)
      obtain ⟨hmem, hotherSame⟩ := file?_eq_some hother
      exact (reaches_withDeclarations (hpending other hmem) state).tail
        (Or.inl (Path.same_trans hotherSame (Path.same_comm.1 htargetSame)))
    · exact hsame hspelled
    · refine (ih (hsustains.of_leads (Or.inr himports))).tail (Or.inr ?_)
      exact (preserves_withDeclarations pending state).imports between target himports hsustains

/-! ## Files of their own -/

theorem Apart.file?_eq (h : state.Apart) {file : FileScope} (hfile : file ∈ state.files) :
    state.file? file.path = some file := by
  unfold Apart at h
  unfold file?
  generalize state.files = files at h hfile
  induction files with
  | nil => cases hfile
  | cons first rest ih =>
    obtain ⟨hfirst, hrest⟩ := List.pairwise_cons.1 h
    rw [List.find?_cons]
    rcases List.mem_cons.1 hfile with rfl | hfile
    · rw [Path.same_refl]
    · rw [hfirst file hfile]
      exact ih hrest hfile

theorem Apart.populated_iff (h : state.Apart) :
    state.Populated path ↔ ∃ file ∈ state.files, file.path.same path = true ∧ file.resources ≠ [] := by
  constructor
  · rintro ⟨file, hfile, hresources⟩
    obtain ⟨hmem, hsame⟩ := file?_eq_some hfile
    exact ⟨file, hmem, hsame, hresources⟩
  · rintro ⟨file, hmem, hsame, hresources⟩
    exact ⟨file, state.file?_congr hsame ▸ h.file?_eq hmem, hresources⟩

end Inventory

/-! ## Reading state files -/

section Texts

open Provision.Language (Node Directive SourceFile bareNodes_eq_map)

theorem importOf?_bare (node : Node) :
    (SourceFile.importOf? node.bare).map Prod.fst = (SourceFile.importOf? node).map Prod.fst := by
  cases node with
  | directive d =>
    obtain ⟨name, arguments, clauses, bodyless, body, branches, span⟩ := d
    rw [Node.bare, Directive.bare]
    unfold SourceFile.importOf?
    dsimp only
    by_cases hname : name = "import"
    · rw [if_pos hname, if_pos hname, bareNodes_eq_map]
      cases arguments with
      | nil => rfl
      | cons first rest => cases first <;> rw [List.map_cons, Node.bare] <;> rfl
    · rw [if_neg hname, if_neg hname]
  | _ => rw [Node.bare] <;> rfl

theorem imports_of_bare {source other : SourceFile}
    (h : source.body.map Node.bare = other.body.map Node.bare) :
    source.imports.map Prod.fst = other.imports.map Prod.fst := by
  have hbare (body : List Node) : (body.filterMap SourceFile.importOf?).map Prod.fst =
      (body.map Node.bare).filterMap fun node => (SourceFile.importOf? node).map Prod.fst := by
    rw [List.map_filterMap, List.filterMap_map]
    exact List.filterMap_congr fun node _ => (importOf?_bare node).symm
  unfold SourceFile.imports
  rw [hbare, hbare, h]

/-- A state file names its imports as seen from the file. -/
theorem imports_stateFile (file : FileScope) :
    (stateFile file).imports.map Prod.fst =
      file.imports.map fun path => (Path.relativeTo file.path.directory path).text := by
  unfold stateFile SourceFile.imports
  dsimp only
  have hplugins : (file.plugins.map (noteNode "plugin")).filterMap SourceFile.importOf? = [] := by
    rw [List.filterMap_map, List.filterMap_eq_nil_iff]
    exact fun _ _ => rfl
  have hresources :
      ((Table.values file.resources).map resourceNode).filterMap SourceFile.importOf? = [] := by
    rw [List.filterMap_map, List.filterMap_eq_nil_iff]
    exact fun _ _ => rfl
  rw [List.filterMap_append, List.filterMap_append, hplugins, hresources, List.nil_append,
    List.append_nil, List.map_filterMap, List.filterMap_map, ← List.filterMap_eq_map]
  rfl

theorem Path.isIn_of_forall₂ {paths others : List Path}
    (h : List.Forall₂ (fun path other => path.same other = true) paths others) (target : Path) :
    target.isIn paths = target.isIn others := by
  induction h with
  | nil => rfl
  | cons hsame _ ih =>
    apply Bool.eq_iff_iff.2
    rw [Path.isIn_cons, Path.isIn_cons, ih]
    exact or_congr_left
      (Path.same_comm.trans ((Path.same_congr hsame target).trans Path.same_comm))

theorem importTarget_congr {path other : Path} (h : path.same other = true) (text : String) :
    importTarget path text = importTarget other text := by
  unfold importTarget Path.directory Path.parent?
  rw [Path.same_iff.1 h]

/-- A store in which the state of each file has the text that was written for it gives the imports
back. -/
theorem readsBack_of_texts {ω : Type} {saved : Inventory} (hfiles : saved.WritesFilesOf saved)
    (hresources : ∀ resource ∈ saved.resources, resource.Writable saved.registry)
    (store : StateStore ω) (world : ω)
    (hread : ∀ path, store.read (statePath path) world =
      .ok (((saved.file? path).filter fun file => !file.isEmpty).map stateText)) :
    saved.ReadsBack (store.source world) := by
  constructor
  · intro path hvacant
    have hnone : (saved.file? path).filter (fun file => !file.isEmpty) = none := by
      rw [Option.filter_eq_none_iff]
      intro file hfile hoccupied
      exact hvacant ⟨file, hfile, Bool.not_eq_true' _ ▸ hoccupied⟩
    unfold StateStore.source
    rw [hread, hnone]
    rfl
  · rintro path ⟨file, hfile, hoccupied⟩
    obtain ⟨hmem, hsame⟩ := Inventory.file?_eq_some hfile
    have hwritable : ∀ resource ∈ Table.values file.resources,
        resource.Writable saved.registry := fun resource hresource =>
      hresources resource (List.mem_flatMap.2 ⟨file, hmem, hresource⟩)
    obtain ⟨source, hparse, -, hbody⟩ := parse_stateText hwritable (statePath path).text
    refine ⟨{ source with path := path.text }, ?_, fun target => ?_⟩
    · unfold StateStore.source
      rw [hread, hfile, Option.filter_some, hoccupied]
      simp only [Bool.not_false, if_true, Option.map_some, ok_bind]
      rw [hparse]
      rfl
    · have htargets : importTargets path { source with path := path.text } = file.readImports := by
        calc
          _ = (source.imports.map Prod.fst).map (importTarget path) := by
            rw [List.map_map]
            rfl
          _ = ((stateFile file).imports.map Prod.fst).map (importTarget path) := by
            rw [imports_of_bare hbody]
          _ = file.readImports := by
            rw [imports_stateFile, List.map_map]
            exact List.map_congr_left fun _ _ => importTarget_congr (Path.same_comm.1 hsame) _
      have himports : saved.Imports path target ↔ target.isIn file.imports = true := by
        unfold Inventory.Imports
        rw [hfile]
        simp only [Option.some.injEq, exists_eq_left']
      rw [htargets, himports, Path.isIn_of_forall₂ (hfiles file hmem).readImports_same]

end Texts

/-! ## Saving and loading again -/

section Saving

variable {ω : Type}

theorem persist_run (backing : Backing ω) (run : Run ω) :
    (persist backing).run run =
      ((backing.save (withDeclarations run.pending run.state) run.world).1.mapError ApplyError.state,
        ⟨run.pending, withDeclarations run.pending run.state,
          (backing.save (withDeclarations run.pending run.state) run.world).2⟩) := by
  unfold persist
  rw [run_bind_ok (run_modify _ run), run_bind_ok (run_get _), run_bind_ok (run_act _ _)]
  cases backing.save (withDeclarations run.pending run.state) run.world with
  | mk outcome world => cases outcome <;> rfl

/-- Every file of the state that holds a resource is reached from the root through the imports that
are saved, when it was reached through those declared and recorded before.  A load that starts
from the root alone reads the state of each of them. -/
theorem persist_reaches (backing : Backing ω) (run : Run ω) (root : Path)
    (hpending : ∀ file ∈ run.pending.files, run.pending.ImportsReach root file.path)
    (hclosed : ∀ file ∈ run.pending.files, ∀ target ∈ file.imports,
      (run.pending.file? target).isSome)
    (hstate : ∀ path, run.state.Populated path →
      Relation.ReflTransGen (Inventory.LeadsEither run.pending run.state) root path) :
    ∃ saved, ((persist backing).run run).2 =
        ⟨run.pending, saved, (backing.save saved run.world).2⟩ ∧
      saved.contents = run.state.contents ∧
      (∀ path, saved.Populated path ↔ run.state.Populated path) ∧
      (∀ path, saved.Populated path → saved.ImportsReach root path) ∧
      ∀ (store : StateStore ω) (world : ω), saved.ReadsBack (store.source world) →
        saved.files.length < store.reach world →
        ∃ sources, followImports (store.source world) (store.reach world) [root] [] = .ok sources ∧
          ∀ path, saved.Populated path → ∃ source ∈ sources, ∃ spelled : Path,
            spelled.same path = true ∧ store.source world spelled = .ok (some source) := by
  have hpopulated := (Inventory.preserves_withDeclarations run.pending run.state).populated
  have hreaches : ∀ path, (withDeclarations run.pending run.state).Populated path →
      (withDeclarations run.pending run.state).ImportsReach root path := by
    intro path hsaved
    have hheld := (hpopulated path).1 hsaved
    exact Inventory.reaches_of_either hpending hclosed (hstate path hheld) ⟨path, .refl, hheld⟩
  refine ⟨_, congrArg Prod.snd (persist_run backing run), contents_withDeclarations _ _,
    hpopulated, hreaches, ?_⟩
  intro store world hreads hrounds
  obtain ⟨sources, hrun, hfound⟩ := Inventory.followImports_reaches hreads hrounds root
  exact ⟨sources, hrun, fun path hsaved => hfound path (hreaches path hsaved)
    (Inventory.occupied_iff.2 (Or.inl hsaved))⟩

/-- A configuration of one file that imports nothing. -/
def emptyDepot : Inventory :=
  .plain lamps.registry [{ path := depotPath }]

/-- A lamp in a file that only an empty file leads to, which is part of a circle. -/
def lampBehindCircle : Inventory :=
  .plain lamps.registry
    [{ path := ⟨"/depot/store/link"⟩, imports := [depotPath, ⟨"/depot/store/spare"⟩] },
      { path := ⟨"/depot/store/spare"⟩,
        resources := [(lampKey "spare one", lamp "spare one" "shelf" .null [])] },
      { path := depotPath, imports := [⟨"/depot/store/link"⟩, ⟨"/depot/store/gone"⟩] }]

/-- The configuration imports nothing any more, yet the way to the lamp is recorded; the import of
a file with nothing in it is not. -/
theorem persist_reaches_lampBehindCircle :
    ∃ saved, ((persist archiving).run ⟨emptyDepot, lampBehindCircle, []⟩).2 =
        ⟨emptyDepot, saved, [saved]⟩ ∧
      saved.files.map (fun file => (file.path.text, file.imports.map Path.text)) =
        [("/depot/store/link", ["/depot/main", "/depot/store/spare"]), ("/depot/store/spare", []),
          ("/depot/main", ["/depot/store/link"])] ∧
      saved.Populated ⟨"/depot/store/spare"⟩ ∧
      saved.ImportsReach depotPath ⟨"/depot/store/spare"⟩ := by
  have hapart : lampBehindCircle.Apart := Inventory.apart_iff_paths.2 (by decide +kernel)
  have hleads {file : FileScope} (hfile : file ∈ lampBehindCircle.files) {target : Path}
      (htarget : target ∈ file.imports) :
      Inventory.LeadsEither emptyDepot lampBehindCircle file.path target :=
    Or.inr (Or.inr ⟨file, hapart.file?_eq hfile, Path.isIn_of_mem htarget⟩)
  have hspare : Relation.ReflTransGen (Inventory.LeadsEither emptyDepot lampBehindCircle) depotPath
      ⟨"/depot/store/spare"⟩ :=
    (Relation.ReflTransGen.single (hleads (.tail _ (.tail _ (.head _))) (.head _))).tail
      (hleads (.head _) (.tail _ (.head _)))
  have hstate : ∀ path, lampBehindCircle.Populated path → Relation.ReflTransGen
      (Inventory.LeadsEither emptyDepot lampBehindCircle) depotPath path := by
    intro path hpopulated
    obtain ⟨file, hfile, hsame, hresources⟩ := hapart.populated_iff.1 hpopulated
    simp only [lampBehindCircle, Inventory.plain, List.mem_cons, List.not_mem_nil, or_false] at hfile
    obtain rfl | rfl | rfl := hfile
    · exact absurd rfl hresources
    · exact hspare.tail (Or.inl (Or.inl hsame))
    · exact absurd rfl hresources
  have hheld : lampBehindCircle.Populated ⟨"/depot/store/spare"⟩ :=
    hapart.populated_iff.2 ⟨_, .tail _ (.head _), Path.same_refl _, by decide⟩
  obtain ⟨saved, hrun, -, hpopulated, hreaches, -⟩ := persist_reaches archiving
    ⟨emptyDepot, lampBehindCircle, []⟩ depotPath
    (List.forall_mem_singleton.2 .refl) (List.forall_mem_singleton.2 nofun) hstate
  have hsaved : saved = withDeclarations emptyDepot lampBehindCircle := by
    rw [persist_run] at hrun
    exact (congrArg Run.state hrun).symm
  refine ⟨saved, hrun, ?_, (hpopulated _).2 hheld, hreaches _ ((hpopulated _).2 hheld)⟩
  rw [hsaved]
  decide +kernel

end Saving

end Provision

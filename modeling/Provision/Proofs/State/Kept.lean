import Provision.Proofs.Apply.InPlace
import Provision.Proofs.State.RoundTrip

/-!
# What a run saves can be read back

Nothing that a run does to its state takes away what makes it writable, as long
as it takes up resources that are.  So whether a saved state can be read back
turns on its references alone.  These can be left leading nowhere: a resource is
deleted although another one still refers to it, because the change that would
have ended the reference was declined or has failed.
-/

namespace Provision

namespace Inventory

variable {inventory other pending : Inventory} {path : Path} {resource : Resource}

/-! ## Files -/

/-- Every file of the second inventory could be recorded in the first one. -/
def WritesFilesOf (inventory pending : Inventory) : Prop :=
  ∀ file ∈ pending.files, inventory.WritesFile file

theorem WritesFile.of_heading {file again : FileScope} (h : inventory.WritesFile file)
    (hheading : (again.path, again.imports, again.plugins) =
      (file.path, file.imports, file.plugins)) :
    inventory.WritesFile again := by
  obtain ⟨hpath, himports, hplugins⟩ := by simpa only [Prod.mk.injEq] using hheading
  constructor
  · exact hpath ▸ h.path
  · exact himports ▸ h.imports
  · exact himports ▸ h.importsOnce
  · exact hplugins ▸ h.plugins
  · exact hplugins ▸ h.pluginsOnce

theorem WritesFile.of_registry {file : FileScope} (h : inventory.WritesFile file)
    (hregistry : other.registry = inventory.registry) :
    other.WritesFile file :=
  ⟨h.path, h.imports, h.importsOnce, hregistry ▸ h.plugins, h.pluginsOnce⟩

theorem WritesFilesOf.of_registry (h : inventory.WritesFilesOf pending)
    (hregistry : other.registry = inventory.registry) :
    other.WritesFilesOf pending :=
  fun file hfile => (h file hfile).of_registry hregistry

theorem WritesFilesOf.of_headings (h : inventory.WritesFilesOf pending)
    (hheadings : other.headings = pending.headings) :
    inventory.WritesFilesOf other := by
  intro file hfile
  have hmem : (file.path, file.imports, file.plugins) ∈ pending.headings := by
    rw [← hheadings]
    exact List.mem_map_of_mem (f := fun file : FileScope => (file.path, file.imports, file.plugins))
      hfile
  obtain ⟨old, hold, hsame⟩ := List.mem_map.1 hmem
  exact (h old hold).of_heading hsame.symm

theorem WritesFilesOf.ensureFile (h : inventory.WritesFilesOf pending) (hpath : path.Normal) :
    inventory.WritesFilesOf (pending.ensureFile path).1 := by
  rcases files_ensureFile pending path with hfiles | hfiles
  · intro file hfile
    exact h file (hfiles ▸ hfile)
  · intro file hfile
    rw [hfiles] at hfile
    rcases List.mem_append.1 hfile with hfile | hfile
    · exact h file hfile
    · rw [List.mem_singleton.1 hfile]
      exact ⟨hpath, nofun, List.Pairwise.nil, nofun, List.nodup_nil⟩

theorem WritesFilesOf.insert (h : inventory.WritesFilesOf pending) (hpath : path.Normal)
    (resource : Resource) :
    inventory.WritesFilesOf (pending.insert path resource) :=
  (h.ensureFile hpath).of_headings (headings_insertAt _ _ _)

/-- No two files have the same path. -/
def Apart (inventory : Inventory) : Prop :=
  inventory.files.Pairwise fun file other => file.path.same other.path = false

theorem apart_iff_paths :
    inventory.Apart ↔
      (inventory.files.map FileScope.path).Pairwise fun path other => path.same other = false := by
  rw [List.pairwise_map]
  rfl

theorem Apart.ensureFile (h : inventory.Apart) (path : Path) :
    (inventory.ensureFile path).1.Apart := by
  unfold Inventory.ensureFile
  cases hindex : inventory.indexOf? path with
  | some index => exact h
  | none =>
    refine List.pairwise_append.2 ⟨h, List.pairwise_singleton _ _, ?_⟩
    intro file hfile new hnew
    rw [List.mem_singleton.1 hnew]
    exact List.findIdx?_eq_none_iff.1 hindex file hfile

theorem Apart.insert (h : inventory.Apart) (path : Path) (resource : Resource) :
    (inventory.insert path resource).Apart := by
  rw [apart_iff_paths]
  show (((inventory.ensureFile path).1.insertAt _ resource).files.map FileScope.path).Pairwise _
  rw [paths_insertAt]
  exact apart_iff_paths.1 (h.ensureFile path)

theorem headings_remove (inventory : Inventory) (key : Key) :
    (inventory.remove key).headings = inventory.headings := by
  unfold headings remove
  dsimp only
  induction inventory.files with
  | nil => rfl
  | cons file rest ih =>
    unfold removeFirst
    split
    · rfl
    · rw [List.map_cons, ih, List.map_cons]

theorem Apart.of_headings (h : inventory.Apart) (hheadings : other.headings = inventory.headings) :
    other.Apart := by
  have hpaths := congrArg (List.map Prod.fst) hheadings
  unfold headings at hpaths
  rw [List.map_map, List.map_map] at hpaths
  rw [apart_iff_paths] at h ⊢
  exact hpaths ▸ h

/-! ## Changes of the state -/

/-- An inventory whose state files say all of its files, whatever these hold. -/
structure Framed (inventory : Inventory) : Prop where
  named : inventory.registry.Named
  oneHome : inventory.OneHome
  apart : inventory.Apart
  files : inventory.WritesFilesOf inventory

/-- A resource that can be recorded, wherever its references lead. -/
def Takes (inventory : Inventory) (resource : Resource) : Prop :=
  resource.Writable inventory.registry ∧
    ∀ field ∈ resource.fields, inventory.registry.Names field.2

theorem writable_iff :
    inventory.Writable ↔
      inventory.Framed ∧ ∀ resource ∈ inventory.resources, inventory.Takes resource := by
  constructor
  · intro h
    exact ⟨⟨h.named, h.oneHome, h.paths, h.files⟩, fun resource hresource =>
      ⟨h.resources resource hresource, h.names resource hresource⟩⟩
  · rintro ⟨h, htakes⟩
    exact ⟨h.named, h.oneHome, h.apart, h.files, fun resource hresource => (htakes resource hresource).1,
      fun resource hresource => (htakes resource hresource).2⟩

theorem Framed.changed (h : inventory.Framed) (hregistry : other.registry = inventory.registry)
    (hhome : other.OneHome) (hapart : other.Apart) (hfiles : inventory.WritesFilesOf other) :
    other.Framed :=
  ⟨hregistry ▸ h.named, hhome, hapart, hfiles.of_registry hregistry⟩

theorem Framed.insert (h : inventory.Framed) (hpath : path.Normal) (resource : Resource) :
    (inventory.insert path resource).Framed :=
  h.changed (registry_ensureFile inventory path) (oneHome_insert h.oneHome path resource)
    (h.apart.insert path resource) (h.files.insert hpath resource)

theorem Framed.remove (h : inventory.Framed) (key : Key) : (inventory.remove key).Framed := by
  have hheadings := headings_remove inventory key
  exact h.changed rfl (oneHome_remove h.oneHome key) (h.apart.of_headings hheadings)
    (h.files.of_headings hheadings)

theorem refers_remove (h : inventory.OneHome) {key source target : Key} :
    (inventory.remove key).Refers source target ↔ source ≠ key ∧ inventory.Refers source target := by
  unfold Refers
  rw [resource?_of_drop h (oneHome_remove h key) (contents_remove h key)]
  by_cases hkey : key = source
  · simp [hkey]
  · simp [hkey, Ne.symm hkey]

/-- A deletion keeps the references leading somewhere exactly when nothing else refers to what is
deleted. -/
theorem Grounded.remove_iff (hgrounded : inventory.Grounded) (h : inventory.OneHome) (key : Key) :
    (inventory.remove key).Grounded ↔ ∀ source, source ≠ key → ¬ inventory.Refers source key := by
  have hlook (target : Key) := resource?_of_drop h (oneHome_remove h key) (contents_remove h key) target
  constructor
  · intro hremoved source hsource hrefers
    have hhas := hremoved.present ((refers_remove h).2 ⟨hsource, hrefers⟩)
    rw [has, hlook, if_pos rfl] at hhas
    cases hhas
  · intro hnone
    constructor
    · intro source target hrefers
      obtain ⟨hsource, hrefers⟩ := (refers_remove h).1 hrefers
      have hne : key ≠ target := by
        rintro rfl
        exact hnone source hsource hrefers
      rw [has, hlook, if_neg hne]
      exact hgrounded.present hrefers
    · intro source hcircle
      have hkept (first second : Key) (hrefers : (inventory.remove key).Refers first second) :
          inventory.Refers first second := ((refers_remove h).1 hrefers).2
      exact hgrounded.acyclic source (Relation.TransGen.mono hkept _ _ hcircle)

/-- Imports are recorded once each, declared or recorded before. -/
theorem recordedImports_writes {declared recorded : Option FileScope}
    (hdeclared : ∀ file ∈ declared, inventory.WritesFile file)
    (hrecorded : ∀ file ∈ recorded, inventory.WritesFile file) (state : Inventory) :
    (∀ path ∈ recordedImports declared recorded state, path.Normal) ∧
      (recordedImports declared recorded state).Pairwise fun path other => path.same other = false := by
  have hfresh : (∀ path ∈ (declared.map FileScope.imports).getD [], path.Normal) ∧
      ((declared.map FileScope.imports).getD []).Pairwise fun path other => path.same other = false := by
    cases declared with
    | none => exact ⟨nofun, List.Pairwise.nil⟩
    | some file => exact ⟨(hdeclared file rfl).imports, (hdeclared file rfl).importsOnce⟩
  have hmore : ∀ path ∈ (recorded.map FileScope.imports).getD [], path.Normal := by
    cases recorded with
    | none => exact nofun
    | some file => exact (hrecorded file rfl).imports
  unfold recordedImports
  dsimp only
  generalize (declared.map FileScope.imports).getD [] = imports at hfresh ⊢
  generalize (recorded.map FileScope.imports).getD [] = paths at hmore ⊢
  induction paths generalizing imports with
  | nil => exact hfresh
  | cons path rest ih =>
    rw [List.foldl_cons]
    refine ih _ ?_ fun other hother => hmore other (List.mem_cons_of_mem _ hother)
    split
    · next hadded =>
      rw [Bool.and_eq_true, Bool.not_eq_true', Path.isIn, List.any_eq_false] at hadded
      refine ⟨List.forall_mem_append.2 ⟨hfresh.1, List.forall_mem_singleton.2
        (hmore path List.mem_cons_self)⟩, List.pairwise_append.2
          ⟨hfresh.2, List.pairwise_singleton _ _, fun other hother new hnew => ?_⟩⟩
      rw [List.mem_singleton.1 hnew, ← Bool.not_eq_true, Path.same_comm]
      exact hadded.2 other hother
    · exact hfresh

theorem mem_files_modifyFile {index : Nat} {change : FileScope → FileScope} {file : FileScope}
    (h : file ∈ (inventory.modifyFile index change).files) :
    file ∈ inventory.files ∨ ∃ old ∈ inventory.files, file = change old := by
  have h : file ∈ inventory.files.modify index change := h
  obtain ⟨position, hposition, rfl⟩ := List.mem_iff_getElem.1 h
  rw [List.getElem_modify]
  split
  · exact Or.inr ⟨_, List.getElem_mem _, rfl⟩
  · exact Or.inl (List.getElem_mem _)

theorem Framed.carryDeclarations (h : inventory.Framed) (hfiles : inventory.WritesFilesOf pending)
    (hpath : path.Normal) :
    (carryDeclarations pending inventory path).Framed := by
  have hdeclared : ∀ file ∈ pending.file? path, inventory.WritesFile file := fun file hfile =>
    hfiles file (List.mem_of_find?_eq_some hfile)
  have hrecorded : ∀ file ∈ inventory.file? path, inventory.WritesFile file := fun file hfile =>
    h.files file (List.mem_of_find?_eq_some hfile)
  obtain ⟨himports, honce⟩ := recordedImports_writes hdeclared hrecorded inventory
  obtain ⟨hplugins, hpluginsOnce⟩ : (∀ space ∈ (((pending.file? path).or
        (inventory.file? path)).map FileScope.plugins).getD [],
          inventory.registry.hasNamespace space = true) ∧
      ((((pending.file? path).or (inventory.file? path)).map FileScope.plugins).getD []).Nodup := by
    cases hfile : (pending.file? path).or (inventory.file? path) with
    | none => exact ⟨nofun, List.nodup_nil⟩
    | some file =>
      have hwrites : inventory.WritesFile file := by
        rcases Option.or_eq_some_iff.1 hfile with hfile | ⟨-, hfile⟩
        · exact hdeclared file hfile
        · exact hrecorded file hfile
      exact ⟨hwrites.plugins, hwrites.pluginsOnce⟩
  have hhome : (Provision.carryDeclarations pending inventory path).OneHome :=
    (oneHome_of_shelved (shelved_carryDeclarations pending inventory path)).2
      (oneHome_ensureFile h.oneHome path)
  have hensured := h.files.ensureFile hpath
  refine h.changed (registry_ensureFile inventory path) hhome ?_ fun file hfile => ?_
  · have hpaths : (Provision.carryDeclarations pending inventory path).files.map FileScope.path =
        (inventory.ensureFile path).1.files.map FileScope.path := map_modifyFile _ _ fun _ => rfl
    rw [apart_iff_paths, hpaths]
    exact apart_iff_paths.1 (h.apart.ensureFile path)
  · rcases mem_files_modifyFile hfile with hold | ⟨old, hold, rfl⟩
    · exact hensured file hold
    · exact ⟨(hensured old hold).path, himports, honce, hplugins, hpluginsOnce⟩

theorem mem_declarationPaths (h : path ∈ declarationPaths pending inventory) :
    ∃ file, (file ∈ inventory.files ∨ file ∈ pending.files) ∧ file.path = path := by
  have hfold (files : List FileScope) (paths : List Path)
      (hmem : path ∈ files.foldl (fun paths file =>
        if paths.any fun path => path.same file.path then paths else paths ++ [file.path]) paths) :
      path ∈ paths ∨ ∃ file ∈ files, file.path = path := by
    induction files generalizing paths with
    | nil => exact Or.inl hmem
    | cons file rest ih =>
      rw [List.foldl_cons] at hmem
      rcases ih _ hmem with hfound | ⟨other, hother, hpath⟩
      · split at hfound
        · exact Or.inl hfound
        · rcases List.mem_append.1 hfound with hfound | hfound
          · exact Or.inl hfound
          · exact Or.inr ⟨file, List.mem_cons_self, (List.mem_singleton.1 hfound).symm⟩
      · exact Or.inr ⟨other, List.mem_cons_of_mem _ hother, hpath⟩
  rcases hfold pending.files _ h with hold | ⟨file, hfile, hpath⟩
  · obtain ⟨file, hfile, hpath⟩ := List.mem_map.1 hold
    exact ⟨file, Or.inl hfile, hpath⟩
  · exact ⟨file, Or.inr hfile, hpath⟩

theorem registry_withDeclarations (pending inventory : Inventory) :
    (withDeclarations pending inventory).registry = inventory.registry := by
  unfold withDeclarations
  generalize declarationPaths pending inventory = paths
  induction paths generalizing inventory with
  | nil => rfl
  | cons path rest ih =>
    rw [List.foldl_cons, ih]
    exact registry_ensureFile inventory path

theorem Framed.withDeclarations (h : inventory.Framed) (hfiles : inventory.WritesFilesOf pending) :
    (withDeclarations pending inventory).Framed := by
  have hnormal : ∀ path ∈ declarationPaths pending inventory, path.Normal := by
    intro path hpath
    obtain ⟨file, hfile | hfile, rfl⟩ := mem_declarationPaths hpath
    · exact (h.files file hfile).path
    · exact (hfiles file hfile).path
  unfold Provision.withDeclarations
  generalize declarationPaths pending inventory = paths at hnormal
  induction paths generalizing inventory with
  | nil => exact h
  | cons path rest ih =>
    have hnext := h.carryDeclarations hfiles (hnormal path List.mem_cons_self)
    exact ih hnext (hfiles.of_registry (registry_ensureFile inventory path))
      fun other hother => hnormal other (List.mem_cons_of_mem _ hother)

end Inventory

/-! ## Runs -/

/-- A run whose state and whose pending files can be recorded, whatever the files hold. -/
structure Run.Framed {ω : Type} (run : Run ω) : Prop where
  state : run.state.Framed
  files : run.state.WritesFilesOf run.pending

section Runs

variable {ω : Type} {backing : Backing ω} {run after : Run ω} {deed : Deed} {deeds : List Deed}

/-- The file that a run notes a resource in is one of the pending ones. -/
theorem normal_of_fileOf? {inventory pending : Inventory} (h : inventory.WritesFilesOf pending)
    {key : Key} {path : Path} (hfile : pending.fileOf? key = some path) : path.Normal := by
  obtain ⟨file, hfound, rfl⟩ := Option.map_eq_some_iff.1 hfile
  exact (h file (List.mem_of_find?_eq_some hfound)).path

/-- One deed keeps what can be recorded of a run. -/
theorem Does.framed (h : Does backing run deed after) (hrun : run.Framed) : after.Framed := by
  have hnoted {key : Key} {file : Path} (resource : Resource) (fields : Bindings) (world : ω)
      (hfile : run.pending.fileOf? key = some file) :
      (run.noting file resource fields world).Framed := by
    have hpath := normal_of_fileOf? hrun.files hfile
    exact ⟨hrun.state.insert hpath _, (hrun.files.insert hpath _).of_registry
      (Inventory.registry_ensureFile run.state file)⟩
  cases h with
  | created hfile => exact hnoted _ _ _ hfile
  | updated hfile => exact hnoted _ _ _ hfile
  | reevaluate key =>
    refine ⟨hrun.state, hrun.files.of_headings ?_⟩
    rcases reevaluate_adds instanceDepth run.pending run.state key with
      hgrown | ⟨body, file, resource, again, hgrown, -, -, -, heq⟩
    · exact hgrown.headings_eq
    · show (Provision.reevaluate instanceDepth run.pending run.state key).2.headings = _
      rw [heq, Inventory.headings_insertAt, hgrown.headings_eq]
  | deleted => exact ⟨hrun.state.remove _, hrun.files.of_registry rfl⟩
  | save hstate =>
    subst hstate
    exact ⟨hrun.state.withDeclarations hrun.files,
      hrun.files.of_registry (Inventory.registry_withDeclarations run.pending run.state)⟩
  | createFailed => exact ⟨hrun.state, hrun.files⟩
  | updateFailed => exact ⟨hrun.state, hrun.files⟩
  | deleteFailed => exact ⟨hrun.state, hrun.files⟩
  | absent => exact ⟨hrun.state, hrun.files⟩

/-- So can be recorded, apart from what its files hold, every state that is saved on the way. -/
theorem Course.saves_framed (h : Course backing run deeds after) (hrun : run.Framed)
    {state : Inventory} {outcome : Except StateError Unit} (hsave : .save state outcome ∈ deeds) :
    state.Framed := by
  induction h with
  | nil => cases hsave
  | cons hdoes _ ih =>
    rcases List.mem_cons.1 hsave with rfl | hsave
    · have hsaved := hdoes.framed hrun
      cases hdoes with
      | save => exact hsaved.state
    · exact ih (hdoes.framed hrun) hsave

end Runs

/-- A state that is saved, and whose resources can be recorded, is read back exactly when its
references lead to resources of that state, and in no circle. -/
def SavesReadBack (deeds : List Deed) : Prop :=
  ∀ state outcome, Deed.save state outcome ∈ deeds →
    (∀ resource ∈ state.resources, state.Takes resource) →
    ((∃ again, reload state.registry (state.files.filter fun file => !file.isEmpty) = .ok again) ↔
      state.Grounded)

/-- Whatever is approved and whatever fails, the references of a saved state decide whether it is
read back. -/
theorem applyPlan_saves {ω : Type} (backing : Backing ω)
    (approve : ChangeGroup → List PlannedChange → Bool) (failFast : Bool) (plan : Plan)
    (run : Run ω) (hstate : run.state.Framed) (hfiles : run.state.WritesFilesOf run.pending) :
    ∃ deeds, Ledger backing run (applyPlan backing approve failFast plan run).2 deeds ∧
      SavesReadBack deeds := by
  obtain ⟨deeds, hcourse, hsaved⟩ := (applyPlan_follows backing approve failFast plan run).course
  refine ⟨deeds, hcourse.ledger hsaved hstate.oneHome, ?_⟩
  intro state outcome hsave htakes
  exact reload_iff (Inventory.writable_iff.2 ⟨hcourse.saves_framed ⟨hstate, hfiles⟩ hsave, htakes⟩)

/-! ### A crate that is labelled with another one -/

/-- The file that the crates are declared in. -/
def depotPath : Path :=
  ⟨"/depot/main"⟩

theorem depotPath_normal : depotPath.Normal :=
  ⟨by decide +kernel, by decide +kernel⟩

/-- The label of the second crate refers to the first one. -/
def referringRecord : Language.SourceFile :=
  ⟨depotPath.text, [crateRecord 1 "first" "dock" "x" "s1",
    .resource crateType.name.text (.text "second")
      [cratePair 8 "place" (.text "hall"),
        cratePair 9 "label" (.ref crateType.name.text (some (.text "first")) [] ⟨"main", 9, 10⟩),
        cratePair 10 configuredFieldsKey (.list [.text "label", .text "place"])] ⟨"main", 7, 1⟩]⟩

/-- Only the second crate is left, with a label of its own. -/
def plainCrate : Language.SourceFile :=
  ⟨depotPath.text, [crateBlock 1 "second" (.text "hall") (.text "plain")]⟩

theorem writesFilesOf_depot (inventory : Inventory) {pending : Inventory}
    (h : pending.headings = [(depotPath, [], [])]) :
    inventory.WritesFilesOf pending := by
  intro file hfile
  have hmem := List.mem_map_of_mem
    (f := fun file : FileScope => (file.path, file.imports, file.plugins)) hfile
  have hheading : (file.path, file.imports, file.plugins) = (depotPath, [], []) :=
    List.mem_singleton.1 (h ▸ hmem)
  simp only [Prod.mk.injEq] at hheading
  obtain ⟨hpath, himports, hplugins⟩ := hheading
  refine ⟨hpath ▸ depotPath_normal, ?_, ?_, ?_, ?_⟩
  · rw [himports]
    nofun
  · rw [himports]
    exact List.Pairwise.nil
  · rw [hplugins]
    nofun
  · rw [hplugins]
    exact List.nodup_nil

/-- The run that labels the second crate anew and deletes the first one. -/
theorem applyPlan_saves_crates :
    ∃ current pending plan, evaluateState crateRegistry [referringRecord] = .ok current ∧
      evaluateConfiguration crateRegistry (some current) [plainCrate] = .ok pending ∧
      diff pending current [] = .ok plan ∧
      plan.changes.map (fun change => (change.kind, change.key.name)) =
        [(.update, "second"), (.delete, "first")] ∧
      ∃ deeds, Ledger archiving ⟨pending, current, []⟩
          (applyPlan archiving (fun _ _ => true) true plan ⟨pending, current, []⟩).2 deeds ∧
        SavesReadBack deeds := by
  have hrun : (evaluateState crateRegistry [referringRecord]).toOption.bind (fun current =>
      (evaluateConfiguration crateRegistry (some current) [plainCrate]).toOption.bind fun pending =>
        (diff pending current []).toOption.map fun plan =>
          (decide (current.headings = [(depotPath, [], [])]),
            decide (pending.headings = [(depotPath, [], [])]),
            plan.changes.map fun change => (change.kind, change.key.name))) =
      some (true, true, [(.update, "second"), (.delete, "first")]) := by decide +kernel
  obtain ⟨current, hcurrent, hrun⟩ := Option.bind_eq_some_iff.1 hrun
  obtain ⟨pending, hpending, hrun⟩ := Option.bind_eq_some_iff.1 hrun
  obtain ⟨plan, hplan, hdone⟩ := Option.map_eq_some_iff.1 hrun
  simp only [Prod.mk.injEq, decide_eq_true_eq] at hdone
  obtain ⟨hheadings, hpendingHeadings, hkinds⟩ := hdone
  rw [toOption_eq_some] at hcurrent hpending hplan
  have hsound := evaluateState_sound hcurrent
  have hframed : current.Framed := by
    refine ⟨hsound.registry_eq ▸ crateRegistry_named, hsound.oneHome, ?_,
      writesFilesOf_depot current hheadings⟩
    have hpaths := congrArg (List.map Prod.fst) hheadings
    unfold Inventory.headings at hpaths
    rw [List.map_map] at hpaths
    rw [Inventory.apart_iff_paths]
    exact hpaths ▸ List.pairwise_singleton _ _
  exact ⟨current, pending, plan, hcurrent, hpending, hplan, hkinds,
    applyPlan_saves archiving (fun _ _ => true) true plan ⟨pending, current, []⟩ hframed
      (writesFilesOf_depot current hpendingHeadings)⟩

/-- Plans what leads from the two crates to the one, and carries it out.  Answers the plan and
whether each saved state is read back. -/
def savedReadably (approve : ChangeGroup → List PlannedChange → Bool) :
    Option (List (ChangeKind × String) × List Bool) :=
  (evaluateState crateRegistry [referringRecord]).toOption.bind fun current =>
    (evaluateConfiguration crateRegistry (some current) [plainCrate]).toOption.bind fun pending =>
      (diff pending current []).toOption.map fun plan =>
        (plan.changes.map fun change => (change.kind, change.key.name),
          (applyPlan archiving approve true plan ⟨pending, current, []⟩).2.world.map fun state =>
            (reload state.registry (state.files.filter fun file => !file.isEmpty)).toOption.isSome)

/-- With the update declined, the first crate is deleted although the second one still refers to
it, and the saved state is not read back; it is when the update comes first. -/
theorem deletion_beneath_reference :
    savedReadably (fun group _ => group = .delete) =
        some ([(.update, "second"), (.delete, "first")], [false]) ∧
      savedReadably (fun _ _ => true) =
        some ([(.update, "second"), (.delete, "first")], [true, true]) := by
  decide +kernel

end Provision

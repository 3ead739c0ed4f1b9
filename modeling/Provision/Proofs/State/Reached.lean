import Provision.Proofs.Apply.Reaching

/-!
# Loading what imports lead to

A load reads the state of the files it starts from and of all that their imports
lead to, each once and under the spelling by which it was met.  What it read is a
part of what the store shows, and it is evaluated like any other state.
-/

namespace Provision

open Provision.Language (SourceFile parse)

namespace Path

variable {a b : Path}

theorem directory_congr (h : a.same b = true) : a.directory = b.directory := by
  unfold directory parent?
  rw [same_iff.1 h]

theorem component?_ne_root (segment : List Char) : component? segment ≠ some .root := by
  unfold component?
  split_ifs <;> simp

theorem root_not_mem_ofSegments (segments : List (List Char)) : .root ∉ ofSegments segments := by
  have hstep (segments : List (List Char)) : .root ∉ segments.filterMap component? := by
    intro hmem
    obtain ⟨segment, -, hsegment⟩ := List.mem_filterMap.1 hmem
    exact component?_ne_root segment hsegment
  unfold ofSegments
  split
  · rw [List.mem_cons, not_or]
    exact ⟨nofun, hstep _⟩
  · exact hstep _

theorem isAbsolute_iff {path : Path} : path.isAbsolute = true ↔ .root ∈ path.components := by
  constructor
  · intro h
    obtain ⟨rest, hcomponents, -⟩ := components_of_absolute h
    rw [hcomponents]
    exact List.mem_cons_self
  · intro h
    unfold components componentsOf at h
    unfold isAbsolute
    split at h
    · rename_i heq
      rw [heq]
      rfl
    · exact absurd h (root_not_mem_ofSegments _)

theorem Normal.of_same (h : a.Normal) (hsame : a.same b = true) : b.Normal where
  absolute := by
    rw [isAbsolute_iff, ← same_iff.1 hsame, ← isAbsolute_iff]
    exact h.absolute
  normal := by
    have hnormalize : b.normalize = a.normalize := by
      unfold normalize
      rw [same_iff.1 hsame]
    rw [hnormalize]
    exact same_trans h.normal hsame

end Path

/-- The text that is recorded for a file, if there is anything to record. -/
def FileScope.recordedText (file : FileScope) : Option String :=
  if file.isEmpty then none else some (stateText file)

/-- The state files in a store are those of an inventory. -/
def StateStore.Shows {ω : Type} (store : StateStore ω) (inventory : Inventory) (world : ω) : Prop :=
  ∀ path, store.read (statePath path) world =
    .ok ((inventory.file? path).bind FileScope.recordedText)

/-- A file under another spelling of its path. -/
def FileScope.under (file : FileScope) (path : Path) : FileScope :=
  { file with path := path }

/-- The state of a file is the same under every spelling of its path. -/
theorem stateFile_under {file : FileScope} {path : Path} (h : file.path.same path = true) :
    (stateFile (file.under path)).body = (stateFile file).body := by
  unfold stateFile FileScope.under
  rw [Path.directory_congr h]

namespace Inventory

section Places

variable {inventory : Inventory} {path place : Path} {key : Key} {resource found : Resource}

theorem Apart.holds_iff (h : inventory.Apart) :
    inventory.Holds path key resource ↔
      ∃ file, inventory.file? path = some file ∧ file.resource? key = some resource := by
  constructor
  · rintro ⟨file, hfile, hsame, hfound⟩
    exact ⟨file, (inventory.file?_congr hsame).symm.trans (h.file?_eq hfile), hfound⟩
  · rintro ⟨file, hfile, hfound⟩
    obtain ⟨hmem, hsame⟩ := file?_eq_some hfile
    exact ⟨file, hmem, hsame, hfound⟩

/-- What is held under one key in one place is held in one file. -/
theorem OneHome.same_path (h : inventory.OneHome)
    (hholds : inventory.Holds path key resource) (hother : inventory.Holds place key found) :
    path.same place = true := by
  obtain ⟨file, hfile, hsame, hresource⟩ := hholds
  obtain ⟨other, hmem, hplace, hfound⟩ := hother
  obtain ⟨-, honce⟩ := oneHome_iff.1 h
  obtain ⟨-, honce⟩ := nodup_keysOf_iff.1 honce
  obtain ⟨i, hi, rfl⟩ := List.mem_iff_getElem.1 hfile
  obtain ⟨j, hj, rfl⟩ := List.mem_iff_getElem.1 hmem
  have hkey {index : Nat} (hindex : index < inventory.files.length) {found : Resource}
      (hfound : inventory.files[index].resource? key = some found) :
      key ∈ Table.keys inventory.files[index].resources :=
    Table.mem_keys_iff.2 (Option.isSome_iff_exists.2 ⟨found, hfound⟩)
  obtain rfl : i = j := by
    rcases Nat.lt_trichotomy i j with hlt | heq | hlt
    · exact absurd (hkey hj hfound) (honce i j hi hj key hlt (hkey hi hresource))
    · exact heq
    · exact absurd (hkey hi hresource) (honce j i hj hi key hlt (hkey hj hfound))
  exact Path.same_trans (Path.same_comm.1 hsame) hplace

/-- When no key is held under two paths, each has one home. -/
theorem oneHome_of_apart (hapart : inventory.Apart) (hkeyed : inventory.Keyed)
    (hdistinct : inventory.Distinct)
    (honce : ∀ {key path place resource found}, inventory.Holds path key resource →
      inventory.Holds place key found → path.same place = true) :
    inventory.OneHome := by
  refine oneHome_iff.2 ⟨hkeyed, nodup_keysOf_iff.2 ⟨hdistinct, ?_⟩⟩
  intro i j hi hj key hlt hfirst hsecond
  have hholds {index : Nat} (hindex : index < inventory.files.length)
      (hkey : key ∈ Table.keys inventory.files[index].resources) :
      ∃ resource, inventory.Holds inventory.files[index].path key resource := by
    obtain ⟨resource, hresource⟩ := Option.isSome_iff_exists.1 (Table.mem_keys_iff.1 hkey)
    exact ⟨resource, _, List.getElem_mem hindex, Path.same_refl _, hresource⟩
  obtain ⟨resource, hresource⟩ := hholds hi hfirst
  obtain ⟨found, hfound⟩ := hholds hj hsecond
  have hsame := honce hresource hfound
  rw [List.pairwise_iff_getElem.1 hapart i j hi hj hlt] at hsame
  cases hsame

end Places

/-- An inventory of some of the files that hold something, each under some spelling of its path. -/
structure PartOf (part whole : Inventory) : Prop where
  registry : part.registry = whole.registry
  apart : part.Apart
  occupied : ∀ file ∈ part.files, file.isEmpty = false
  each : ∀ file ∈ part.files, ∃ original, whole.file? file.path = some original ∧
    file = original.under file.path

variable {part whole : Inventory}

theorem PartOf.recorded_eq (h : part.PartOf whole) : part.recorded = part.files :=
  List.filter_eq_self.2 fun file hfile => by rw [h.occupied file hfile]; rfl

theorem PartOf.mem_resources (h : part.PartOf whole) {resource : Resource}
    (hresource : resource ∈ part.resources) : resource ∈ whole.resources := by
  obtain ⟨file, hfile, hmem⟩ := List.mem_flatMap.1 hresource
  obtain ⟨original, horiginal, heq⟩ := h.each file hfile
  rw [heq] at hmem
  exact List.mem_flatMap.2 ⟨original, (file?_eq_some horiginal).1, hmem⟩

theorem PartOf.writesFilesOf (h : part.PartOf whole) (hfiles : whole.WritesFilesOf whole) :
    part.WritesFilesOf part := by
  intro file hfile
  obtain ⟨original, horiginal, heq⟩ := h.each file hfile
  obtain ⟨hmem, hsame⟩ := file?_eq_some horiginal
  have hwrites := (hfiles original hmem).of_registry h.registry
  rw [heq]
  exact ⟨hwrites.path.of_same hsame, hwrites.imports, hwrites.importsOnce, hwrites.plugins,
    hwrites.pluginsOnce⟩

theorem PartOf.holds (h : part.PartOf whole) {path : Path} {key : Key} {resource : Resource}
    (hholds : part.Holds path key resource) : whole.Holds path key resource := by
  obtain ⟨file, hfile, hsame, hfound⟩ := hholds
  obtain ⟨original, horiginal, heq⟩ := h.each file hfile
  obtain ⟨hmem, hspelled⟩ := file?_eq_some horiginal
  rw [heq] at hfound
  exact ⟨original, hmem, Path.same_trans hspelled hsame, hfound⟩

theorem PartOf.keyed (h : part.PartOf whole) (hkeyed : whole.Keyed) : part.Keyed := by
  intro file hfile entry hentry
  obtain ⟨original, horiginal, heq⟩ := h.each file hfile
  rw [heq] at hentry
  exact hkeyed original (file?_eq_some horiginal).1 entry hentry

theorem PartOf.distinct (h : part.PartOf whole) (hdistinct : whole.Distinct) : part.Distinct := by
  intro file hfile
  obtain ⟨original, horiginal, heq⟩ := h.each file hfile
  rw [heq]
  exact hdistinct original (file?_eq_some horiginal).1

/-- What a part holds stands where it stands in the whole. -/
theorem PartOf.mem_files (h : part.PartOf whole) {path : Path} {key : Key} {resource : Resource}
    (hwhole : whole.Apart) (hholds : whole.Holds path key resource)
    (hread : ∃ file ∈ part.files, file.path.same path = true) :
    part.Holds path key resource := by
  obtain ⟨file, hfile, hsame⟩ := hread
  obtain ⟨original, horiginal, heq⟩ := h.each file hfile
  obtain ⟨held, hheld, hplace, hfound⟩ := hholds
  have hheldFile : whole.file? file.path = some held :=
    (whole.file?_congr (Path.same_trans hsame (Path.same_comm.1 hplace))).trans
      (hwhole.file?_eq hheld)
  obtain rfl : original = held := Option.some.inj (horiginal.symm.trans hheldFile)
  refine ⟨file, hfile, hsame, ?_⟩
  rw [heq]
  exact hfound

/-- A source goes by the path that it was asked for by. -/
theorem path_of_source {ω : Type} {store : StateStore ω} {world : ω} {path : Path}
    {source : SourceFile} (h : store.source world path = .ok (some source)) :
    source.path = path.text := by
  unfold StateStore.source at h
  obtain ⟨text, -, h⟩ := bind_eq_ok.1 h
  cases text with
  | none => cases h
  | some text =>
    obtain ⟨parsed, -, h⟩ := bind_eq_ok.1 h
    cases h
    rfl

/-- What one file of a store says is the state of that file, under the path it was asked for. -/
theorem printed_of_source {ω : Type} {store : StateStore ω} {world : ω}
    (hwritable : ∀ resource ∈ whole.resources, resource.Writable whole.registry)
    (hshows : store.Shows whole world) {path : Path} {source : SourceFile}
    (hread : store.source world path = .ok (some source)) :
    ∃ file, whole.file? path = some file ∧ file.isEmpty = false ∧
      (file.under path).Printed source := by
  unfold StateStore.source at hread
  rw [hshows path, ok_bind] at hread
  cases hfile : whole.file? path with
  | none =>
    rw [hfile] at hread
    cases hread
  | some file =>
    obtain ⟨hmem, hsame⟩ := file?_eq_some hfile
    rw [hfile, Option.bind_some, FileScope.recordedText] at hread
    cases hoccupied : file.isEmpty with
    | true =>
      rw [hoccupied] at hread
      cases hread
    | false =>
      rw [hoccupied] at hread
      have hresources : ∀ resource ∈ Table.values file.resources,
          resource.Writable whole.registry := fun resource hresource =>
        hwritable resource (List.mem_flatMap.2 ⟨file, hmem, hresource⟩)
      obtain ⟨parsed, hparse, -, hbody⟩ := parse_stateText hresources (statePath path).text
      simp only [Bool.false_eq_true, if_false, hparse] at hread
      cases hread
      exact ⟨file, rfl, hoccupied, rfl, hbody.trans (congrArg _ (stateFile_under hsame).symm)⟩

theorem filter_recordedText (found : Option FileScope) :
    (found.filter fun file => !file.isEmpty).map stateText = found.bind FileScope.recordedText := by
  cases found with
  | none => rfl
  | some file =>
    rw [Option.filter_some, Option.bind_some, FileScope.recordedText]
    cases file.isEmpty <;> rfl

/-- Sources that were read once each are what a part of the inventory says. -/
theorem exists_part {ω : Type} {store : StateStore ω} {world : ω}
    (hwritable : ∀ resource ∈ whole.resources, resource.Writable whole.registry)
    (hshows : store.Shows whole world) {spelled : List Path} {sources : List SourceFile}
    (h : ReadOnce (store.source world) [] spelled sources) :
    ∃ part : Inventory, part.PartOf whole ∧ part.files.map FileScope.path = spelled ∧
      List.Forall₂ FileScope.Printed part.files sources := by
  have hfile : ∀ path source, store.source world path = .ok (some source) →
      ∃ file : FileScope, (file.path = path ∧ file.isEmpty = false ∧ ∃ original,
        whole.file? path = some original ∧ file = original.under path) ∧ file.Printed source := by
    intro path source hread
    obtain ⟨original, horiginal, hoccupied, hprinted⟩ := printed_of_source hwritable hshows hread
    exact ⟨original.under path, ⟨rfl, hoccupied, original, horiginal, rfl⟩, hprinted⟩
  obtain ⟨files, hfiles, hprinted⟩ : ∃ files : List FileScope,
      List.Forall₂ (fun path (file : FileScope) => file.path = path ∧ file.isEmpty = false ∧
        ∃ original, whole.file? path = some original ∧ file = original.under path) spelled files ∧
      List.Forall₂ FileScope.Printed files sources := by
    have heach := h.each
    clear h
    induction heach with
    | nil => exact ⟨[], .nil, .nil⟩
    | @cons path source _ _ hread _ ih =>
      obtain ⟨file, hfound, hsource⟩ := hfile path source hread
      obtain ⟨files, hfiles, hsources⟩ := ih
      exact ⟨file :: files, .cons hfound hfiles, .cons hsource hsources⟩
  have hpaths : files.map FileScope.path = spelled := by
    rw [← List.forall₂_eq_eq_eq, List.forall₂_map_left_iff]
    exact hfiles.flip.imp fun file path hfound => hfound.1
  refine ⟨.plain whole.registry files, ⟨rfl, ?_, fun file hmem => ?_, fun file hmem => ?_⟩, hpaths,
    hprinted⟩
  · rw [apart_iff_paths]
    exact hpaths ▸ h.apart
  · obtain ⟨path, -, -, hoccupied, -⟩ := exists_of_forall₂ hfiles.flip hmem
    exact hoccupied
  · obtain ⟨path, -, rfl, -, horiginal⟩ := exists_of_forall₂ hfiles.flip hmem
    exact horiginal

/-- What a load reads is a part of what the store shows, with every file that the imports lead to. -/
theorem followImports_part {ω : Type} {store : StateStore ω} {world : ω}
    (hfiles : whole.WritesFilesOf whole)
    (hwritable : ∀ resource ∈ whole.resources, resource.Writable whole.registry)
    (hshows : store.Shows whole world) (hrounds : whole.recorded.length < store.reach world)
    (roots : List Path) :
    ∃ (sources : List SourceFile) (part : Inventory),
      followImports (store.source world) (store.reach world) roots [] = .ok sources ∧
      part.PartOf whole ∧ List.Forall₂ FileScope.Printed part.recorded sources ∧
      ∀ root ∈ roots, ∀ path, whole.ImportsReach root path → whole.Occupied path →
        ∃ file ∈ part.files, file.path.same path = true := by
  have hreads : whole.ReadsBack (store.source world) :=
    readsBack_of_texts hfiles hwritable store world fun path => by
      rw [filter_recordedText]
      exact hshows path
  have hunread : whole.unread [] = whole.recorded :=
    List.filter_congr fun file _ => Bool.and_true _
  obtain ⟨sources, hrun, hreached⟩ :=
    followImports_reaches_from hreads (by rw [hunread]; exact hrounds) roots
  obtain ⟨spelled, honce⟩ := followImports_readOnce hrun
  obtain ⟨part, hpart, hpaths, hprinted⟩ := exists_part hwritable hshows honce
  refine ⟨sources, part, hrun, hpart, hpart.recorded_eq.symm ▸ hprinted, ?_⟩
  intro root hroot path hreaches hoccupied
  obtain ⟨source, hsource, place, hsame, hread⟩ := hreached root hroot path hreaches hoccupied
  obtain ⟨file, hfile, hfileSource⟩ := exists_of_forall₂ hprinted.flip hsource
  refine ⟨file, hfile, ?_⟩
  obtain rfl : file.path = place :=
    congrArg Path.mk (hfileSource.path.symm.trans (path_of_source hread))
  exact hsame

theorem PartOf.oneHome (h : part.PartOf whole) (hhome : whole.OneHome) : part.OneHome :=
  oneHome_of_apart h.apart (h.keyed hhome.keyed) (h.distinct hhome.distinct)
    fun hfound hother => hhome.same_path (h.holds hfound) (h.holds hother)

/-- A load gives what was recorded for the files that it reads, if no reference leads out of
them. -/
theorem load_part {ω : Type} {store : StateStore ω} {world : ω} (h : whole.Writable)
    (hshows : store.Shows whole world) (hrounds : whole.recorded.length < store.reach world)
    (roots : List Path) :
    ∃ part : Inventory, part.PartOf whole ∧
      (∀ root ∈ roots, ∀ path, whole.ImportsReach root path → whole.Occupied path →
        ∃ file ∈ part.files, file.path.same path = true) ∧
      (part.Grounded → ∃ loaded, store.load whole.registry roots world = .ok loaded ∧
        List.Forall₂ FileRestored part.files loaded.files) := by
  obtain ⟨sources, part, hrun, hpart, hprinted, hreached⟩ :=
    followImports_part h.files h.resources hshows hrounds roots
  refine ⟨part, hpart, hreached, fun hgrounded => ?_⟩
  obtain ⟨hframed, htakes⟩ := writable_iff.1 h
  have htaken : ∀ resource ∈ part.resources, part.Takes resource := by
    intro resource hresource
    unfold Takes
    rw [hpart.registry]
    exact htakes resource (hpart.mem_resources hresource)
  have hwritable : part.Writable := writable_iff.2
    ⟨⟨hpart.registry ▸ h.named, hpart.oneHome h.oneHome, hpart.apart,
      hpart.writesFilesOf h.files⟩, htaken⟩
  obtain ⟨loaded, hevaluate, hheadings, hcontent⟩ := hwritable.evaluate hgrounded hprinted
  refine ⟨loaded, ?_, hpart.recorded_eq ▸ hwritable.filesRestored hheadings hcontent⟩
  rw [hpart.registry] at hevaluate
  unfold StateStore.load
  rw [hrun, ok_bind, hevaluate]
  rfl

end Inventory

end Provision

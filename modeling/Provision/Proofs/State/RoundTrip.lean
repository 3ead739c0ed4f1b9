import Provision.Proofs.State.Loading

/-!
# State is read back as it was written

An inventory that its state files say all of is loaded again from the texts of
those files: every key stands in the same file with the same content, and every
file has the same imports and plugins.
-/

namespace Provision

open Provision.Language (Node SourceFile parse)

theorem exists_of_forall₂ {α β : Type} {r : α → β → Prop} {items : List α} {others : List β}
    (h : List.Forall₂ r items others) {a : α} (ha : a ∈ items) :
    ∃ b ∈ others, r a b := by
  induction h with
  | nil => cases ha
  | cons hab _ ih =>
    rcases List.mem_cons.1 ha with rfl | ha
    · exact ⟨_, List.mem_cons_self, hab⟩
    · obtain ⟨b, hb, hr⟩ := ih ha
      exact ⟨b, List.mem_cons_of_mem _ hb, hr⟩

namespace Inventory

variable {inventory : Inventory} {files : List FileScope} {sources : List SourceFile}

/-- The files for which there is something to record. -/
def recorded (inventory : Inventory) : List FileScope :=
  inventory.files.filter fun file => !file.isEmpty

theorem mem_files_of_recorded {file : FileScope} (h : file ∈ inventory.recorded) :
    file ∈ inventory.files :=
  (List.mem_filter.1 h).1

/-- A file that is left out holds no resource. -/
theorem resources_of_isEmpty {file : FileScope} (h : file.isEmpty = true) : file.resources = [] := by
  unfold FileScope.isEmpty at h
  rw [Bool.and_eq_true, List.isEmpty_iff] at h
  exact h.1

theorem resources_recorded (inventory : Inventory) :
    (inventory.recorded.flatMap fun file => Table.values file.resources) = inventory.resources := by
  unfold recorded resources
  induction inventory.files with
  | nil => rfl
  | cons file rest ih =>
    cases hempty : file.isEmpty with
    | true =>
      rw [List.filter_cons, hempty, List.flatMap_cons, resources_of_isEmpty hempty]
      exact ih
    | false =>
      rw [List.filter_cons, hempty, List.flatMap_cons, ← ih]
      rfl

/-- The texts of state files parse to what the files say. -/
theorem Writable.parse_files (h : inventory.Writable)
    (hfiles : ∀ file ∈ files, file ∈ inventory.files) :
    ∃ sources, List.Forall₂ FileScope.Printed files sources ∧
      (files.mapM fun file =>
        (parse file.path.text (stateText file)).mapError StateError.parse) = .ok sources := by
  induction files with
  | nil => exact ⟨[], .nil, rfl⟩
  | cons file rest ih =>
    obtain ⟨sources, hsources, hrest⟩ :=
      ih fun other hother => hfiles other (List.mem_cons_of_mem _ hother)
    have hresources : ∀ resource ∈ Table.values file.resources,
        resource.Writable inventory.registry :=
      fun resource hresource => h.resources resource
        (List.mem_flatMap.2 ⟨file, hfiles file List.mem_cons_self, hresource⟩)
    obtain ⟨source, hparse, hpath, hbody⟩ := parse_stateText hresources file.path.text
    refine ⟨source :: sources, .cons ⟨hpath, hbody⟩ hsources, ?_⟩
    rw [List.mapM_cons, hparse, hrest]
    rfl

theorem mem_homes {home : Nat × Resource} :
    home ∈ homes 0 files ↔
      ∃ file, files[home.1]? = some file ∧ home.2 ∈ Table.values file.resources := by
  obtain ⟨position, resource⟩ := home
  unfold homes
  simp only [List.mem_flatMap, List.mem_map, Prod.mk.injEq, Prod.exists,
    List.mk_mem_zipIdx_iff_getElem?]
  constructor
  · rintro ⟨file, _, hfile, resource, hresource, rfl, rfl⟩
    exact ⟨file, hfile, hresource⟩
  · rintro ⟨file, hfile, hresource⟩
    exact ⟨file, position, hfile, resource, hresource, rfl, rfl⟩

theorem map_snd_homes (first : Nat) (files : List FileScope) :
    (homes first files).map Prod.snd = files.flatMap fun file => Table.values file.resources := by
  unfold homes
  induction files generalizing first with
  | nil => rfl
  | cons file rest ih =>
    rw [List.zipIdx_cons, List.flatMap_cons, List.flatMap_cons, List.map_append, ih, List.map_map]
    congr 1
    exact List.map_id _

/-- The blocks of the state files restore the resources, each once. -/
theorem Writable.restoredBy (h : inventory.Writable)
    (hsources : List.Forall₂ FileScope.Printed inventory.recorded sources) :
    inventory.RestoredBy inventory.recorded.length (stateTasks sources) := by
  have htasks := forall₂_tasksOf hsources
  have hhomes := map_snd_homes 0 inventory.recorded
  rw [resources_recorded] at hhomes
  have hmem : ∀ home ∈ homes 0 inventory.recorded, home.2 ∈ inventory.resources := by
    intro home hhome
    rw [← hhomes]
    exact List.mem_map_of_mem hhome
  constructor
  · intro task htask
    obtain ⟨home, hhome, hfile, hbare⟩ := exists_of_forall₂ htasks htask
    obtain ⟨file, hposition, -⟩ := mem_homes.1 hhome
    exact ⟨hfile ▸ (List.getElem?_eq_some_iff.1 hposition).1, home.2, hmem home hhome, hbare⟩
  · have hkeys : (inventory.resources.map Resource.key).map some =
        (stateTasks sources).map fun task => statementKey task.node := by
      rw [← hhomes, List.map_map, List.map_map, ← List.forall₂_eq_eq_eq, List.forall₂_map_left_iff,
        List.forall₂_map_right_iff]
      refine ((List.forall₂_and_left _ _).2 ⟨hmem, htasks.flip⟩).imp ?_
      rintro home task ⟨hhome, -, hbare⟩
      exact (statementKey_resourceNode (h.resources _ hhome).nameable.toTrimmed hbare).symm
    rw [← hkeys]
    exact h.oneHome.once.map (Option.some_injective _)
  · intro resource hresource
    rw [← hhomes] at hresource
    obtain ⟨home, hhome, rfl⟩ := List.mem_map.1 hresource
    obtain ⟨task, htask, -, hbare⟩ := exists_of_forall₂ htasks.flip hhome
    exact ⟨task, htask, hbare⟩

/-- The resources of the recorded files, each in its file. -/
theorem Writable.mem_homes_iff (h : inventory.Writable) {position : Nat} {resource : Resource} :
    (position, resource) ∈ homes 0 inventory.recorded ↔
      ∃ file, inventory.recorded[position]? = some file ∧
        file.resource? resource.key = some resource := by
  rw [mem_homes]
  refine exists_congr fun file => and_congr_right fun hposition => ?_
  have hfile := mem_files_of_recorded (List.mem_of_getElem? hposition)
  constructor
  · intro hresource
    obtain ⟨key, hentry⟩ := Table.mem_values.1 hresource
    have hkey : key = resource.key := h.oneHome.keyed file hfile _ hentry
    subst hkey
    exact Table.get?_of_mem (h.oneHome.distinct file hfile) hentry
  · exact fun hheld => Table.mem_values.2 ⟨_, Table.mem_of_get? hheld⟩

/-- Before the first pass no file holds anything. -/
theorem Writable.restoring_opened (h : inventory.Writable)
    (hsources : List.Forall₂ FileScope.Printed inventory.recorded sources) :
    Restoring inventory inventory.recorded.length (stateTasks sources) (stateTasks sources)
        (.opened inventory.registry inventory.recorded sources) ∧
      ∀ position key, (Round.opened inventory.registry inventory.recorded
        sources).inventory.contentAt position key = none := by
  have hresource : ∀ file ∈ inventory.recorded.map FileScope.opened, file.resources = [] :=
    List.forall_mem_map.2 fun _ _ => rfl
  have hnone : ∀ key, (plain inventory.registry
      (inventory.recorded.map FileScope.opened)).resource? key = none := by
    intro key
    refine List.findSome?_eq_none_iff.2 fun file hfile => ?_
    rw [FileScope.resource?, hresource file hfile]
    rfl
  refine ⟨⟨rfl, rfl, ?_, List.length_map _, fun _ htask => htask, (h.restoredBy hsources).once,
    fun _ _ key _ => ⟨rfl, hnone key⟩⟩, fun position key =>
      contentAt_of_resource?_eq_none (hnone key) position⟩
  intro file hfile
  rw [hresource file hfile]
  exact List.nodup_nil

/-! ## Files apart from what they hold -/

/-- The paths, imports and plugins of the files. -/
def headings (inventory : Inventory) : List (Path × List Path × List String) :=
  inventory.files.map fun file => (file.path, file.imports, file.plugins)

theorem headings_insertAt (inventory : Inventory) (index : Nat) (resource : Resource) :
    (inventory.insertAt index resource).headings = inventory.headings := by
  unfold headings insertAt
  dsimp only
  apply List.ext_getElem
  · simp
  · intro position _ _
    rw [List.getElem_map, List.getElem_map, List.getElem_mapIdx]
    split <;> rfl

/-- Evaluation leaves everything but the resources as it is. -/
theorem Grown.headings_eq {other : Inventory} (h : inventory.Grown other) :
    other.headings = inventory.headings := by
  induction h with
  | refl => rfl
  | insert _ index resource _ _ _ ih => rw [headings_insertAt, ih]

theorem contentAt_congr {other : Inventory}
    (h : inventory.files.map FileScope.resources = other.files.map FileScope.resources)
    (position : Nat) (key : Key) :
    inventory.contentAt position key = other.contentAt position key := by
  have hcontent : ∀ some : Inventory, some.contentAt position key =
      ((some.files.map FileScope.resources)[position]?.bind fun table =>
        Table.get? table key).map Resource.content := by
    intro some
    unfold contentAt
    rw [List.getElem?_map, Option.bind_map]
    rfl
  rw [hcontent, hcontent, h]

/-- Giving the files their bindings leaves the rest of them as it is. -/
theorem result_same (round : Round) (indices : List Nat) :
    (round.result indices).headings = round.inventory.headings ∧
      ∀ position key, (round.result indices).contentAt position key =
        round.inventory.contentAt position key := by
  unfold Round.result
  generalize round.scopes.zip indices = entries
  generalize round.inventory = start
  induction entries generalizing start with
  | nil => exact ⟨rfl, fun _ _ => rfl⟩
  | cons entry rest ih =>
    rw [List.foldl_cons]
    obtain ⟨hheadings, hcontent⟩ := ih (start.modifyFile entry.2 fun file =>
      { file with bindings := entry.1.values })
    refine ⟨hheadings.trans (start.map_modifyFile entry.2 fun _ => rfl), fun position key => ?_⟩
    have hresources : (start.modifyFile entry.2 fun file =>
        { file with bindings := entry.1.values }).files.map FileScope.resources =
          start.files.map FileScope.resources := start.map_modifyFile entry.2 fun _ => rfl
    rw [hcontent, contentAt_congr hresources]

/-! ## The whole way -/

/-- What the recorded files hold is what the blocks of their state restore. -/
theorem Writable.contentAt_recorded (h : inventory.Writable)
    (hsources : List.Forall₂ FileScope.Printed inventory.recorded sources) {position : Nat}
    {key : Key} {content : Content} :
    (plain inventory.registry inventory.recorded).contentAt position key = some content ↔
      ∃ task ∈ stateTasks sources, ∃ resource ∈ inventory.resources,
        task.node.bare = (resourceNode resource).bare ∧
          (position, key, content) = (task.file, resource.key, resource.content) := by
  have htasks := forall₂_tasksOf hsources
  have hresources : ∀ home ∈ homes 0 inventory.recorded, home.2 ∈ inventory.resources := by
    intro home hhome
    rw [← resources_recorded, ← map_snd_homes 0]
    exact List.mem_map_of_mem hhome
  constructor
  · intro hcontent
    obtain ⟨resource, hheld, rfl⟩ := Option.map_eq_some_iff.1 hcontent
    obtain ⟨file, hposition, hresource⟩ := Option.bind_eq_some_iff.1 hheld
    have hfile := mem_files_of_recorded (List.mem_of_getElem? hposition)
    obtain rfl : key = resource.key := h.oneHome.keyed file hfile _ (Table.mem_of_get? hresource)
    have hhome := h.mem_homes_iff.2 ⟨file, hposition, hresource⟩
    obtain ⟨task, htask, hplace, hbare⟩ := exists_of_forall₂ htasks.flip hhome
    exact ⟨task, htask, resource, hresources _ hhome, hbare, by rw [hplace]⟩
  · rintro ⟨task, htask, resource, hresource, hbare, hfact⟩
    cases hfact
    obtain ⟨⟨place, found⟩, hhome, hplace, hfoundBare⟩ := exists_of_forall₂ htasks htask
    -- the block tells which resource it restores
    have hsame := (restoredBy?_eq h (hresources _ hhome) hfoundBare).symm.trans
      (restoredBy?_eq h hresource hbare)
    obtain rfl := Option.some.inj hsame
    obtain rfl : task.file = place := hplace
    obtain ⟨file, hposition, hheld⟩ := h.mem_homes_iff.1 hhome
    have hfile : (plain inventory.registry inventory.recorded).files[task.file]? = some file :=
      hposition
    rw [contentAt, hfile, Option.bind_some, hheld, Option.map_some]

/-- Evaluation starts with the files of the state, which hold nothing yet. -/
theorem Writable.start (h : inventory.Writable)
    (hsources : List.Forall₂ FileScope.Printed inventory.recorded sources) :
    Round.start (.empty inventory.registry) sources =
      .ok (.opened inventory.registry inventory.recorded sources, List.range' 0 sources.length) :=
  start_printed hsources (fun file hfile => h.files file (mem_files_of_recorded hfile))
    (h.paths.sublist List.filter_sublist)

/-- The files of a state as they are loaded: each with the resources recorded for it. -/
theorem Writable.evaluate (h : inventory.Writable) (hgrounded : inventory.Grounded)
    (hsources : List.Forall₂ FileScope.Printed inventory.recorded sources) :
    ∃ after, evaluateState inventory.registry sources = .ok after ∧
      after.headings = (plain inventory.registry (inventory.recorded.map FileScope.opened)).headings ∧
      ∀ position key, after.contentAt position key =
        (plain inventory.registry inventory.recorded).contentAt position key := by
  have hall := h.restoredBy hsources
  obtain ⟨hrestoring, hempty⟩ := h.restoring_opened hsources
  obtain ⟨last, hrun, hcontent⟩ := restoring_run h hgrounded hall hrestoring hempty rfl
  obtain ⟨hheadings, hsame⟩ := result_same last (List.range' 0 sources.length)
  refine ⟨last.result (List.range' 0 sources.length), ?_, ?_, fun position key => ?_⟩
  · have hround : (Round.opened inventory.registry inventory.recorded sources).run stateSetup
        (passBound (stateTasks sources)) = .ok last := hrun
    unfold evaluateState evaluateFiles
    rw [h.start hsources, ok_bind]
    show (Round.run stateSetup (passBound (stateTasks sources)) _ >>= _) = _
    rw [hround]
    rfl
  · rw [hheadings, (Round.run_grown hrun).headings_eq]
    rfl
  · refine Option.ext fun content => ?_
    rw [hsame, hcontent, h.contentAt_recorded hsources]

/-- State files that evaluate have no references that lead nowhere. -/
theorem Writable.grounded_of_evaluate (h : inventory.Writable)
    (hsources : List.Forall₂ FileScope.Printed inventory.recorded sources) {after : Inventory}
    (hevaluate : evaluateState inventory.registry sources = .ok after) :
    inventory.Grounded := by
  obtain ⟨hrestoring, hempty⟩ := h.restoring_opened hsources
  unfold evaluateState evaluateFiles at hevaluate
  rw [h.start hsources, ok_bind] at hevaluate
  obtain ⟨last, hrun, -⟩ := bind_eq_ok.1 hevaluate
  exact grounded_of_run h (h.restoredBy hsources) hrestoring hempty rfl hrun

/-- A file that was read back: it says what it said before. -/
structure FileRestored (file again : FileScope) : Prop where
  path : again.path = file.path
  plugins : again.plugins = file.plugins
  imports : List.Forall₂ (fun path read => path.same read = true) file.imports again.imports
  resources : ∀ key, (again.resource? key).map Resource.content =
    (file.resource? key).map Resource.content

theorem Writable.filesRestored (h : inventory.Writable) {after : Inventory}
    (hheadings : after.headings =
      (plain inventory.registry (inventory.recorded.map FileScope.opened)).headings)
    (hcontent : ∀ position key, after.contentAt position key =
      (plain inventory.registry inventory.recorded).contentAt position key) :
    List.Forall₂ FileRestored inventory.recorded after.files := by
  have hheading : List.Forall₂ (fun file again : FileScope =>
      (again.path, again.imports, again.plugins) = (file.path, file.readImports, file.plugins))
      inventory.recorded after.files := by
    unfold headings plain at hheadings
    dsimp only at hheadings
    rw [List.map_map, ← List.forall₂_eq_eq_eq, List.forall₂_map_left_iff,
      List.forall₂_map_right_iff] at hheadings
    exact hheadings.flip
  obtain ⟨hlength, hheading⟩ := List.forall₂_iff_get.1 hheading
  refine List.forall₂_iff_get.2 ⟨hlength, fun position hfile hagain => ?_⟩
  obtain ⟨hpath, himports, hplugins⟩ := by
    simpa only [Prod.mk.injEq] using hheading position hfile hagain
  have hmem := mem_files_of_recorded (List.get_mem inventory.recorded ⟨position, hfile⟩)
  refine ⟨hpath, hplugins, ?_, fun key => ?_⟩
  · rw [himports]
    exact (h.files _ hmem).readImports_same
  · have hsame := hcontent position key
    unfold contentAt plain at hsame
    dsimp only at hsame
    rwa [List.getElem?_eq_getElem hagain, List.getElem?_eq_getElem hfile, Option.bind_some,
      Option.bind_some] at hsame

/-- A look-up finds in restored files what it finds in the files themselves. -/
theorem lookup_restored {others : List FileScope} (h : List.Forall₂ FileRestored files others)
    (key : Key) :
    (others.findSome? fun file => file.resource? key).map Resource.content =
        (files.findSome? fun file => file.resource? key).map Resource.content ∧
      (others.find? fun file => Table.has file.resources key).map FileScope.path =
        (files.find? fun file => Table.has file.resources key).map FileScope.path := by
  induction h with
  | nil => exact ⟨rfl, rfl⟩
  | @cons file again files others hfile _ ih =>
    have hresource := hfile.resources key
    have hhas : Table.has again.resources key = Table.has file.resources key := by
      have hsome := congrArg Option.isSome hresource
      rwa [Option.isSome_map, Option.isSome_map] at hsome
    constructor
    · rw [List.findSome?_cons, List.findSome?_cons]
      cases hget : file.resource? key with
      | none =>
        rw [hget, Option.map_none, Option.map_eq_none_iff] at hresource
        rw [hresource]
        exact ih.1
      | some resource =>
        rw [hget, Option.map_some] at hresource
        obtain ⟨found, hfound, hcontent⟩ := Option.map_eq_some_iff.1 hresource
        rw [hfound, Option.map_some, hcontent]
        rfl
    · rw [List.find?_cons, List.find?_cons, hhas]
      split
      · exact congrArg some hfile.path
      · exact ih.2

/-- A file that is left out bears on no look-up. -/
theorem lookup_recorded (inventory : Inventory) (key : Key) :
    (inventory.recorded.findSome? fun file => file.resource? key) = inventory.resource? key ∧
      (inventory.recorded.find? fun file => Table.has file.resources key).map FileScope.path =
        inventory.fileOf? key := by
  unfold recorded resource? fileOf?
  induction inventory.files with
  | nil => exact ⟨rfl, rfl⟩
  | cons file rest ih =>
    cases hempty : file.isEmpty with
    | true =>
      have hnone : file.resource? key = none := by
        rw [FileScope.resource?, resources_of_isEmpty hempty]
        rfl
      have hhas : Table.has file.resources key = false := congrArg Option.isSome hnone
      rw [List.filter_cons, hempty, List.findSome?_cons, hnone, List.find?_cons, hhas]
      exact ih
    | false =>
      rw [List.filter_cons, hempty, if_pos (by rfl), List.findSome?_cons, List.findSome?_cons,
        List.find?_cons, List.find?_cons, ih.1]
      refine ⟨rfl, ?_⟩
      split
      · rfl
      · exact ih.2

end Inventory

/-- State is read back: each key in the same file with the same content, and each file with the same
imports and plugins. -/
theorem reload_recorded {inventory : Inventory} (h : inventory.Recordable) :
    ∃ after, reload inventory.registry (inventory.files.filter fun file => !file.isEmpty) = .ok after ∧
      (∀ key, after.fileOf? key = inventory.fileOf? key ∧
        (after.resource? key).map Resource.content =
          (inventory.resource? key).map Resource.content) ∧
      List.Forall₂ (fun file again => again.path = file.path ∧ again.plugins = file.plugins ∧
          List.Forall₂ (fun path read => path.same read = true) file.imports again.imports)
        (inventory.files.filter fun file => !file.isEmpty) after.files := by
  obtain ⟨hwritable, hgrounded⟩ := Inventory.recordable_iff.1 h
  obtain ⟨sources, hsources, hparse⟩ :=
    hwritable.parse_files fun file => Inventory.mem_files_of_recorded
  obtain ⟨after, hevaluate, hheadings, hcontent⟩ := hwritable.evaluate hgrounded hsources
  have hrestored := hwritable.filesRestored hheadings hcontent
  refine ⟨after, ?_, fun key => ?_, hrestored.imp fun file again hfile =>
    ⟨hfile.path, hfile.plugins, hfile.imports⟩⟩
  · unfold reload
    rw [show (inventory.files.filter fun file => !file.isEmpty) = inventory.recorded from rfl, hparse,
      ok_bind, hevaluate]
    rfl
  · obtain ⟨hresource, hfile⟩ := Inventory.lookup_restored hrestored key
    obtain ⟨hrecorded, hplace⟩ := inventory.lookup_recorded key
    exact ⟨hfile.trans hplace, hresource.trans (congrArg _ hrecorded)⟩

/-- State can be read back exactly when its references lead to resources of the state, and in no
circle. -/
theorem reload_iff {inventory : Inventory} (h : inventory.Writable) :
    (∃ after, reload inventory.registry (inventory.files.filter fun file => !file.isEmpty) =
      .ok after) ↔ inventory.Grounded := by
  constructor
  · rintro ⟨after, hreload⟩
    obtain ⟨sources, hsources, hparse⟩ := h.parse_files fun file => Inventory.mem_files_of_recorded
    unfold reload at hreload
    rw [show (inventory.files.filter fun file => !file.isEmpty) = inventory.recorded from rfl, hparse,
      ok_bind] at hreload
    cases hevaluate : evaluateState inventory.registry sources with
    | ok found => exact h.grounded_of_evaluate hsources hevaluate
    | error e =>
      rw [hevaluate] at hreload
      cases hreload
  · intro hgrounded
    obtain ⟨after, hreload, -⟩ := reload_recorded (Inventory.recordable_iff.2 ⟨h, hgrounded⟩)
    exact ⟨after, hreload⟩

/-! ### A state of two files -/

/-- A lamp has a place and parts. -/
def lampType : ResourceType :=
  ⟨⟨"store::lamp", rfl⟩, [⟨"place", false, false, true, false⟩, ⟨"parts", true, true, false, false⟩],
    {}⟩

/-- The key of a lamp. -/
def lampKey (name : String) : Key :=
  ⟨lampType.name, name⟩

/-- A lamp at a place with parts, which depends on other lamps. -/
def lamp (name place : String) (parts : Value) (needs : List String) : Resource where
  key := lampKey name
  type := lampType
  fields := [("place", .text place), ("parts", parts)]
  configured := ["parts", "place"]
  dependsOn := needs.map lampKey
  origin := Span.generated

/-- The parts of the lamp in the hall: the spare one, and some glass. -/
def hallParts : Value :=
  .list [.resource (lampKey "spare one"), .map [("glass", .text "it's \"clear\""), ("wick", .null)]]

/-- The lamp in the hall refers to the spare one, which stands in a file of its own. -/
def lamps : Inventory where
  registry := Registry.addType {} lampType
  files :=
    [{ path := ⟨"/depot/main"⟩, imports := [⟨"/depot/store/spare"⟩], plugins := ["store"],
       resources := [(lampKey "hall", lamp "hall" "door" hallParts ["spare one"])] },
     { path := ⟨"/depot/store/spare"⟩,
       resources := [(lampKey "spare one", lamp "spare one" "shelf" .null [])] }]

theorem hallParts_writable : hallParts.Writable := by
  refine .list (List.forall_mem_cons.2 ⟨.resource _, List.forall_mem_singleton.2 (.map ?_ ?_)⟩)
  · show ["glass", "wick"].Nodup
    decide
  · exact List.forall_mem_cons.2 ⟨.text _, List.forall_mem_singleton.2 .null⟩

theorem mem_lamps {resource : Resource} (h : resource ∈ lamps.resources) :
    resource = lamp "hall" "door" hallParts ["spare one"] ∨
      resource = lamp "spare one" "shelf" .null [] := by
  have hresources : lamps.resources =
      [lamp "hall" "door" hallParts ["spare one"], lamp "spare one" "shelf" .null []] := rfl
  rw [hresources] at h
  simpa using h

theorem lamps_refers {key target : Key} (h : lamps.Refers key target) :
    key = lampKey "hall" ∧ target = lampKey "spare one" := by
  obtain ⟨resource, hresource, field, hfield, htarget⟩ := h
  have hkeyed : lamps.Keyed := by
    unfold Inventory.Keyed
    decide
  obtain ⟨hmem, rfl⟩ := hkeyed.key_of_resource? hresource
  rcases mem_lamps hmem with rfl | rfl
  · refine ⟨rfl, ?_⟩
    rcases List.mem_pair.1 hfield with rfl | rfl
    · cases htarget
    · exact List.mem_singleton.1 htarget
  · rcases List.mem_pair.1 hfield with rfl | rfl
    · cases htarget
    · cases htarget

/-- A lamp is written when its parts are, and name no more than what it depends on. -/
theorem lamp_writes {name place : String} {parts : Value} {needs : List String}
    (hname : (lampKey name).Nameable) (hparts : parts.Writable)
    (hhandles : ∀ key ∈ parts.handles, key ∈ needs.map lampKey ∧ lamps.has key = true)
    (hneeds : ∀ need ∈ needs, (lampKey need).Trimmed) (hown : lampKey name ∉ needs.map lampKey) :
    lamps.Writes (lamp name place parts needs) where
  nameable := hname
  type_eq := rfl
  schema := by
    show (lampType.schema.map FieldSpec.name).Nodup
    decide
  unreserved := by
    show ∀ field ∈ [configuredFieldsKey, dependsOnKey], field ∉ lampType.schema.map FieldSpec.name
    decide
  distinct := by
    show ["place", "parts"].Nodup
    decide
  fields := List.forall_mem_cons.2
    ⟨⟨List.mem_cons_self, .text place⟩, List.forall_mem_singleton.2
      ⟨List.mem_cons_of_mem _ List.mem_cons_self, hparts⟩⟩
  handles := List.forall_mem_cons.2
    ⟨nofun, List.forall_mem_singleton.2 fun key hkey => (hhandles key hkey).1⟩
  present := List.forall_mem_cons.2
    ⟨nofun, List.forall_mem_singleton.2 fun key hkey => (hhandles key hkey).2⟩
  dependsOn := List.forall_mem_map.2 hneeds
  own := hown

theorem lamps_recordable : lamps.Recordable where
  named := Registry.named_empty.addType lampType
  oneHome := ⟨by unfold Inventory.Keyed; decide, by decide⟩
  paths := by decide +kernel
  files := by
    refine List.forall_mem_cons.2 ⟨?_, List.forall_mem_singleton.2 ?_⟩
    · exact ⟨⟨by decide +kernel, by decide +kernel⟩,
        List.forall_mem_singleton.2 ⟨by decide +kernel, by decide +kernel⟩,
        List.pairwise_singleton _ _, by decide, List.nodup_singleton _⟩
    · exact ⟨⟨by decide +kernel, by decide +kernel⟩, nofun, List.Pairwise.nil, nofun, List.nodup_nil⟩
  resources := by
    have hspace : ∀ c ∈ lampType.name.space.toList.head?, Language.isNameStart c = true := by
      have hhead : lampType.name.space.toList.head? = some 's' := by decide +kernel
      rw [hhead]
      rintro c ⟨⟩
      rfl
    have hspare : (lampKey "spare one").Nameable :=
      ⟨⟨by decide +kernel, by decide +kernel⟩, hspace, by decide +kernel⟩
    have hhall : (lampKey "hall").Nameable :=
      ⟨⟨by decide +kernel, by decide +kernel⟩, hspace, by decide +kernel⟩
    intro resource hresource
    rcases mem_lamps hresource with rfl | rfl
    · exact lamp_writes hhall hallParts_writable (by decide +kernel)
        (List.forall_mem_singleton.2 hspare.toTrimmed) (by decide)
    · exact lamp_writes hspare .null nofun nofun nofun
  acyclic := by
    intro key hcircle
    have hends : ∀ target, Relation.TransGen lamps.Refers key target →
        key = lampKey "hall" ∧ target = lampKey "spare one" := by
      intro target hpath
      refine ⟨?_, ?_⟩
      · obtain ⟨next, hfirst, -⟩ := Relation.TransGen.head'_iff.1 hpath
        exact (lamps_refers hfirst).1
      · obtain ⟨last, -, hlast⟩ := Relation.TransGen.tail'_iff.1 hpath
        exact (lamps_refers hlast).2
    obtain ⟨hhall, hspare⟩ := hends key hcircle
    exact absurd (hhall.symm.trans hspare) (by decide)

/-- The two files of the lamps are read back. -/
theorem reload_recorded_lamps :
    lamps.Recordable ∧ lamps.files.length = 2 ∧
      ∃ after, reload lamps.registry (lamps.files.filter fun file => !file.isEmpty) = .ok after ∧
      (∀ key, after.fileOf? key = lamps.fileOf? key ∧
        (after.resource? key).map Resource.content =
          (lamps.resource? key).map Resource.content) ∧
      List.Forall₂ (fun file again => again.path = file.path ∧ again.plugins = file.plugins ∧
          List.Forall₂ (fun path read => path.same read = true) file.imports again.imports)
        (lamps.files.filter fun file => !file.isEmpty) after.files :=
  ⟨lamps_recordable, rfl, reload_recorded lamps_recordable⟩

end Provision

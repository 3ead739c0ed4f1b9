import Provision.Proofs.Canonical
import Provision.Proofs.State.RoundTrip

/-!
# Recorded imports

Evaluation takes up the `@import` directives of a source with a reading of its own.
It comes to the same targets as following the imports does: what each file of the
evaluated inventory records is these targets, without repetition.
-/

namespace Provision

open Provision.Language (Node Directive SourceFile)

/-! ## What a list of targets adds -/

/-- Imports with one more, unless it is there already. -/
def addTarget (imports : List Path) (path : Path) : List Path :=
  if path.isIn imports then imports else imports ++ [path]

/-- Paths without repetition, each where it first occurs. -/
def distinctPaths (paths : List Path) : List Path :=
  paths.foldl addTarget []

theorem addImport_eq (file : FileScope) (path : Path) :
    file.addImport path = { file with imports := addTarget file.imports path } := by
  unfold FileScope.addImport addTarget
  split <;> rfl

theorem foldl_addTarget {imports targets : List Path} (hnodup : imports.Nodup)
    (himports : ∀ path ∈ imports, path.Canonical) (htargets : ∀ path ∈ targets, path.Canonical) :
    (targets.foldl addTarget imports).Nodup ∧
      ∀ path, path ∈ targets.foldl addTarget imports ↔ path ∈ imports ∨ path ∈ targets := by
  induction targets generalizing imports with
  | nil => exact ⟨hnodup, fun path => (or_iff_left List.not_mem_nil).symm⟩
  | cons target rest ih =>
    have htarget := htargets target List.mem_cons_self
    have hrest : ∀ path ∈ rest, path.Canonical := fun path hpath =>
      htargets path (List.mem_cons_of_mem _ hpath)
    rw [List.foldl_cons, addTarget]
    split
    · next hin =>
      obtain ⟨hnodup, hmem⟩ := ih hnodup himports hrest
      refine ⟨hnodup, fun path => ?_⟩
      have hthere : target ∈ imports := (htarget.isIn_iff himports).1 hin
      rw [hmem, List.mem_cons]
      constructor
      · exact Or.imp_right Or.inr
      · rintro (hpath | rfl | hpath)
        · exact Or.inl hpath
        · exact Or.inl hthere
        · exact Or.inr hpath
    · next hnew =>
      have hfresh : target ∉ imports := mt (htarget.isIn_iff himports).2 hnew
      have hmore : ∀ path ∈ imports ++ [target], path.Canonical := fun path hpath =>
        (List.mem_append.1 hpath).elim (himports path) fun hpath =>
          List.mem_singleton.1 hpath ▸ htarget
      obtain ⟨hnodup, hmem⟩ := ih
        (hnodup.append (List.nodup_singleton target) (List.disjoint_singleton.2 hfresh)) hmore hrest
      refine ⟨hnodup, fun path => ?_⟩
      rw [hmem, List.mem_append, List.mem_singleton, List.mem_cons, or_assoc]

theorem nodup_distinctPaths {paths : List Path} (h : ∀ path ∈ paths, path.Canonical) :
    (distinctPaths paths).Nodup :=
  (foldl_addTarget List.nodup_nil (List.forall_mem_nil _) h).1

theorem mem_distinctPaths {paths : List Path} (h : ∀ path ∈ paths, path.Canonical) (path : Path) :
    path ∈ distinctPaths paths ↔ path ∈ paths :=
  ((foldl_addTarget List.nodup_nil (List.forall_mem_nil _) h).2 path).trans
    (or_iff_right List.not_mem_nil)

/-! ## Taking up the imports of a source -/

namespace Inventory

variable {inventory after : Inventory} {path : Path} {index : Nat}

/-- The paths of the files with what they import. -/
def importing (inventory : Inventory) : List (Path × List Path) :=
  inventory.files.map fun file => (file.path, file.imports)

theorem importing_eq (inventory : Inventory) :
    inventory.importing = inventory.headings.map fun heading => (heading.1, heading.2.1) := by
  unfold importing headings
  rw [List.map_map]
  rfl

/-- Adds targets to the imports of the file at a position. -/
def addTargets (files : List (Path × List Path)) (index : Nat) (targets : List Path) :
    List (Path × List Path) :=
  files.modify index fun file => (file.1, targets.foldl addTarget file.2)

theorem addTargets_nil (files : List (Path × List Path)) (index : Nat) :
    addTargets files index [] = files :=
  List.modify_id index files

theorem addTargets_append (files : List (Path × List Path)) (index : Nat)
    (front back : List Path) :
    addTargets files index (front ++ back) =
      addTargets (addTargets files index front) index back := by
  unfold addTargets
  rw [List.modify_modify_eq]
  congr 1
  funext file
  rw [List.foldl_append]
  rfl

theorem importing_modifyFile (inventory : Inventory) (index : Nat)
    {change : FileScope → FileScope} {targets : List Path}
    (hpath : ∀ file, (change file).path = file.path)
    (himports : ∀ file, (change file).imports = targets.foldl addTarget file.imports) :
    (inventory.modifyFile index change).importing =
      addTargets inventory.importing index targets := by
  unfold modifyFile importing addTargets
  dsimp only
  generalize inventory.files = files
  induction files generalizing index with
  | nil => cases index <;> rfl
  | cons file rest ih =>
    cases index with
    | zero =>
      rw [List.modify_zero_cons, List.map_cons, List.map_cons, List.modify_zero_cons, hpath,
        himports]
    | succ index =>
      rw [List.modify_succ_cons, List.map_cons, List.map_cons, List.modify_succ_cons, ih index]

/-- An import that evaluation takes up is one that is followed. -/
theorem importOf?_of_literalArgument {d : Directive} {text : String} (hname : d.name = "import")
    (h : literalArgument d = .ok text) :
    SourceFile.importOf? (.directive d) = some (text, d.span) := by
  unfold literalArgument firstText? at h
  unfold SourceFile.importOf?
  dsimp only
  rw [if_pos hname]
  cases hargument : d.arguments.head? with
  | none =>
    rw [hargument] at h
    cases h
  | some node =>
    rw [hargument] at h
    cases node <;> cases h
    rfl

/-- What a definition adds to the imports of its file. -/
theorem takeDefinition_importing {d : Directive}
    (h : takeDefinition path index inventory d = .ok after) :
    after.importing = addTargets inventory.importing index
      ((SourceFile.importOf? (.directive d)).toList.map fun entry =>
        importTarget path entry.1) := by
  have hother (hname : d.name ≠ "import") : addTargets inventory.importing index
      ((SourceFile.importOf? (.directive d)).toList.map fun entry => importTarget path entry.1) =
        inventory.importing := by
    have hnone : SourceFile.importOf? (.directive d) = none := if_neg hname
    rw [hnone]
    exact addTargets_nil _ _
  rcases takeDefinition_cases h with
    ⟨hname, text, htext, rfl⟩ | ⟨hname, space, rfl⟩ | ⟨hname, _, _, rfl⟩
  · rw [importOf?_of_literalArgument hname htext]
    exact importing_modifyFile inventory index (fun file => by rw [addImport_eq])
      fun file => by rw [addImport_eq]; rfl
  · rw [hother hname]
    refine inventory.map_modifyFile index fun file => ?_
    unfold FileScope.addPlugin
    split <;> rfl
  · rw [hother hname]
    rfl

theorem takeDefinitions_importing {nodes : List Node}
    (h : takeDefinitions path index inventory nodes = .ok after) :
    after.importing = addTargets inventory.importing index
      ((nodes.filterMap SourceFile.importOf?).map fun entry => importTarget path entry.1) := by
  induction nodes generalizing inventory with
  | nil =>
    cases h
    exact (addTargets_nil _ _).symm
  | cons node rest ih =>
    cases node with
    | directive d =>
      obtain ⟨between, hfirst, hrest⟩ := bind_eq_ok.1 h
      rw [ih hrest, takeDefinition_importing hfirst, ← addTargets_append, ← List.map_append]
      congr 2
      rw [List.filterMap_cons]
      cases SourceFile.importOf? (.directive d) <;> rfl
    | _ => exact ih h

theorem addTargets_first (front back : List (Path × List Path)) (path : Path)
    (targets : List Path) :
    addTargets (front ++ (path, []) :: back) front.length targets =
      front ++ (path, distinctPaths targets) :: back := by
  unfold addTargets
  rw [List.modify_eq_take_cons_drop (by simp)]
  simp [distinctPaths]

/-- Sources behind those that were taken up already. -/
theorem takeAllDefinitions_importing {sources : List SourceFile} (front : List (Path × List Path))
    (hstart : inventory.importing = front ++ sources.map fun source => (⟨source.path⟩, []))
    (h : takeAllDefinitions inventory
      (sources.zip (List.range' front.length sources.length)) = .ok after) :
    after.importing = front ++ sources.map fun source =>
      (⟨source.path⟩, distinctPaths (importTargets ⟨source.path⟩ source)) := by
  induction sources generalizing inventory front with
  | nil =>
    cases h
    exact hstart
  | cons source rest ih =>
    rw [List.length_cons, List.range'_succ, List.zip_cons_cons] at h
    obtain ⟨between, hfirst, hrest⟩ := bind_eq_ok.1 h
    have hbetween := takeDefinitions_importing hfirst
    rw [hstart, List.map_cons, addTargets_first] at hbetween
    rw [List.append_cons] at hbetween
    rw [List.map_cons, List.append_cons]
    exact ih _ hbetween (by rwa [List.length_append, List.length_singleton])

end Inventory

/-- The files of an evaluated inventory are those that were read, and each records the targets of
its imports. -/
theorem evaluateFiles_importing {setup : EvaluationSetup} {registry : Registry}
    {sources : List SourceFile} {inventory : Inventory}
    (hapart : (sources.map fun source => Path.mk source.path).Pairwise
      fun path other => path.same other = false)
    (h : evaluateFiles setup (.empty registry) sources = .ok inventory) :
    inventory.importing = sources.map fun source =>
      (⟨source.path⟩, distinctPaths (importTargets ⟨source.path⟩ source)) := by
  unfold evaluateFiles at h
  obtain ⟨⟨round, indices⟩, hstart, h⟩ := bind_eq_ok.1 h
  obtain ⟨last, hlast, h⟩ := bind_eq_ok.1 h
  cases h
  have hkept : (last.result indices).importing = round.inventory.importing := by
    rw [Inventory.importing_eq, Inventory.importing_eq, (Inventory.result_same last indices).1,
      (Round.run_grown hlast).headings_eq]
  have hensure := @ensureFiles_eq (.empty registry) sources hapart
  unfold Round.start at hstart
  rw [hensure] at hstart
  obtain ⟨taken, htaken, hstart⟩ := bind_eq_ok.1 hstart
  cases hstart
  rw [hkept]
  refine Inventory.takeAllDefinitions_importing [] ?_ htaken
  unfold Inventory.importing Inventory.empty
  rw [List.nil_append, List.nil_append, List.map_map]
  rfl

end Provision

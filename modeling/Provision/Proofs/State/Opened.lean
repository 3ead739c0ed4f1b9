import Provision.Proofs.State.Blocks

/-!
# State files as they are opened

Before any block of a state is evaluated, every file has its place, its plugins
and its imports.  An import is written as seen from its file and leads back from
there to the path it was written for.
-/

namespace Provision

open Provision.Language (Node Directive SourceFile bareNodes_eq_map)

/-! ## Files that say what they import and plug in -/

/-- The imports of a file as its state leads to them. -/
def FileScope.readImports (file : FileScope) : List Path :=
  file.imports.map fun path => importTarget file.path (Path.relativeTo file.path.directory path).text

/-- What a state file declares besides resources. -/
def FileScope.opened (file : FileScope) : FileScope where
  path := file.path
  imports := file.readImports
  plugins := file.plugins

/-- An inventory of some files that defines nothing across files. -/
def Inventory.plain (registry : Registry) (files : List FileScope) : Inventory :=
  ⟨registry, files, [], []⟩

/-- A source that reads like the state of a file, under the path of that file. -/
structure FileScope.Printed (file : FileScope) (source : SourceFile) : Prop where
  path : source.path = file.path.text
  body : source.body.map Node.bare = (stateFile file).body.map Node.bare

section Adding

variable {file : FileScope}

theorem foldl_addPlugin {plugins : List String} (h : (file.plugins ++ plugins).Nodup) :
    plugins.foldl FileScope.addPlugin file = { file with plugins := file.plugins ++ plugins } := by
  induction plugins generalizing file with
  | nil => rw [List.append_nil]; rfl
  | cons space rest ih =>
    have hnew : file.plugins.contains space = false := by
      rw [List.contains_eq_mem, decide_eq_false_iff_not]
      exact fun hmem => (List.nodup_append.1 h).2.2 _ hmem _ List.mem_cons_self rfl
    have hadd : file.addPlugin space = { file with plugins := file.plugins ++ [space] } := by
      unfold FileScope.addPlugin
      rw [hnew, if_neg Bool.false_ne_true]
    rw [List.foldl_cons, hadd, ih (by simpa using h)]
    simp

theorem foldl_addImport {imports : List Path}
    (h : (file.imports ++ imports).Pairwise fun path other => path.same other = false) :
    imports.foldl FileScope.addImport file = { file with imports := file.imports ++ imports } := by
  induction imports generalizing file with
  | nil => rw [List.append_nil]; rfl
  | cons path rest ih =>
    have hnew : path.isIn file.imports = false := by
      unfold Path.isIn
      rw [List.any_eq_false]
      intro other hother hsame
      have hdifferent := (List.pairwise_append.1 h).2.2 other hother path List.mem_cons_self
      rw [Path.same_comm.1 hsame] at hdifferent
      cases hdifferent
    have hadd : file.addImport path = { file with imports := file.imports ++ [path] } := by
      unfold FileScope.addImport
      rw [hnew, if_neg Bool.false_ne_true]
    rw [List.foldl_cons, hadd, ih (by simpa using h)]
    simp

variable {inventory : Inventory}

/-- The imports are read as they were. -/
theorem Inventory.WritesFile.readImports_same (h : inventory.WritesFile file) :
    List.Forall₂ (fun path read => path.same read = true) file.imports file.readImports := by
  unfold FileScope.readImports
  rw [List.forall₂_map_right_iff, List.forall₂_same]
  exact fun path hpath => Path.same_comm.1 (h.path.joined_directory (h.imports path hpath))

theorem Inventory.WritesFile.readImports_once (h : inventory.WritesFile file) :
    file.readImports.Pairwise fun path other => path.same other = false := by
  unfold FileScope.readImports
  rw [List.pairwise_map]
  refine h.importsOnce.imp_of_mem fun {path other} hpath hother hdifferent => ?_
  have hread := fun {path : Path} (hpath : path ∈ file.imports) =>
    Path.same_iff.1 (h.path.joined_directory (h.imports path hpath))
  rw [← Bool.not_eq_true, Path.same_iff] at hdifferent ⊢
  unfold importTarget
  rw [hread hpath, hread hother]
  exact hdifferent

end Adding

/-! ## Making room for the files -/

/-- Files with different paths each get a place of their own, in order. -/
theorem ensureFiles_eq {inventory : Inventory} {sources : List SourceFile}
    (h : (inventory.files.map FileScope.path ++ sources.map fun source => Path.mk source.path).Pairwise
      fun path other => path.same other = false) :
    ensureFiles inventory sources =
      ({ inventory with
          files := inventory.files ++ sources.map fun source => { path := ⟨source.path⟩ } },
        List.range' inventory.files.length sources.length) := by
  induction sources generalizing inventory with
  | nil => simp [ensureFiles]
  | cons source rest ih =>
    have hnew : inventory.indexOf? ⟨source.path⟩ = none := by
      unfold Inventory.indexOf?
      rw [List.findIdx?_eq_none_iff]
      exact fun file hfile => (List.pairwise_append.1 h).2.2 file.path
        (List.mem_map_of_mem hfile) _ List.mem_cons_self
    have hensure : inventory.ensureFile ⟨source.path⟩ =
        ({ inventory with files := inventory.files ++ [{ path := ⟨source.path⟩ }] },
          inventory.files.length) := by
      unfold Inventory.ensureFile
      rw [hnew]
    rw [ensureFiles, hensure]
    dsimp only
    rw [ih (by simpa using h)]
    simp [List.range'_succ]

/-! ## Taking up what a state file declares -/

section Taking

variable {inventory : Inventory} {file : FileScope} {source : SourceFile} {path : Path} {index : Nat}

theorem modifyFile_modifyFile (inventory : Inventory) (index : Nat)
    (first second : FileScope → FileScope) :
    (inventory.modifyFile index first).modifyFile index second =
      inventory.modifyFile index (second ∘ first) := by
  unfold Inventory.modifyFile
  dsimp only
  rw [List.modify_modify_eq]

theorem takeDefinitions_append (path : Path) (index : Nat) (inventory : Inventory)
    (front back : List Node) :
    takeDefinitions path index inventory (front ++ back) =
      takeDefinitions path index inventory front >>= fun between =>
        takeDefinitions path index between back := by
  induction front generalizing inventory with
  | nil => rfl
  | cons node rest ih =>
    cases node with
    | directive d =>
      rw [List.cons_append, takeDefinitions, takeDefinitions]
      cases takeDefinition path index inventory d with
      | error e => rfl
      | ok between => exact ih between
    | _ => exact ih inventory

/-- Notes of one kind, of which each changes the file. -/
theorem takeDefinitions_notes (path : Path) (index : Nat) (inventory : Inventory) {name : String}
    (change : String → FileScope → FileScope) {nodes : List Node} {texts : List String}
    (hbare : nodes.map Node.bare = (texts.map (noteNode name)).map Node.bare)
    (htake : ∀ text ∈ texts, ∀ given : Inventory, given.registry = inventory.registry →
      ∀ clauses bodyless body branches span,
        takeDefinition path index given
          ⟨name, [.text text], clauses, bodyless, body, branches, span⟩ =
            .ok (given.modifyFile index (change text))) :
    takeDefinitions path index inventory nodes =
      .ok (inventory.modifyFile index fun file => texts.foldl (fun file text => change text file)
        file) := by
  induction texts generalizing nodes inventory with
  | nil =>
    obtain rfl := List.map_eq_nil_iff.1 hbare
    rw [takeDefinitions, Inventory.modifyFile, show (fun file => List.foldl _ file []) = id from rfl,
      List.modify_id]
  | cons text texts ih =>
    obtain ⟨node, rest, rfl, hnode, hrest⟩ := List.map_eq_cons_iff.1 hbare
    obtain ⟨clauses, bodyless, body, branches, span, rfl⟩ := eq_note_of_bare hnode
    rw [takeDefinitions, htake text List.mem_cons_self inventory rfl]
    show takeDefinitions path index (inventory.modifyFile index (change text)) rest = _
    rw [ih (inventory.modifyFile index (change text)) hrest
      fun other hother => htake other (List.mem_cons_of_mem _ hother), modifyFile_modifyFile]
    rfl

/-- Blocks of resources declare nothing. -/
theorem takeDefinitions_resources {nodes : List Node} {resources : List Resource}
    (hbare : nodes.map Node.bare = (resources.map resourceNode).map Node.bare) :
    takeDefinitions path index inventory nodes = .ok inventory := by
  induction resources generalizing nodes with
  | nil =>
    obtain rfl := List.map_eq_nil_iff.1 hbare
    rfl
  | cons resource resources ih =>
    obtain ⟨node, rest, rfl, hnode, hrest⟩ := List.map_eq_cons_iff.1 hbare
    rw [resourceNode_eq, Node.bare] at hnode
    obtain ⟨name, source, span, rfl, -⟩ := Node.eq_resource_of_bare hnode
    show takeDefinitions path index inventory rest = _
    exact ih hrest

/-- A state file takes up its plugins and its imports. -/
theorem takeDefinitions_printed (h : file.Printed source) (given : Inventory) (index : Nat)
    (hplugins : ∀ space ∈ file.plugins, given.registry.hasNamespace space = true) :
    takeDefinitions file.path index given source.body =
      .ok (given.modifyFile index fun place =>
        file.readImports.foldl FileScope.addImport (file.plugins.foldl FileScope.addPlugin place)) := by
  have hbody := h.body
  unfold stateFile at hbody
  rw [List.map_append, List.map_append] at hbody
  obtain ⟨notes, blocks, hnodes, hnotes, hblocks⟩ := List.map_eq_append_iff.1 hbody
  obtain ⟨plugins, imports, rfl, hpluginNotes, himportNotes⟩ := List.map_eq_append_iff.1 hnotes
  have htakePlugins := takeDefinitions_notes file.path index given
    (fun space place => place.addPlugin space) hpluginNotes (by
      intro space hspace other hother clauses bodyless body branches span
      show (if other.registry.hasNamespace space = true then _ else _) = _
      rw [hother, hplugins space hspace, if_pos rfl])
  have himportTexts : imports.map Node.bare = ((file.imports.map fun path =>
      (Path.relativeTo file.path.directory path).text).map (noteNode "import")).map Node.bare := by
    rw [himportNotes, List.map_map, List.map_map, List.map_map]
    rfl
  have htakeImports := fun other : Inventory => takeDefinitions_notes file.path index other
    (fun text place => place.addImport (importTarget file.path text)) himportTexts
    (fun _ _ _ _ _ _ _ _ _ => rfl)
  rw [hnodes, List.append_assoc, takeDefinitions_append, htakePlugins, ok_bind,
    takeDefinitions_append, htakeImports, ok_bind, takeDefinitions_resources hblocks,
    modifyFile_modifyFile]
  unfold FileScope.readImports
  simp only [List.foldl_map]
  rfl

end Taking

section Opening

variable {inventory : Inventory} {files : List FileScope} {sources : List SourceFile}

/-- What a file declares goes to its place. -/
theorem opened_of_printed {file : FileScope} (h : inventory.WritesFile file) :
    file.readImports.foldl FileScope.addImport
      (file.plugins.foldl FileScope.addPlugin { path := file.path }) = file.opened := by
  have hplugins : (([] : List String) ++ file.plugins).Nodup := h.pluginsOnce
  have himports : (([] : List Path) ++ file.readImports).Pairwise fun path other =>
      path.same other = false := h.readImports_once
  rw [foldl_addPlugin hplugins, foldl_addImport himports]
  rfl

theorem modifyFile_plain (registry : Registry) (front back : List FileScope) (file : FileScope)
    (change : FileScope → FileScope) :
    (Inventory.plain registry (front ++ file :: back)).modifyFile front.length change =
      Inventory.plain registry (front ++ change file :: back) := by
  unfold Inventory.modifyFile Inventory.plain
  dsimp only
  rw [List.modify_eq_take_cons_drop (by simp)]
  simp

/-- Sources behind those that were taken up already. -/
theorem takeAllDefinitions_printed (h : List.Forall₂ FileScope.Printed files sources)
    (hwrites : ∀ file ∈ files, inventory.WritesFile file) (front : List FileScope) :
    takeAllDefinitions
        (.plain inventory.registry (front ++ files.map fun file => { path := file.path }))
        (sources.zip (List.range' front.length sources.length)) =
      .ok (.plain inventory.registry (front ++ files.map FileScope.opened)) := by
  induction h generalizing front with
  | nil => rfl
  | @cons file source files sources hprinted _ ih =>
    have hfile := hwrites file List.mem_cons_self
    have hpath : Path.mk source.path = file.path := by rw [hprinted.path]
    have hrest := ih (fun other hother => hwrites other (List.mem_cons_of_mem _ hother))
      (front ++ [file.opened])
    rw [List.length_append, List.length_singleton, ← List.append_cons, ← List.append_cons] at hrest
    have htake := takeDefinitions_printed hprinted (.plain inventory.registry
      (front ++ (file :: files).map fun file => { path := file.path })) front.length hfile.plugins
    rw [List.map_cons, modifyFile_plain, opened_of_printed hfile] at htake
    rw [List.length_cons, List.range'_succ, List.zip_cons_cons, takeAllDefinitions, hpath,
      List.map_cons, htake]
    exact hrest

/-! ## The blocks that are left to evaluate -/

/-- A statement that is the block of a resource in the file at a position. -/
def Task.Restores (task : Task) (home : Nat × Resource) : Prop :=
  task.file = home.1 ∧ task.node.bare = (resourceNode home.2).bare

/-- The resources of some files, each with the position of its file. -/
def homes (first : Nat) (files : List FileScope) : List (Nat × Resource) :=
  (files.zipIdx first).flatMap fun entry =>
    (Table.values entry.1.resources).map fun resource => (entry.2, resource)

theorem isDefinition_bare (node : Node) : isDefinition node.bare = isDefinition node := by
  cases node with
  | directive d =>
    cases d
    rfl
  | _ => rfl

theorem filter_stateFile (file : FileScope) :
    (stateFile file).body.filter (fun node => !isDefinition node) =
      (Table.values file.resources).map resourceNode := by
  have hnotes : ∀ nodes : List Node, (∀ node ∈ nodes, isDefinition node = true) →
      nodes.filter (fun node => !isDefinition node) = [] := by
    intro nodes hnodes
    rw [List.filter_eq_nil_iff]
    intro node hnode
    rw [hnodes node hnode]
    exact Bool.false_ne_true
  unfold stateFile
  rw [List.filter_append, List.filter_append, hnotes _ (List.forall_mem_map.2 fun _ _ => rfl),
    hnotes _ (List.forall_mem_map.2 fun _ _ => rfl)]
  exact List.filter_eq_self.2 (List.forall_mem_map.2 fun _ _ => rfl)

/-- What a state file does not declare are the blocks of its resources. -/
theorem FileScope.Printed.statements {file : FileScope} {source : SourceFile}
    (h : file.Printed source) :
    List.Forall₂ (fun node resource => node.bare = (resourceNode resource).bare)
      (source.body.filter fun node => !isDefinition node) (Table.values file.resources) := by
  have hcomm : ∀ nodes : List Node, (nodes.filter fun node => !isDefinition node).map Node.bare =
      (nodes.map Node.bare).filter fun node => !isDefinition node := by
    intro nodes
    rw [List.filter_map]
    congr 2
    funext node
    exact (congrArg (!·) (isDefinition_bare node)).symm
  have hfilter : (source.body.filter fun node => !isDefinition node).map Node.bare =
      ((Table.values file.resources).map resourceNode).map Node.bare := by
    rw [hcomm, h.body, ← hcomm, filter_stateFile]
  rw [List.map_map, ← List.forall₂_eq_eq_eq, List.forall₂_map_left_iff,
    List.forall₂_map_right_iff] at hfilter
  exact hfilter

/-- The statements of some state files are the blocks of the resources in them. -/
theorem forall₂_tasksOf (h : List.Forall₂ FileScope.Printed files sources) :
    List.Forall₂ Task.Restores (tasksOf (sources.zip (List.range' 0 sources.length)))
      (homes 0 files) := by
  unfold tasksOf homes
  generalize 0 = first
  induction h generalizing first with
  | nil => exact .nil
  | @cons file source files sources hprinted _ ih =>
    rw [List.length_cons, List.range'_succ, List.zip_cons_cons, List.zipIdx_cons, List.zipIdx_cons,
      List.flatMap_cons, List.flatMap_cons]
    refine List.rel_append ?_ (ih (first + 1))
    rw [List.forall₂_map_left_iff, List.forall₂_map_right_iff]
    exact hprinted.statements.imp fun node resource hbare => ⟨rfl, hbare⟩

/-- The statements of some state files, in order. -/
def stateTasks (sources : List SourceFile) : List Task :=
  tasksOf (sources.zip (List.range' 0 sources.length))

/-- The round before the first pass over some state files. -/
def Round.opened (registry : Registry) (files : List FileScope) (sources : List SourceFile) : Round where
  inventory := .plain registry (files.map FileScope.opened)
  declared := []
  scopes := sources.map fun _ => {}
  unfinished := unfinishedOf (.plain registry (files.map FileScope.opened)) (stateTasks sources)
  settling := false
  tasks := stateTasks sources

/-- Files that state says all of are opened, each at its place. -/
theorem start_printed (h : List.Forall₂ FileScope.Printed files sources)
    (hwrites : ∀ file ∈ files, inventory.WritesFile file)
    (hpaths : files.Pairwise fun file other => file.path.same other.path = false) :
    Round.start (.empty inventory.registry) sources =
      .ok (.opened inventory.registry files sources, List.range' 0 sources.length) := by
  have hsame : sources.map (fun source => Path.mk source.path) = files.map FileScope.path := by
    rw [← List.forall₂_eq_eq_eq, List.forall₂_map_left_iff, List.forall₂_map_right_iff]
    exact h.flip.imp fun source file hprinted => by rw [hprinted.path]
  have hempty : (Inventory.empty inventory.registry).files = [] := rfl
  have hensure : ensureFiles (.empty inventory.registry) sources =
      (.plain inventory.registry (files.map fun file => { path := file.path }),
        List.range' 0 sources.length) := by
    have hplaces : sources.map (fun source => ({ path := ⟨source.path⟩ } : FileScope)) =
        files.map fun file => { path := file.path } := by
      have hmap := congrArg (List.map fun path : Path => ({ path := path } : FileScope)) hsame
      rwa [List.map_map, List.map_map] at hmap
    rw [ensureFiles_eq, hplaces]
    · rfl
    · rw [hempty, List.map_nil, List.nil_append, hsame, List.pairwise_map]
      exact hpaths
  unfold Round.start
  rw [hensure]
  dsimp only
  have htake := takeAllDefinitions_printed h hwrites []
  rw [List.length_nil, List.nil_append, List.nil_append] at htake
  rw [htake]
  rfl

end Opening

end Provision

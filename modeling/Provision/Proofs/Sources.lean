import Provision.Proofs.Disk
import Provision.Proofs.Evaluation.Importing
import Provision.Proofs.Graph.BreadthFirst
import Provision.Sources

/-!
# What a configuration is made of

The imports of the files that can be read make a graph of paths.  Reading a
configuration goes through all that the root leads to in breadth-first order, each
path once, and stops at the first that cannot be read or parsed.  What evaluation
records of a configuration that was read are the imports that were followed.
-/

namespace Provision

open Provision.Graph (BreadthFirst explore unseen onward)
open Provision.Language (SourceFile parse)
open Relation (ReflTransGen)

section Reading

variable {read : Path → Option String} {path target root : Path}

/-- The file at a path, or why there is none. -/
def fetch (read : Path → Option String) (path : Path) : Except SourceError SourceFile :=
  match read path with
  | none => .error (.unreadable path)
  | some text => (parse path.text text).mapError .parse

/-- The targets of the imports of the file at a path. -/
def importsIn (read : Path → Option String) (path : Path) : List Path :=
  match fetch read path with
  | .error _ => []
  | .ok file => importTargets path file

theorem readSource_eq (read : Path → Option String) (path : Path) :
    readSource read path = (fetch read path).map some := by
  unfold readSource fetch
  cases read path with
  | none => rfl
  | some text =>
    dsimp only
    cases parse path.text text <;> rfl

theorem fetch_eq_ok {file : SourceFile} (h : fetch read path = .ok file) :
    file.path = path.text ∧ (read path).isSome ∧ importsIn read path = importTargets path file := by
  have himports : importsIn read path = importTargets path file := by
    unfold importsIn
    rw [h]
  unfold fetch at h
  split at h
  · cases h
  · next text hread =>
    unfold parse at h
    cases hparse : Language.parseChars path.text text.toList with
    | error e =>
      rw [hparse] at h
      cases h
    | ok nodes =>
      rw [hparse] at h
      cases h
      exact ⟨rfl, by rw [hread]; rfl, himports⟩

/-- Imports come from files that can be read and parsed. -/
theorem exists_fetch_of_importsIn (h : importsIn read path ≠ []) :
    ∃ file, fetch read path = .ok file := by
  cases hfetch : fetch read path with
  | error e =>
    refine absurd ?_ h
    unfold importsIn
    rw [hfetch]
  | ok file => exact ⟨file, rfl⟩

theorem canonical_of_mem_importsIn (hroot : read ⟨"/"⟩ = none) (hpath : path.Canonical)
    (h : target ∈ importsIn read path) : target.Canonical := by
  obtain ⟨file, hfile⟩ := exists_fetch_of_importsIn (List.ne_nil_of_mem h)
  obtain ⟨-, hread, himports⟩ := fetch_eq_ok hfile
  have hbelow : path ≠ ⟨"/"⟩ := by
    rintro rfl
    rw [hroot] at hread
    cases hread
  rw [himports] at h
  obtain ⟨entry, -, rfl⟩ := List.mem_map.1 h
  exact hpath.importTarget hbelow entry.1

theorem canonical_of_reaches (hroot : read ⟨"/"⟩ = none) (hstart : root.Canonical)
    (h : ReflTransGen (fun path target => target ∈ importsIn read path) root path) :
    path.Canonical := by
  induction h with
  | refl => exact hstart
  | tail _ hstep ih => exact canonical_of_mem_importsIn hroot ih hstep

/-! ## Reading as a search -/

/-- Reading a list of files reads those that were not seen, and comes to what they import. -/
theorem readFiles_eq {front : List (List Nat × Path)} {seen : List Path}
    (hfront : ∀ visit ∈ front, visit.2.Canonical) (hseen : ∀ path ∈ seen, path.Canonical) :
    readFiles (readSource read) (front.map Prod.snd) seen =
      ((unseen front seen).map Prod.snd).mapM (fetch read) >>= fun files =>
        .ok ⟨files, ((unseen front seen).flatMap (onward (importsIn read))).map Prod.snd,
          seen ++ (unseen front seen).map Prod.snd⟩ := by
  induction front generalizing seen with
  | nil =>
    rw [List.map_nil, readFiles, unseen, List.map_nil, List.append_nil]
    rfl
  | cons visit rest ih =>
    have hvisit := hfront visit List.mem_cons_self
    have hrest : ∀ other ∈ rest, other.2.Canonical := fun other hother =>
      hfront other (List.mem_cons_of_mem _ hother)
    rw [List.map_cons, readFiles, unseen]
    by_cases hold : visit.2 ∈ seen
    · rw [if_pos ((hvisit.isIn_iff hseen).2 hold), if_pos hold, ih hrest hseen]
    · have hmore : ∀ path ∈ seen ++ [visit.2], path.Canonical := fun path hpath =>
        (List.mem_append.1 hpath).elim (hseen path) fun hpath =>
          List.mem_singleton.1 hpath ▸ hvisit
      rw [if_neg (mt (hvisit.isIn_iff hseen).1 hold), if_neg hold, readSource_eq, ih hrest hmore,
        List.map_cons, List.mapM_cons]
      cases hfetch : fetch read visit.2 with
      | error e => rfl
      | ok file =>
        obtain ⟨-, -, himports⟩ := fetch_eq_ok hfetch
        rw [List.flatMap_cons, List.map_append, Graph.map_onward, himports]
        cases ((unseen rest (seen ++ [visit.2])).map Prod.snd).mapM (fetch read) with
        | error e => rfl
        | ok files =>
          rw [List.append_assoc]
          rfl

/-- Following imports fetches what the search through them visits. -/
theorem followImports_eq (hroot : read ⟨"/"⟩ = none) {rounds : Nat} {front : List (List Nat × Path)}
    {seen : List Path} (hfront : ∀ visit ∈ front, visit.2.Canonical)
    (hseen : ∀ path ∈ seen, path.Canonical) :
    followImports (readSource read) rounds (front.map Prod.snd) seen =
      ((explore (importsIn read) rounds front seen).map Prod.snd).mapM (fetch read) := by
  induction rounds generalizing front seen with
  | zero => rfl
  | succ rounds ih =>
    rw [followImports]
    split
    · next hempty =>
      rw [List.isEmpty_map, List.isEmpty_iff] at hempty
      rw [hempty, Graph.explore_nil]
      rfl
    · have hvisits : ∀ visit ∈ unseen front seen, visit.2.Canonical := fun visit hvisit =>
        hfront visit ((Graph.unseen_sublist front seen).subset hvisit)
      have hnext : ∀ visit ∈ (unseen front seen).flatMap (onward (importsIn read)),
          visit.2.Canonical := by
        intro visit hvisit
        obtain ⟨before, hbefore, hstep⟩ := List.mem_flatMap.1 hvisit
        obtain ⟨i, hi, -⟩ := Graph.mem_onward.1 hstep
        exact canonical_of_mem_importsIn hroot (hvisits before hbefore) (List.mem_of_getElem? hi)
      have hmore : ∀ path ∈ seen ++ (unseen front seen).map Prod.snd, path.Canonical := by
        intro path hpath
        rcases List.mem_append.1 hpath with hpath | hpath
        · exact hseen path hpath
        · obtain ⟨visit, hvisit, rfl⟩ := List.mem_map.1 hpath
          exact hvisits visit hvisit
      rw [readFiles_eq hfront hseen, explore, List.map_append, List.mapM_append, ← ih hnext hmore]
      cases ((unseen front seen).map Prod.snd).mapM (fetch read) with
      | error e => rfl
      | ok files => rfl

/-! ## What is read -/

/-- What becomes of reading files in an order: all of them are read, or the first that cannot be
read or parsed stops it. -/
inductive ReadsInOrder (read : Path → Option String) (order : List Path) :
    Except SourceError (List SourceFile) → Prop where
  | all {sources : List SourceFile}
      (hsources : List.Forall₂ (fun path file => fetch read path = .ok file) order sources) :
      ReadsInOrder read order (.ok sources)
  | stops {front back : List Path} {path : Path} {e : SourceError}
      (horder : order = front ++ path :: back)
      (hfront : ∀ other ∈ front, ∃ file, fetch read other = .ok file)
      (hpath : fetch read path = .error e) :
      ReadsInOrder read order (.error e)

theorem readsInOrder_mapM (read : Path → Option String) (order : List Path) :
    ReadsInOrder read order (order.mapM (fetch read)) := by
  induction order with
  | nil => exact .all .nil
  | cons path rest ih =>
    rw [List.mapM_cons]
    cases hfetch : fetch read path with
    | error e => exact .stops (List.nil_append _).symm (List.forall_mem_nil _) hfetch
    | ok file =>
      generalize rest.mapM (fetch read) = result at ih ⊢
      cases ih with
      | all hsources => exact .all (.cons hfetch hsources)
      | @stops front back last e horder hfront hlast =>
        have hmore : path :: rest = (path :: front) ++ last :: back := by
          rw [horder, List.cons_append]
        exact .stops hmore (List.forall_mem_cons.2 ⟨⟨file, hfetch⟩, hfront⟩) hlast

/-- What a file of an evaluated inventory records of the file at a path: the targets of its imports,
none of them twice, and each of them a file of the inventory. -/
structure RecordsImports (read : Path → Option String) (inventory : Inventory) (path : Path)
    (file : FileScope) : Prop where
  at_path : file.path = path
  nodup : file.imports.Nodup
  mem_iff : ∀ target, target ∈ file.imports ↔ target ∈ importsIn read path
  loaded : ∀ target ∈ file.imports, ∃ other ∈ inventory.files, other.path = target

/-- A result of reading is the configuration of a root: what the root leads to is read in
breadth-first order, and evaluation records the imports that were followed. -/
structure LoadsFrom (read : Path → Option String) (root : Path) (order : List Path)
    (result : Except SourceError (List SourceFile)) : Prop where
  search : BreadthFirst (importsIn read) root order
  reads : ReadsInOrder read order result
  records : ∀ sources, result = .ok sources → ∀ setup registry inventory,
    evaluateFiles setup (.empty registry) sources = .ok inventory →
    List.Forall₂ (RecordsImports read inventory) order inventory.files

/-- What the evaluation of files that were fetched in an order records. -/
theorem importing_of_fetched {order : List Path} {sources : List SourceFile}
    (hsources : List.Forall₂ (fun path file => fetch read path = .ok file) order sources) :
    (sources.map fun source => Path.mk source.path) = order ∧
      (sources.map fun source =>
          (Path.mk source.path, distinctPaths (importTargets ⟨source.path⟩ source))) =
        order.map fun path => (path, distinctPaths (importsIn read path)) := by
  induction hsources with
  | nil => exact ⟨rfl, rfl⟩
  | @cons path source order sources hfetch _ ih =>
    obtain ⟨hpath, -, himports⟩ := fetch_eq_ok hfetch
    have hsame : Path.mk source.path = path := by rw [hpath]
    rw [List.map_cons, List.map_cons, List.map_cons, ih.1, ih.2, hsame, himports]
    exact ⟨rfl, rfl⟩

theorem importing_of_search (hroot : read ⟨"/"⟩ = none) (hstart : root.Canonical)
    {order : List Path} {sources : List SourceFile}
    {setup : EvaluationSetup} {registry : Registry} {inventory : Inventory}
    (hsearch : BreadthFirst (importsIn read) root order)
    (hsources : List.Forall₂ (fun path file => fetch read path = .ok file) order sources)
    (heval : evaluateFiles setup (.empty registry) sources = .ok inventory) :
    inventory.importing = order.map fun path => (path, distinctPaths (importsIn read path)) := by
  have hcanonical : ∀ path ∈ order, path.Canonical := fun path hpath =>
    canonical_of_reaches hroot hstart ((hsearch.mem_iff path).1 hpath)
  obtain ⟨hpaths, hrecorded⟩ := importing_of_fetched hsources
  have hapart : (sources.map fun source => Path.mk source.path).Pairwise
      fun path other => path.same other = false := by
    rw [hpaths]
    refine hsearch.nodup.imp_of_mem fun hpath hother hne => ?_
    exact Bool.eq_false_iff.2 (mt ((hcanonical _ hpath).same_iff (hcanonical _ hother)).1 hne)
  rw [← hrecorded]
  exact evaluateFiles_importing hapart heval

theorem recordsImports_of_importing (hroot : read ⟨"/"⟩ = none) (hstart : root.Canonical)
    {order : List Path} {inventory : Inventory} (hsearch : BreadthFirst (importsIn read) root order)
    (himporting : inventory.importing =
      order.map fun path => (path, distinctPaths (importsIn read path))) :
    List.Forall₂ (RecordsImports read inventory) order inventory.files := by
  have hsame := List.forall₂_eq_eq_eq ▸ himporting.symm
  unfold Inventory.importing at hsame
  rw [List.forall₂_map_left_iff, List.forall₂_map_right_iff] at hsame
  have hfiles := (List.forall₂_and_left _ _).2 ⟨fun path (hpath : path ∈ order) => hpath, hsame⟩
  have hthere : ∀ path ∈ order, ∃ file ∈ inventory.files, file.path = path := by
    have hpaths : inventory.files.map FileScope.path = order := by
      have hfirst := congrArg (List.map Prod.fst) himporting
      unfold Inventory.importing at hfirst
      rw [List.map_map, List.map_map] at hfirst
      exact hfirst.trans (List.map_id order)
    exact fun path hpath => List.mem_map.1 (hpaths.symm ▸ hpath)
  refine hfiles.imp fun path file hfile => ?_
  obtain ⟨hpath, heq⟩ := hfile
  obtain ⟨rfl, himports⟩ := Prod.mk.inj heq
  have hreach := (hsearch.mem_iff _).1 hpath
  have htargets : ∀ target ∈ importsIn read file.path, target.Canonical := fun target =>
    canonical_of_mem_importsIn hroot (canonical_of_reaches hroot hstart hreach)
  have hmem : ∀ target, target ∈ file.imports ↔ target ∈ importsIn read file.path :=
    himports ▸ mem_distinctPaths htargets
  refine ⟨rfl, himports ▸ nodup_distinctPaths htargets, hmem, fun target htarget => ?_⟩
  exact hthere target ((hsearch.mem_iff target).2 (hreach.tail ((hmem target).1 htarget)))

/-- Files with canonical paths of which there are fewer than rounds. -/
theorem loadsFrom_readSources (hroot : read ⟨"/"⟩ = none) {paths : List Path}
    (hpaths : ∀ path, path.Canonical → (read path).isSome → path ∈ paths) (hstart : root.Canonical)
    {rounds : Nat} (hrounds : paths.length < rounds) :
    ∃ order, LoadsFrom read root order (readSources read rounds root) := by
  have hsources : ∀ path, ReflTransGen (fun path target => target ∈ importsIn read path) root path →
      importsIn read path ≠ [] → path ∈ paths := by
    intro path hpath himports
    obtain ⟨file, hfile⟩ := exists_fetch_of_importsIn himports
    exact hpaths path (canonical_of_reaches hroot hstart hpath) (fetch_eq_ok hfile).2.1
  have hsearch := Graph.breadthFirst_explore hsources hrounds
  have hfront : ∀ visit ∈ [(([] : List Nat), root)], visit.2.Canonical :=
    List.forall_mem_singleton.2 hstart
  have hread : readSources read rounds root =
      ((explore (importsIn read) rounds [([], root)] []).map Prod.snd).mapM (fetch read) :=
    followImports_eq hroot hfront (List.forall_mem_nil _)
  have hreads := hread ▸ readsInOrder_mapM read _
  refine ⟨_, hsearch, hreads, fun sources hok setup registry inventory heval => ?_⟩
  rw [hok] at hreads
  cases hreads with
  | all hsources =>
    exact recordsImports_of_importing hroot hstart hsearch
      (importing_of_search hroot hstart hsearch hsources heval)

end Reading

/-- Reading a configuration comes to an end, with each file that the root leads to or with the first
failure on the way there, and what evaluation records of it are the imports that were followed:
over any finite map of texts under canonical paths, and from a disk without links. -/
theorem configuration_is_read_breadth_first :
    (∀ files : Table Path String, (∀ path ∈ files.keys, path.Canonical ∧ path ≠ ⟨"/"⟩) →
      ∀ root ∈ files.keys, ∀ rounds, files.length < rounds →
        ∃ order, LoadsFrom files.get? root order (readSources files.get? rounds root)) ∧
    ∀ disk : Disk, disk.LinkFree → ∀ root : Path, root.Canonical → (disk.readText? root).isSome →
      ∃ order, LoadsFrom disk.readText? root order (loadSources disk root) := by
  constructor
  · intro files hfiles root hroot rounds hrounds
    have hkeys : ∀ path, (files.get? path).isSome → path ∈ files.keys := fun path =>
      Table.mem_keys_iff.2
    have htop : files.get? ⟨"/"⟩ = none := by
      rw [← Option.not_isSome_iff_eq_none]
      exact fun hsome => (hfiles _ (hkeys _ hsome)).2 rfl
    refine loadsFrom_readSources htop (fun path _ => hkeys path) (hfiles root hroot).1 ?_
    rwa [Table.keys, List.length_map]
  · intro disk hdisk root hcanonical hroot
    obtain ⟨text, htext⟩ := Option.isSome_iff_exists.1 hroot
    have htop : disk.readText? ⟨"/"⟩ = none := by
      have hslash : (⟨"/"⟩ : Path).Canonical := ⟨rfl, rfl⟩
      rw [Option.eq_none_iff_forall_ne_some]
      exact fun other hother => (hdisk.readText?_eq_some hslash hother).2.1 rfl
    have hplaces : ∀ path : Path, path.Canonical → (disk.readText? path).isSome →
        path ∈ disk.entries.keys.map Disk.pathOf := by
      intro path hpath hsome
      obtain ⟨other, hother⟩ := Option.isSome_iff_exists.1 hsome
      exact (hdisk.readText?_eq_some hpath hother).2.2
    unfold loadSources
    rw [(hdisk.readText?_eq_some hcanonical htext).1]
    refine loadsFrom_readSources htop hplaces hcanonical ?_
    rw [List.length_map, Table.keys, List.length_map]
    exact disk.length_entries_lt_reach

/-- Two files that import each other, one of them also itself. -/
def mutualFiles : Table Path String :=
  [(⟨"/w/main"⟩, "@import: 'parts/a'\n@import: './main'\n"),
    (⟨"/w/parts/a"⟩, "@import: '../main'\n@import: '../main'\n")]

/-- The disk that holds them. -/
def mutualDisk : Disk where
  entries :=
    [([['w']], .directory), ([['w'], ['p', 'a', 'r', 't', 's']], .directory),
      ([['w'], ['m', 'a', 'i', 'n']],
        .file 0o644 (Utf8.encode "@import: 'parts/a'\n@import: './main'\n")),
      ([['w'], ['p', 'a', 'r', 't', 's'], ['a']],
        .file 0o644 (Utf8.encode "@import: '../main'\n@import: '../main'\n"))]


/-- The paths of the files of a configuration with what its evaluation records of their imports. -/
def importsWhenEvaluated (result : Except SourceError (List SourceFile)) :
    Option (List (Path × List Path)) :=
  result.toOption.bind fun sources =>
    (evaluateFiles ⟨.configuration, none, 1⟩ (.empty {}) sources).toOption.map Inventory.importing

theorem configuration_is_read_breadth_first_mutual :
    ((∃ order, LoadsFrom mutualFiles.get? ⟨"/w/main"⟩ order
        (readSources mutualFiles.get? 3 ⟨"/w/main"⟩)) ∧
      ∃ order, LoadsFrom mutualDisk.readText? ⟨"/w/main"⟩ order
        (loadSources mutualDisk ⟨"/w/main"⟩)) ∧
    importsWhenEvaluated (readSources mutualFiles.get? 3 ⟨"/w/main"⟩) =
      some [(⟨"/w/main"⟩, [⟨"/w/parts/a"⟩, ⟨"/w/main"⟩]), (⟨"/w/parts/a"⟩, [⟨"/w/main"⟩])] ∧
    importsWhenEvaluated (loadSources mutualDisk ⟨"/w/main"⟩) =
      some [(⟨"/w/main"⟩, [⟨"/w/parts/a"⟩, ⟨"/w/main"⟩]), (⟨"/w/parts/a"⟩, [⟨"/w/main"⟩])] := by
  have hmain : (⟨"/w/main"⟩ : Path).Canonical := ⟨by decide, by decide⟩
  have hpart : (⟨"/w/parts/a"⟩ : Path).Canonical := ⟨by decide, by decide⟩
  have hfiles : ∀ path ∈ mutualFiles.keys, path.Canonical ∧ path ≠ ⟨"/"⟩ := by
    intro path hpath
    rcases List.mem_cons.1 hpath with rfl | hpath
    · exact ⟨hmain, by decide⟩
    · rw [List.mem_singleton.1 hpath]
      exact ⟨hpart, by decide⟩
  have hlinks : mutualDisk.LinkFree := by
    unfold Disk.LinkFree mutualDisk
    simp
  refine ⟨⟨?_, ?_⟩, by decide +kernel, by decide +kernel⟩
  · exact configuration_is_read_breadth_first.1 mutualFiles hfiles _ List.mem_cons_self 3
      (by decide)
  · exact configuration_is_read_breadth_first.2 mutualDisk hlinks _ hmain (by decide +kernel)

end Provision

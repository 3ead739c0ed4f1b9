import Provision.Proofs.Evaluation.Statements

/-!
# The order of statements

A file of variable pairs and resource blocks evaluates in the same way whatever
the order of its statements.  Two evaluations of the same statements, in passes
that take them in different orders, know the same facts when nothing is left to
do, and one of them fails or waits for ever exactly when the other does not get
done either.
-/

namespace Provision

open Provision.Language (Node Entry SourceFile)
open Retry (Verdict Machine Settles Breaks Stalls Lawful Carries Below settles_or_breaks_or_stalls)

/-! ## Passes over one file -/

/-- The statements of the first file. -/
def fileTasks (body : List Node) : List Task :=
  body.map (Task.mk 0 0)

/-- The progress that every statement of the first file starts from. -/
def Round.state (round : Round) : Progress :=
  round.progress ⟨0, 0, .null⟩

/-- What a statement says in a round. -/
def taskSaid (setup : EvaluationSetup) (task : Task) (round : Round) : Verdict Fact :=
  statementSaid setup round.state task.node

/-- A fact that a round shows. -/
def RoundHolds (round : Round) : Fact → Prop :=
  Holds round.state

/-- A round of one file in which some statements are left. -/
structure RoundAt (setup : EvaluationSetup) (registry : Registry) (path : Path) (body : List Node)
    (tasks : List Task) (round : Round) : Prop where
  scopes : round.scopes.length = 1
  mem : ∀ task ∈ tasks, task ∈ fileTasks body
  top : AtTop setup registry path body (tasks.map Task.node) round.state

section OneFile

variable {setup : EvaluationSetup} {registry : Registry} {path : Path} {body body' : List Node}
variable {round round' : Round} {tasks : List Task} {task : Task}

theorem mem_fileTasks : task ∈ fileTasks body ↔ task = ⟨0, 0, task.node⟩ ∧ task.node ∈ body := by
  unfold fileTasks
  rw [List.mem_map]
  constructor
  · rintro ⟨node, hnode, rfl⟩
    exact ⟨rfl, hnode⟩
  · rintro ⟨htask, hnode⟩
    exact ⟨task.node, hnode, htask.symm⟩

theorem nodes_fileTasks (body : List Node) : (fileTasks body).map Task.node = body := by
  unfold fileTasks
  rw [List.map_map]
  exact List.map_id body

theorem state_keeping {after : Progress} (hscopes : round.scopes.length = 1)
    (hcredentials : after.credentials = none) (node : Node) :
    (round.keeping ⟨0, 0, node⟩ after).state = { after with reads := [] } := by
  have hget : (round.scopes.set 0 after.scope)[0]? = some after.scope := by
    rw [List.getElem?_set_self (by omega)]
  unfold Round.state Round.progress Round.keeping
  dsimp only
  rw [hget, ← hcredentials]
  rfl

/-- A round goes on from what became of the state, when that may be what some of the statements
are left in. -/
theorem RoundAt.keeping {rest : List Task} {after : Progress}
    (h : RoundAt setup registry path body tasks round) (hsubset : ∀ task ∈ rest, task ∈ tasks)
    (htop : AtTop setup registry path body (rest.map Task.node) after)
    (unfinished : Table Span (List TypeName)) (node : Node) :
    RoundAt setup registry path body rest
        { round.keeping ⟨0, 0, node⟩ after with unfinished := unfinished } ∧
      ({ round.keeping ⟨0, 0, node⟩ after with unfinished := unfinished } : Round).state =
        { after with reads := [] } := by
  have hstate := state_keeping h.scopes htop.credentials node
  refine ⟨⟨?_, fun task htask => h.mem task (hsubset task htask), ?_⟩, hstate⟩
  · show (round.scopes.set 0 after.scope).length = 1
    rw [List.length_set]
    exact h.scopes
  · show AtTop setup registry path body (rest.map Task.node) (round.keeping ⟨0, 0, node⟩ after).state
    rw [hstate]
    exact htop.reads []

/-- Trying a statement of the first file is running it on the state of the round. -/
theorem tried_eq (node : Node) :
    round.tried setup ⟨0, 0, node⟩ =
      match (runStatement (setup.evaluator (round.undeclared ⟨0, 0, node⟩)) node
        { file := 0 }).run round.state with
      | (.ok (), after) => .done { round.keeping ⟨0, 0, node⟩ after with
          unfinished := Table.erase round.unfinished (statementSpan node) }
      | (.error (.deferred _), after) => .waits (round.keeping ⟨0, 0, node⟩ after)
      | (.error (.failed _), _) => .fails := by
  unfold Round.tried
  rw [attempt_eq]
  have hstate : round.progress ⟨0, 0, node⟩ = round.state := rfl
  dsimp only
  rw [hstate]
  rcases (runStatement (setup.evaluator (round.undeclared ⟨0, 0, node⟩)) node
    { file := 0 }).run round.state with ⟨(reasons | e) | ⟨⟩, after⟩ <;> rfl

theorem roundMachine_lawful (hcurrent : NoHandles setup)
    (hone : AsksForOne setup registry path body)
    (hind : Independent registry body) :
    Lawful (roundMachine setup (taskSaid setup)) RoundHolds (fileTasks body)
      (RoundAt setup registry path body) where
  mem := fun h => h.mem
  done := by
    intro front task back round fact h hverdict
    obtain ⟨htask, -⟩ := mem_fileTasks.1 (h.mem task (by simp))
    have htop : AtTop setup registry path body
        (front.map Task.node ++ task.node :: back.map Task.node) round.state := by
      rw [← List.map_cons, ← List.map_append]
      exact h.top
    obtain ⟨after, hrun, hafter, hholds⟩ := statement_done
      hone hind hcurrent htop hverdict
    have hsubset : ∀ other ∈ front ++ back, other ∈ front ++ task :: back := by
      intro other hother
      rcases List.mem_append.1 hother with hother | hother
      · exact List.mem_append_left _ hother
      · exact List.mem_append_right _ (List.mem_cons_of_mem _ hother)
    obtain ⟨hround, hstate⟩ := h.keeping hsubset
      (by rw [List.map_append]; exact hafter)
      (Table.erase round.unfinished (statementSpan task.node)) task.node
    refine ⟨_, ?_, hround, ?_⟩
    · show round.tried setup task = _
      rw [htask, tried_eq, hrun]
    · intro other
      show Holds (Round.state _) other ↔ _
      rw [hstate]
      exact hholds other
  waits := by
    intro tasks task round h htask hverdict
    obtain ⟨heq, -⟩ := mem_fileTasks.1 (h.mem task htask)
    obtain ⟨reasons, reads, hrun⟩ := statement_waits
      hone hind h.top (List.mem_map_of_mem htask) hverdict
    obtain ⟨hround, hstate⟩ := h.keeping (fun _ hother => hother) (h.top.reads reads)
      round.unfinished task.node
    refine ⟨_, ?_, hround, ?_⟩
    · show round.tried setup task = _
      rw [heq, tried_eq, hrun]
      rfl
    · intro other
      show Holds (Round.state _) other ↔ _
      rw [hstate]
      exact Iff.rfl
  fails := by
    intro tasks task round h htask hverdict
    obtain ⟨heq, -⟩ := mem_fileTasks.1 (h.mem task htask)
    obtain ⟨e, after, hrun⟩ := statement_fails
      hone hind h.top (List.mem_map_of_mem htask) hverdict
    show round.tried setup task = _
    rw [heq, tried_eq, hrun]
  next := fun h => ⟨⟨h.scopes, h.mem, h.top⟩, fun _ => Iff.rfl⟩
  yields_stable := by
    intro tasks left task round round' fact h h' hbelow htask hverdict
    obtain ⟨-, hnode⟩ := mem_fileTasks.1 htask
    exact (statement_carries h.top h'.top hone hone hind hind hbelow hnode hnode rfl).1 fact hverdict
  fails_stable := by
    intro tasks left task round round' h h' hbelow htask hverdict
    obtain ⟨-, hnode⟩ := mem_fileTasks.1 htask
    exact (statement_carries h.top h'.top hone hone hind hind hbelow hnode hnode rfl).2 hverdict

/-- The same statement of two files. -/
def SameTask (body body' : List Node) (task task' : Task) : Prop :=
  task ∈ fileTasks body ∧ task' ∈ fileTasks body' ∧ task.node.bare = task'.node.bare

theorem exists_sameTask
    (hbare : ∀ node, node ∈ body.map Node.bare → node ∈ body'.map Node.bare)
    (htask : task ∈ fileTasks body) :
    ∃ task' ∈ fileTasks body', task.node.bare = task'.node.bare := by
  obtain ⟨-, hnode⟩ := mem_fileTasks.1 htask
  obtain ⟨node', hnode', heq⟩ := List.mem_map.1 (hbare _ (List.mem_map_of_mem hnode))
  exact ⟨⟨0, 0, node'⟩, mem_fileTasks.2 ⟨rfl, hnode'⟩, heq.symm⟩

theorem roundMachine_carries
    (hone : AsksForOne setup registry path body)
    (hone' : AsksForOne setup registry path body')
    (hind : Independent registry body)
    (hind' : Independent registry body')
    (hbare : ∀ node, node ∈ body.map Node.bare ↔ node ∈ body'.map Node.bare) :
    Carries (roundMachine setup (taskSaid setup)) (roundMachine setup (taskSaid setup)) RoundHolds
      (fileTasks body) (fileTasks body') (RoundAt setup registry path body)
      (RoundAt setup registry path body') (SameTask body body') where
  left := by
    intro task htask
    obtain ⟨task', htask', heq⟩ := exists_sameTask (fun node => (hbare node).1) htask
    exact ⟨task', htask', htask, htask', heq⟩
  right := by
    intro task' htask'
    obtain ⟨task, htask, heq⟩ := exists_sameTask (fun node => (hbare node).2) htask'
    exact ⟨task, htask, htask, htask', heq.symm⟩
  yields := by
    intro task task' tasks left round round' fact hsame h h' hbelow hverdict
    obtain ⟨htask, htask', heq⟩ := hsame
    exact (statement_carries h.top h'.top hone hone' hind hind' hbelow (mem_fileTasks.1 htask).2
      (mem_fileTasks.1 htask').2 heq).1 fact hverdict
  fails := by
    intro task task' tasks left round round' hsame h h' hbelow hverdict
    obtain ⟨htask, htask', heq⟩ := hsame
    exact (statement_carries h.top h'.top hone hone' hind hind' hbelow (mem_fileTasks.1 htask).2
      (mem_fileTasks.1 htask').2 heq).2 hverdict

/-! ## From the first pass to the result -/

/-- The round before the first pass over one file. -/
def firstRound (registry : Registry) (path : Path) (body : List Node) : Round :=
  { inventory := (startProgress registry path).inventory
    declared := []
    scopes := [{}]
    unfinished := unfinishedOf (startProgress registry path).inventory (fileTasks body)
    settling := false
    tasks := fileTasks body }

theorem roundAt_first (hnames : (body.filterMap boundName?).Nodup)
    (hkeys : (body.filterMap (declaredKey? registry)).Nodup) :
    RoundAt setup registry path body (fileTasks body) (firstRound registry path body) where
  scopes := rfl
  mem := fun _ h => h
  top := by
    rw [nodes_fileTasks]
    refine
      { registered := rfl
        virtuals := rfl
        paths := rfl
        distinct := ?_
        enclosing := rfl
        credentials := rfl
        named := ?_
        known := ⟨?_, ?_⟩
        tried := ⟨[], .start⟩
        mem := fun _ h => h
        names := hnames
        keys := hkeys
        unbound := fun _ _ => rfl
        undeclared := fun _ _ => ⟨rfl, rfl⟩ }
    · intro file hfile
      obtain rfl := List.mem_singleton.1 hfile
      exact List.nodup_nil
    · intro name value h
      cases h
    · intro name value h
      cases h
    · intro key resource name value h
      cases h

theorem takeDefinitions_plain (hplain : ∀ node ∈ body, PlainStatement registry node)
    (index : Nat) (inventory : Inventory) :
    takeDefinitions path index inventory body = .ok inventory := by
  induction body with
  | nil => rfl
  | cons node rest ih =>
    have hrest := ih fun other hother => hplain other (List.mem_cons_of_mem _ hother)
    cases hplain node List.mem_cons_self with
    | pair entry => exact hrest
    | block => exact hrest

theorem start_eq (hplain : ∀ node ∈ body, PlainStatement registry node) (text : String) :
    Round.start (.empty registry) [⟨text, body⟩] =
      .ok (firstRound registry ⟨text⟩ body, [0]) := by
  have htake : takeAllDefinitions (startProgress registry ⟨text⟩).inventory [(⟨text, body⟩, 0)] =
      .ok (startProgress registry ⟨text⟩).inventory := by
    rw [takeAllDefinitions, takeDefinitions_plain hplain]
    rfl
  have htasks : tasksOf [(⟨text, body⟩, 0)] = fileTasks body := by
    have hfilter : (body.filter fun node => !isDefinition node) = body := by
      rw [List.filter_eq_self]
      intro node hnode
      cases hplain node hnode <;> rfl
    show ((body.filter fun node => !isDefinition node).map fun node => Task.mk 0 0 node) ++ [] = _
    rw [hfilter, List.append_nil]
    rfl
  show (takeAllDefinitions (startProgress registry ⟨text⟩).inventory [(⟨text, body⟩, 0)] >>=
    fun inventory => Except.ok (Round.mk inventory [] [{}]
      (unfinishedOf inventory (tasksOf [(⟨text, body⟩, 0)])) false (tasksOf [(⟨text, body⟩, 0)]),
      [0])) = _
  rw [htake, htasks]
  rfl

/-- An evaluation of one file gives a result exactly when all statements get done. -/
theorem evaluateFiles_eq_ok_iff (hcurrent : NoHandles setup) {text : String}
    (hone : AsksForOne setup registry ⟨text⟩ body)
    (hind : Independent registry body) {inventory : Inventory} :
    evaluateFiles setup (.empty registry) [⟨text, body⟩] = .ok inventory ↔
      ∃ last, Settles (roundMachine setup (taskSaid setup)) (fileTasks body)
        (firstRound registry ⟨text⟩ body) last ∧
        inventory = { last with tasks := [] }.result [0] := by
  have hlawful := roundMachine_lawful hcurrent hone hind
  have hfirst : RoundAt setup registry ⟨text⟩ body (fileTasks body)
      (firstRound registry ⟨text⟩ body) := roundAt_first hind.names hind.keys
  have heval : evaluateFiles setup (.empty registry) [⟨text, body⟩] =
      (firstRound registry ⟨text⟩ body).run setup (passBound (fileTasks body)) >>=
        fun round => .ok (round.result [0]) := by
    unfold evaluateFiles
    rw [start_eq hind.plain]
    rfl
  rw [heval]
  have hbound : (fileTasks body).length < passBound (fileTasks body) := by
    unfold passBound
    omega
  rcases settles_or_breaks_or_stalls (roundMachine setup (taskSaid setup)) (fileTasks body)
    (firstRound registry ⟨text⟩ body) with ⟨last, h⟩ | h | ⟨rest, last, h⟩
  · rw [run_of_settles h rfl hbound]
    constructor
    · intro hok
      cases hok
      exact ⟨last, h, rfl⟩
    · rintro ⟨other, hother, rfl⟩
      have hrun := run_of_settles hother rfl hbound
      rw [run_of_settles h rfl hbound] at hrun
      injection hrun with hsame
      rw [← hsame]
      rfl
  · obtain ⟨e, hrun⟩ := run_of_breaks h rfl (passBound (fileTasks body))
    rw [hrun]
    constructor
    · intro hok
      cases hok
    · rintro ⟨other, hother, -⟩
      rw [run_of_settles hother rfl hbound] at hrun
      cases hrun
  · obtain ⟨-, hstage, -, hwaits⟩ := h.swept hlawful (.start hfirst)
    have hidle : ∃ after, (roundMachine setup (taskSaid setup)).sweep rest (last.settled rest) =
        some (rest, after) :=
      Retry.sweep_waiting hlawful [] ⟨hstage.here.scopes, hstage.here.mem, hstage.here.top⟩ hwaits
    obtain ⟨e, hrun⟩ := run_of_stalls h hidle rfl (passBound (fileTasks body))
    rw [hrun]
    constructor
    · intro hok
      cases hok
    · rintro ⟨other, hother, -⟩
      rw [run_of_settles hother rfl hbound] at hrun
      cases hrun

theorem result_eq (hscopes : round.scopes.length = 1) :
    round.result [0] =
      round.inventory.modifyFile 0 fun file => { file with bindings := round.state.scope.values } := by
  obtain ⟨scope, hscope⟩ := List.length_eq_one_iff.1 hscopes
  unfold Round.result Round.state Round.progress
  rw [hscope]
  rfl

theorem RoundAt.bindings (h : RoundAt setup registry path body tasks round) (other : Path)
    (name : String) :
    ((round.result [0]).file? other).bind (fun file => Table.get? file.bindings name) =
      if path.same other then round.state.scope.get? name else none := by
  have hpaths : round.inventory.files.map FileScope.path = [path] := h.top.paths
  obtain ⟨file, hfile, hpath⟩ := List.map_eq_singleton_iff.1 hpaths
  rw [result_eq h.scopes]
  unfold Inventory.file? Inventory.modifyFile
  dsimp only
  rw [hfile, List.modify_zero_cons, List.find?_cons]
  rw [hpath]
  cases path.same other <;> rfl

theorem RoundAt.resource? (h : RoundAt setup registry path body tasks round) (key : Key) :
    (round.result [0]).resource? key = round.state.inventory.resource? key := by
  rw [result_eq h.scopes, Inventory.resource?_modifyFile]
  · rfl
  · exact fun _ => rfl

end OneFile

/-! ## Statements in another order -/

section Permutation

variable {setup : EvaluationSetup} {registry : Registry} {path : Path} {body body' : List Node}

theorem isLiteral_bare (node : Node) : isLiteral node.bare = isLiteral node := by
  cases node <;> rfl

theorem pairs_of_bare {source : List Node} {entries : List Entry}
    (h : source.map Node.bare = (entries.map Node.pair).map Node.bare) :
    ∃ entries' : List Entry, source = entries'.map Node.pair ∧
      entries'.map Entry.bare = entries.map Entry.bare := by
  induction source generalizing entries with
  | nil =>
    obtain rfl : entries = [] := by simpa using h.symm
    exact ⟨[], rfl, rfl⟩
  | cons node rest ih =>
    cases entries with
    | nil => simp at h
    | cons entry entries =>
      simp only [List.map_cons, List.cons.injEq] at h
      obtain ⟨hnode, hrest⟩ := h
      obtain ⟨entries', rfl, hbare⟩ := ih hrest
      cases node with
      | pair entry' =>
        rw [Node.bare, Node.bare] at hnode
        injection hnode with hentry
        refine ⟨entry' :: entries', rfl, ?_⟩
        rw [List.map_cons, List.map_cons, hentry, hbare]
      | _ =>
        rw [Node.bare, Node.bare] at hnode
        cases hnode

/-- What a plain statement says wherever it stands. -/
theorem PlainStatement.of_bare {node node' : Node} (h : PlainStatement registry node)
    (hbare : node'.bare = node.bare) :
    PlainStatement registry node' := by
  cases h with
  | pair entry =>
    cases node' with
    | pair entry' => exact .pair entry'
    | _ =>
      rw [Node.bare, Node.bare] at hbare
      cases hbare
  | @block typeText typeName type name entries span htypeName htype hname hfields =>
    cases node' with
    | resource typeText' name' source span' =>
      rw [Node.bare, Node.bare, Language.bareNodes_eq_map, Language.bareNodes_eq_map] at hbare
      injection hbare with htypeText hname' hsource
      subst htypeText
      obtain ⟨entries', rfl, hentries⟩ := pairs_of_bare hsource
      refine .block htypeName htype ?_ ?_
      · rw [← isLiteral_bare, hname', isLiteral_bare]
        exact hname
      · rw [keys_of_bare hentries]
        exact hfields
    | _ =>
      rw [Node.bare, Node.bare] at hbare
      cases hbare

theorem filterMap_bare {α : Type} {f : Node → Option α} (hf : ∀ node, f node.bare = f node)
    (nodes : List Node) :
    (nodes.map Node.bare).filterMap f = nodes.filterMap f := by
  rw [List.filterMap_map]
  exact List.filterMap_congr fun node _ => hf node

theorem plain_of_perm (h : ∀ node ∈ body, PlainStatement registry node)
    (hperm : (body.map Node.bare).Perm (body'.map Node.bare)) :
    ∀ node ∈ body', PlainStatement registry node := by
  intro node' hnode'
  obtain ⟨node, hnode, heq⟩ := List.mem_map.1 (hperm.mem_iff.2 (List.mem_map_of_mem hnode'))
  exact (h node hnode).of_bare heq.symm

theorem boundNames_perm (hperm : (body.map Node.bare).Perm (body'.map Node.bare)) :
    (body.filterMap boundName?).Perm (body'.filterMap boundName?) := by
  have hnames := hperm.filterMap boundName?
  rwa [filterMap_bare boundName?_bare, filterMap_bare boundName?_bare] at hnames

theorem declaredKeys_perm (registry : Registry)
    (hperm : (body.map Node.bare).Perm (body'.map Node.bare)) :
    (body.filterMap (declaredKey? registry)).Perm (body'.filterMap (declaredKey? registry)) := by
  have hkey : ∀ node : Node, declaredKey? registry node.bare = declaredKey? registry node := by
    intro node
    unfold declaredKey?
    rw [declaredBy?_bare]
  have hkeys := hperm.filterMap (declaredKey? registry)
  rwa [filterMap_bare hkey, filterMap_bare hkey] at hkeys

/-- A block of the one file stands in the other, too, with the same pairs. -/
theorem exists_block_of_perm {typeText : String} {name : Node} {span : Span} {entries' : List Entry}
    (hplain : ∀ node ∈ body, PlainStatement registry node)
    (hperm : (body.map Node.bare).Perm (body'.map Node.bare))
    (hblock : Node.resource typeText name (entries'.map Node.pair) span ∈ body') :
    ∃ typeText name span, ∃ entries : List Entry,
      Node.resource typeText name (entries.map Node.pair) span ∈ body ∧
        entries.map Entry.bare = entries'.map Entry.bare := by
  obtain ⟨node, hnode, heq⟩ := List.mem_map.1 (hperm.mem_iff.2 (List.mem_map_of_mem hblock))
  cases hplain node hnode with
  | pair =>
    rw [Node.bare, Node.bare] at heq
    cases heq
  | @block typeText' typeName' type' name' entries span' =>
    rw [Node.bare, Node.bare, Language.bareNodes_eq_map, Language.bareNodes_eq_map] at heq
    injection heq with _ _ hsource
    exact ⟨typeText', name', span', entries, hnode, bare_of_pairs hsource⟩

theorem Independent.perm (h : Independent registry body)
    (hperm : (body.map Node.bare).Perm (body'.map Node.bare)) :
    Independent registry body' := by
  have hnames := boundNames_perm hperm
  refine ⟨plain_of_perm h.plain hperm, hnames.nodup_iff.1 h.names,
    (declaredKeys_perm registry hperm).nodup_iff.1 h.keys, ?_⟩
  intro typeText name span entries hblock entry hentry hmem
  obtain ⟨typeText', name', span', entries', hnode, hbare⟩ :=
    exists_block_of_perm h.plain hperm hblock
  have hfields := keys_of_bare hbare
  obtain ⟨entry', hentry', hname⟩ := List.mem_map.1 (hfields ▸ List.mem_map_of_mem hentry)
  refine h.apart typeText' name' span' entries' hnode entry' hentry' ?_
  rw [hname]
  exact hnames.mem_iff.2 hmem

theorem AsksForOne.perm (h : AsksForOne setup registry path body)
    (hperm : (body.map Node.bare).Perm (body'.map Node.bare)) :
    AsksForOne setup registry path body' where
  pairs := fun p hp entry hentry =>
    h.pairs p (tried_congr (fun _ => hperm.mem_iff.symm) hp) entry (hperm.mem_iff.2 hentry)
  blocks := fun p hp typeText name source span hblock =>
    h.blocks p (tried_congr (fun _ => hperm.mem_iff.symm) hp) typeText name source span
      (hperm.mem_iff.2 hblock)

/-- Inventories with the same bindings and the same resources, apart from order and places. -/
structure Inventory.Alike (x y : Inventory) : Prop where
  bindings : ∀ path name,
    (x.file? path).bind (fun file => Table.get? file.bindings name) =
      (y.file? path).bind fun file => Table.get? file.bindings name
  resources : ∀ key, (x.resource? key).map Resource.content = (y.resource? key).map Resource.content

theorem alike_of_facts {tasks tasks' : List Task} {round round' : Round}
    (h : RoundAt setup registry path body tasks round)
    (h' : RoundAt setup registry path body' tasks' round')
    (hfacts : ∀ fact, RoundHolds round fact ↔ RoundHolds round' fact) :
    (round.result [0]).Alike (round'.result [0]) := by
  constructor
  · intro other name
    rw [h.bindings, h'.bindings]
    have hsame : round.state.scope.get? name = round'.state.scope.get? name :=
      Option.ext fun value => hfacts (.bound name value)
    rw [hsame]
  · intro key
    rw [h.resource?, h'.resource?]
    exact Option.ext fun content => hfacts (.declared key content)

/-- When a file evaluates, so does the file with its statements in another order. -/
theorem evaluates_of_perm {text : String} {inventory : Inventory}
    (hcurrent : NoHandles setup)
    (hone : AsksForOne setup registry ⟨text⟩ body)
    (hind : Independent registry body)
    (hperm : (body.map Node.bare).Perm (body'.map Node.bare))
    (h : evaluateFiles setup (.empty registry) [⟨text, body⟩] = .ok inventory) :
    ∃ inventory', evaluateFiles setup (.empty registry) [⟨text, body'⟩] = .ok inventory' ∧
      inventory.Alike inventory' := by
  have hone' := hone.perm hperm
  have hind' := hind.perm hperm
  have hlawful := roundMachine_lawful hcurrent hone hind
  have hlawful' := roundMachine_lawful hcurrent hone' hind'
  have hfirst : RoundAt setup registry ⟨text⟩ body (fileTasks body)
      (firstRound registry ⟨text⟩ body) := roundAt_first hind.names hind.keys
  have hfirst' : RoundAt setup registry ⟨text⟩ body' (fileTasks body')
      (firstRound registry ⟨text⟩ body') := roundAt_first hind'.names hind'.keys
  have hcarries := roundMachine_carries hone hone' hind hind' fun _ => hperm.mem_iff
  have hback := roundMachine_carries hone' hone hind' hind fun _ => hperm.mem_iff.symm
  obtain ⟨last, hsettles, rfl⟩ := (evaluateFiles_eq_ok_iff hcurrent hone hind).1 h
  have hlast := (hsettles.swept hlawful (.start hfirst)).1
  have hnothing : ∀ fact, ¬ RoundHolds (firstRound registry ⟨text⟩ body') fact := by
    intro fact hfact
    cases fact <;> cases hfact
  have hnothing' : ∀ fact, ¬ RoundHolds (firstRound registry ⟨text⟩ body) fact := by
    intro fact hfact
    cases fact <;> cases hfact
  obtain ⟨last', hsettles', hbelow, hbounded⟩ := hsettles.transfer hlawful hlawful' hcarries hfirst
    hfirst' (fun fact hfact => (hnothing' fact hfact).elim)
    (fun fact hfact => (hnothing fact hfact).elim) (by
      -- what a statement says on the way, it says in the end, where it is done
      intro left task' round hround hgoal htask'
      obtain ⟨task, htask, hlike⟩ := hback.left task' htask'
      have hend : RoundAt setup registry ⟨text⟩ body [] last := hlast.here
      rcases hlast.settled task htask with hleft | ⟨fact, hverdict, hfact⟩
      · cases hleft
      · constructor
        · intro hfails
          rw [hback.fails hlike hround hend hgoal hfails] at hverdict
          cases hverdict
        · intro found hfound
          rw [hback.yields hlike hround hend hgoal hfound] at hverdict
          cases hverdict
          exact hfact)
  have hlast' := (hsettles'.swept hlawful' (.start hfirst')).1
  have hend : RoundAt setup registry ⟨text⟩ body [] { last with tasks := [] } :=
    ⟨hlast.here.scopes, hlast.here.mem, hlast.here.top⟩
  have hend' : RoundAt setup registry ⟨text⟩ body' [] { last' with tasks := [] } :=
    ⟨hlast'.here.scopes, hlast'.here.mem, hlast'.here.top⟩
  refine ⟨_, (evaluateFiles_eq_ok_iff hcurrent hone' hind').2 ⟨last', hsettles', rfl⟩, ?_⟩
  exact alike_of_facts hend hend' fun fact => ⟨hbelow fact, hbounded fact⟩

/-- Declaration order does not matter.  A file of variable pairs and resource blocks evaluates
exactly when it does with its statements in another order, and then both evaluations give the same
bindings and, for every key, the same fields, configured names, credentials and dependencies. -/
theorem evaluateFiles_perm {text : String}
    (hcurrent : NoHandles setup)
    (hone : AsksForOne setup registry ⟨text⟩ body)
    (hind : Independent registry body)
    (hperm : (body.map Node.bare).Perm (body'.map Node.bare)) :
    ((∃ x, evaluateFiles setup (.empty registry) [⟨text, body⟩] = .ok x) ↔
        ∃ y, evaluateFiles setup (.empty registry) [⟨text, body'⟩] = .ok y) ∧
      ∀ x y, evaluateFiles setup (.empty registry) [⟨text, body⟩] = .ok x →
        evaluateFiles setup (.empty registry) [⟨text, body'⟩] = .ok y → x.Alike y := by
  refine ⟨⟨?_, ?_⟩, ?_⟩
  · rintro ⟨x, hx⟩
    obtain ⟨y, hy, -⟩ := evaluates_of_perm hcurrent hone hind hperm hx
    exact ⟨y, hy⟩
  · rintro ⟨y, hy⟩
    obtain ⟨x, hx, -⟩ := evaluates_of_perm hcurrent (hone.perm hperm) (hind.perm hperm) hperm.symm hy
    exact ⟨x, hx⟩
  · intro x y hx hy
    obtain ⟨y', hy', halike⟩ := evaluates_of_perm hcurrent hone hind hperm hx
    rw [hy] at hy'
    cases hy'
    exact halike

end Permutation

/-! ### A file in two orders -/

/-- A registry with one type, a file with content. -/
def noteRegistry : Registry :=
  Registry.addType {} ⟨⟨"local::file", rfl⟩, [⟨"content", true, true, false, false⟩], {}⟩

/-- A variable that is bound at a line. -/
def greetingPair (line : Nat) : Node :=
  .pair ⟨"greeting", .text "hello", ⟨"main", line, 1⟩⟩

/-- The variable where it is used. -/
def greetingVar (line : Nat) : Node :=
  .var ["greeting"] ⟨"main", line, 10⟩

/-- A file, declared at a line, with the content that an expression comes to. -/
def noteBlock (line : Nat) (name : String) (content : Node) : Node :=
  .resource "local::file" (.text name)
    ([⟨"content", content, ⟨"main", line + 1, 1⟩⟩].map Node.pair) ⟨"main", line, 1⟩

/-- The content of another file. -/
def noteContent (line : Nat) (name : String) : Node :=
  .ref "local::file" (some (.text name)) ["content"] ⟨"main", line, 10⟩

/-- Every name is used before it is declared. -/
def notesBackward : List Node :=
  [noteBlock 1 "b" (noteContent 2 "a"), noteBlock 4 "a" (greetingVar 5), greetingPair 7]

/-- The variable comes first, and its line is the only one that moved up. -/
def notesForward : List Node :=
  [greetingPair 1, noteBlock 2 "b" (noteContent 3 "a"), noteBlock 5 "a" (greetingVar 6)]

theorem notes_perm : (notesBackward.map Node.bare).Perm (notesForward.map Node.bare) := by
  have hforward : notesForward.map Node.bare =
      [greetingPair 7].map Node.bare ++
        [noteBlock 1 "b" (noteContent 2 "a"), noteBlock 4 "a" (greetingVar 5)].map Node.bare := by
    simp [notesForward, noteBlock, greetingPair, greetingVar, noteContent, Node.bare, Entry.bare]
  have hbackward : notesBackward.map Node.bare =
      [noteBlock 1 "b" (noteContent 2 "a"), noteBlock 4 "a" (greetingVar 5)].map Node.bare ++
        [greetingPair 7].map Node.bare := rfl
  rw [hforward, hbackward]
  exact List.perm_append_comm

theorem noteBlock_plain (line : Nat) (name : String) (content : Node) :
    PlainStatement noteRegistry (noteBlock line name content) :=
  .block (rfl : TypeName.ofText "local::file" = .ok ⟨"local::file", rfl⟩) rfl rfl (by simp)

theorem noteBlock_literal {line : Nat} {name : String} {content : Node}
    (h : content.Everywhere NamesLiterally) :
    (noteBlock line name content).Everywhere NamesLiterally := by
  refine .intro trivial fun child hchild => ?_
  rcases List.mem_cons.1 hchild with rfl | hchild
  · exact .leaf trivial rfl
  · obtain rfl := List.mem_singleton.1 hchild
    refine .intro trivial fun child hchild => ?_
    obtain rfl := List.mem_singleton.1 hchild
    exact h

theorem notes_literal : ∀ node ∈ notesBackward, node.Everywhere NamesLiterally := by
  intro node hnode
  simp only [notesBackward, List.mem_cons, List.not_mem_nil, or_false] at hnode
  rcases hnode with rfl | rfl | rfl
  · refine noteBlock_literal (.intro ⟨"a", rfl, by decide⟩ fun child hchild => ?_)
    obtain rfl := List.mem_singleton.1 hchild
    exact .leaf trivial rfl
  · exact noteBlock_literal (.leaf trivial rfl)
  · refine .intro trivial fun child hchild => ?_
    obtain rfl := List.mem_singleton.1 hchild
    exact .leaf trivial rfl

theorem notes_independent : Independent noteRegistry notesBackward where
  plain := by
    intro node hnode
    simp only [notesBackward, List.mem_cons, List.not_mem_nil, or_false] at hnode
    rcases hnode with rfl | rfl | rfl
    · exact noteBlock_plain _ _ _
    · exact noteBlock_plain _ _ _
    · exact .pair _
  names := by decide
  keys := by decide +kernel
  apart := by
    intro typeText name span entries hblock entry hentry
    simp only [notesBackward, List.mem_cons, List.not_mem_nil, or_false] at hblock
    have hkey : entry.key = "content" := by
      rcases hblock with h | h | h
      · injection h with _ _ hsource
        rw [← filterMap_pairs entries, hsource, filterMap_pairs] at hentry
        obtain rfl := List.mem_singleton.1 hentry
        rfl
      · injection h with _ _ hsource
        rw [← filterMap_pairs entries, hsource, filterMap_pairs] at hentry
        obtain rfl := List.mem_singleton.1 hentry
        rfl
      · cases h
    rw [hkey]
    decide

/-- Both orders of the file evaluate, and they give the same. -/
theorem evaluateFiles_perm_notes :
    ∃ x y, evaluateFiles ⟨.configuration, none, 1⟩ (.empty noteRegistry)
        [⟨"main", notesBackward⟩] = .ok x ∧
      evaluateFiles ⟨.configuration, none, 1⟩ (.empty noteRegistry) [⟨"main", notesForward⟩] = .ok y ∧
      x.Alike y := by
  have hcurrent : NoHandles ⟨.configuration, none, 1⟩ := fun current h => nomatch h
  obtain ⟨hiff, halike⟩ := evaluateFiles_perm hcurrent (asksForOne_of_literal notes_literal)
    notes_independent notes_perm
  have hok : (evaluateFiles ⟨.configuration, none, 1⟩ (.empty noteRegistry)
      [⟨"main", notesBackward⟩]).toBool = true := by decide +kernel
  have hx : ∃ x, evaluateFiles ⟨.configuration, none, 1⟩ (.empty noteRegistry)
      [⟨"main", notesBackward⟩] = .ok x := by
    cases hrun : evaluateFiles ⟨.configuration, none, 1⟩ (.empty noteRegistry)
        [⟨"main", notesBackward⟩] with
    | error e =>
      rw [hrun] at hok
      cases hok
    | ok x => exact ⟨x, rfl⟩
  obtain ⟨y, hy⟩ := hiff.1 hx
  obtain ⟨x, hx⟩ := hx
  exact ⟨x, y, hx, hy, halike x y hx hy⟩

end Provision

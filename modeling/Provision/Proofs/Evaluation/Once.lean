import Provision.Proofs.Evaluation.Trials

/-!
# Each statement counts once

What an evaluation makes of bindings and fields is put together from the attempts
that get statements done, one for each statement that is reached: each starts from the
scope that the one before has left, at every depth.  When deferred attempts leave nothing
behind, running each statement once, in the order in which they got done, comes to the
same.  An `@if` with several statements can be deferred after some of them got
done, and then these count again at its next attempt.
-/

namespace Provision

open Provision.Language (Node Directive SourceFile)

/-! ## Scopes put together from what got done -/

/-- The attempts that get the statements of a body done, in the order in which they do. -/
def Evaluator.done (e : Evaluator) (frame : Frame) (p : Progress) (nodes : List Node) :
    List (Progress × Node) :=
  Step.successes (e.step frame) (Step.attempts (e.step frame) p nodes)

/-- Whether the statements in the bodies of a statement count for the scope around it. -/
def opens : Node → Bool
  | .block _ _ _ => true
  | .directive d => d.name = "if" || d.name = "for"
  | _ => false

mutual

/-- What becomes of the scope when each statement that an attempt reaches counts once: a named
block adds the fields of its own scope, a loop the blocks of its iterations, an `@if` does what
the statements of the chosen body do, and every other statement does what it does when run. -/
inductive Once (e : Evaluator) (names : String → Prop) : Trial → Scope → Prop
  | plain {trial : Trial} {q : Progress} (hopens : opens trial.node = false)
      (hrun : trial.run e = (.ok (), q)) : Once e names trial q.scope
  | chosen {frame : Frame} {p between : Progress} {d : Directive} {nodes : List Node} {t : Scope}
      (hname : d.name = "if") (hchosen : (e.chosen frame d).run p = (.ok nodes, between))
      (hperm : ((e.done frame between nodes).map Prod.snd).Perm nodes)
      (h : OnceEach e names frame (e.done frame between nodes) p.scope t) :
      Once e names ⟨frame, p, .directive d⟩ t
  | block {frame : Frame} {p : Progress} {key : String} {source : List Node} {span : Span} {t : Scope}
      (hperm : ((e.done frame { p with scope := p.scope.child } source).map Prod.snd).Perm source)
      (h : OnceEach e names frame (e.done frame { p with scope := p.scope.child } source)
        p.scope.child t) :
      Once e names ⟨frame, p, .block key source span⟩ (p.scope.addBlock key (.map t.fields))
  | loop {frame : Frame} {p between : Progress} {d : Directive} {bound : List String}
      {rounds : List (List Value)} {blocks : Blocks} (hname : d.name = "for")
      (hrounds : (e.rounds frame d).run p = (.ok (bound, rounds), between))
      (h : OnceRounds e names frame d bound 0 p.scope rounds blocks) :
      Once e names ⟨frame, p, .directive d⟩ (p.scope.extendBlocks blocks)

/-- What becomes of a scope when each attempt in turn starts from what the one before has left, as
far as blocks and the given names are concerned. -/
inductive OnceEach (e : Evaluator) (names : String → Prop) :
    Frame → List (Progress × Node) → Scope → Scope → Prop
  | nil {frame : Frame} {s t : Scope} (hkeeps : s.Keeps names t) : OnceEach e names frame [] s t
  | cons {frame : Frame} {p : Progress} {node : Node} {rest : List (Progress × Node)} {r s t : Scope}
      (hkeeps : r.Keeps names p.scope) (h : Once e names ⟨frame, p, node⟩ s)
      (hrest : OnceEach e names frame rest s t) :
      OnceEach e names frame ((p, node) :: rest) r t

/-- The blocks that the iterations of a loop bring about, each statement counting once in each. -/
inductive OnceRounds (e : Evaluator) (names : String → Prop) :
    Frame → Directive → List String → Nat → Scope → List (List Value) → Blocks → Prop
  | nil {frame : Frame} {d : Directive} {bound : List String} {index : Nat} {scope : Scope} :
      OnceRounds e names frame d bound index scope [] []
  | cons {frame : Frame} {d : Directive} {bound : List String} {index : Nat} {scope t : Scope}
      {attempts : List (Progress × Node)} {values : List Value} {rest : List (List Value)}
      {later : Blocks} (hnodes : attempts.map Prod.snd = d.body)
      (h : OnceEach e names (frame.iteration d.span index) attempts (scope.iteration bound values) t)
      (hrest : OnceRounds e names frame d bound (index + 1) scope rest later) :
      OnceRounds e names frame d bound index scope (values :: rest)
        (later.foldl (fun all entry => Blocks.append all entry.1 entry.2) t.blocks)

end

section Statements

variable {e : Evaluator} {names : String → Prop} {frame : Frame} {nodes : List Node}
variable {p q : Progress}

theorem OnceEach.keep {attempts : List (Progress × Node)} {s t u : Scope}
    (h : OnceEach e names frame attempts s t) (hkeeps : t.Keeps names u) :
    OnceEach e names frame attempts s u := by
  induction attempts generalizing s with
  | nil =>
    cases h with
    | nil hfirst => exact .nil (hfirst.trans hkeeps)
  | cons attempt rest ih =>
    cases h with
    | cons hfirst h hrest => exact .cons hfirst h (ih hrest)

theorem OnceEach.append {attempts : List (Progress × Node)} {node : Node} {s t : Scope}
    (h : OnceEach e names frame attempts s p.scope) (hlast : Once e names ⟨frame, p, node⟩ t) :
    OnceEach e names frame (attempts ++ [(p, node)]) s t := by
  induction attempts generalizing s with
  | nil =>
    cases h with
    | nil hkeeps => exact .cons hkeeps hlast (.nil (.refl _ _))
  | cons attempt rest ih =>
    cases h with
    | cons hkeeps h hrest => exact .cons hkeeps h (ih hrest)

/-- Tidy attempts at a statement, when they succeed, do what it comes to when all in it counts
once. -/
def CountsOnce (e : Evaluator) (names : String → Prop) (node : Node) : Prop :=
  ∀ frame p q, (runStatement e node frame).run p = (.ok (), q) →
    (Trial.mk frame p node).Tidy e names → Once e names ⟨frame, p, node⟩ q.scope

theorem onceEach_of_body (hnodes : ∀ node ∈ nodes, CountsOnce e names node)
    (htidy : ∀ attempt ∈ Step.attempts (e.step frame) p nodes,
      (Trial.mk frame attempt.1 attempt.2).Tidy e names)
    (hrun : (Step.body (nodes.map (e.step frame))).run p = (.ok (), q)) :
    OnceEach e names frame (e.done frame p nodes) p.scope q.scope := by
  have hkeeps := Step.body_keeps (fun past last rest => (∀ node ∈ rest, node ∈ nodes) ∧
    ((∀ attempt ∈ past, (Trial.mk frame attempt.1 attempt.2).Tidy e names) →
      OnceEach e names frame (Step.successes (e.step frame) past) p.scope last.scope)) ?_ ?_
    ⟨fun node hnode => hnode, fun _ => .nil (.refl _ _)⟩ hrun
  · exact hkeeps.2 htidy
  · rintro past p' front node back q ⟨hrest, honce⟩ hdone
    refine ⟨fun other hother => hrest other ?_, fun htidy => ?_⟩
    · simp only [List.mem_append, List.mem_cons] at hother ⊢
      tauto
    · have hbefore := honce fun attempt hattempt => htidy attempt (List.mem_append_left _ hattempt)
      rw [Step.successes_append_done hdone]
      exact hbefore.append (hnodes node (hrest node (by simp)) frame p' q hdone
        (htidy (p', node) (by simp)))
  · rintro past p' front node back reasons q ⟨hrest, honce⟩ hdeferred
    refine ⟨hrest, fun htidy => ?_⟩
    have hbefore := honce fun attempt hattempt => htidy attempt (List.mem_append_left _ hattempt)
    rw [Step.successes_append_deferred hdeferred]
    exact hbefore.keep ((htidy (p', node) (by simp)).waits hdeferred)

theorem onceEach_of_sequence (hnodes : ∀ node ∈ nodes, CountsOnce e names node)
    (htidy : ∀ trial, Walks e frame p nodes trial → trial.Tidy e names)
    (hrun : (Step.sequence (runStatements e nodes frame)).run p = (.ok (), q)) :
    ∃ attempts, attempts.map Prod.snd = nodes ∧
      OnceEach e names frame attempts p.scope q.scope := by
  induction nodes generalizing p with
  | nil =>
    cases hrun
    exact ⟨[], rfl, .nil (.refl _ _)⟩
  | cons node rest ih =>
    obtain ⟨⟨⟩, between, hfirst, hrest⟩ := run_bind_eq_ok.1 hrun
    obtain ⟨attempts, hmap, honce⟩ := ih
      (fun other hother => hnodes other (List.mem_cons_of_mem _ hother))
      (fun trial htrial => htidy trial (.later hfirst htrial)) hrest
    have hhead := hnodes node List.mem_cons_self frame p between hfirst (htidy _ .here)
    exact ⟨(p, node) :: attempts, by rw [List.map_cons, hmap], .cons (.refl _ _) hhead honce⟩

theorem onceRounds_of_iterations {d : Directive} {bound : List String} {index : Nat}
    {rounds : List (List Value)} {blocks : Blocks}
    (hnodes : ∀ node ∈ d.body, CountsOnce e names node)
    (htidy : ∀ trial, Iterates e frame d bound index p rounds trial → trial.Tidy e names)
    (hrun : (runIterations frame d.span bound
      (fun inner => Step.sequence (runStatements e d.body inner)) index rounds).run p =
        (.ok blocks, q)) :
    OnceRounds e names frame d bound index p.scope rounds blocks := by
  induction rounds generalizing index p blocks with
  | nil =>
    cases hrun
    exact .nil
  | cons values rest ih =>
    rw [runIterations_cons] at hrun
    obtain ⟨scope, between, hfirst, hrun⟩ := run_bind_eq_ok.1 hrun
    obtain ⟨later, last, hrest, hrun⟩ := run_bind_eq_ok.1 hrun
    cases hrun
    have hlater := ih (fun trial htrial => htidy trial (.later hfirst htrial)) hrest
    rw [still_of_run (Step.still_inScope _ _) hfirst] at hlater
    rw [Step.inScope_run] at hfirst
    cases hbody : (Step.sequence (runStatements e d.body (frame.iteration d.span index))).run
        { p with scope := p.scope.iteration bound values } with
    | mk outcome after =>
      rw [hbody] at hfirst
      rcases outcome with interrupt | ⟨⟩
      · cases hfirst
      · cases hfirst
        obtain ⟨attempts, hmap, honce⟩ :=
          onceEach_of_sequence hnodes (fun trial htrial => htidy trial (.here htrial)) hbody
        exact .cons hmap honce hlater

/-- A statement counts once, and so does each statement in it that is reached. -/
theorem statement_countsOnce (e : Evaluator) (names : String → Prop) (node : Node) :
    CountsOnce e names node := by
  induction node using Node.induction with
  | step node ih =>
    have hinner : ∀ child ∈ node.inner, CountsOnce e names child := fun child hchild =>
      ih child (Node.mem_children_of_inner hchild)
    intro frame p q hrun htidy
    cases node with
    | block key source span =>
      have hstatement := hrun
      unfold runStatement at hrun
      split at hrun
      · cases hrun
      · obtain ⟨scope, between, hbody, hrun⟩ := run_bind_eq_ok.1 hrun
        cases hrun
        rw [Step.inScope_run, runStatements_eq_step] at hbody
        cases hsource : (Step.body (source.map (e.step frame))).run
            { p with scope := p.scope.child } with
        | mk outcome after =>
          rw [hsource] at hbody
          rcases outcome with interrupt | ⟨⟩
          · cases hbody
          · cases hbody
            exact .block (Step.successes_perm hsource) (onceEach_of_body hinner
              (fun attempt hattempt => htidy.inside hstatement (.block hattempt)) hsource)
    | directive d =>
      have hstatement := hrun
      unfold runStatement at hrun
      by_cases hchoice : d.name = "if"
      · rw [runDirective_choice hchoice] at hrun
        obtain ⟨nodes, between, hchosen, hrun⟩ := run_bind_eq_ok.1 hrun
        have hscope := still_of_run still_chosen hchosen
        rw [runStatements_eq_step] at hrun
        refine .chosen hchoice hchosen (Step.successes_perm hrun) (hscope ▸ onceEach_of_body
          (fun node hnode => hinner node ((offered_of_chosen hchosen).inner hnode))
          (fun attempt hattempt => ?_) hrun)
        exact htidy.inside hstatement (.chosen hchoice hchosen hattempt)
      · by_cases hloop : d.name = "for"
        · rw [runDirective_loop hloop, runLoop_eq] at hrun
          obtain ⟨⟨bound, rounds⟩, between, hrounds, hrun⟩ := run_bind_eq_ok.1 hrun
          obtain ⟨blocks, after, hiterations, hrun⟩ := run_bind_eq_ok.1 hrun
          cases hrun
          have hscope := still_of_run still_rounds hrounds
          have hafter := still_of_run (still_runIterations _ _ _ _) hiterations
          have honce := onceRounds_of_iterations
            (fun node hnode => hinner node (List.mem_append_left _ hnode))
            (fun trial htrial => htidy.inside hstatement (.loop hloop hrounds htrial)) hiterations
          dsimp only
          rw [hafter, hscope]
          exact .loop hloop hrounds (hscope ▸ honce)
        · exact .plain (by simp [opens, hchoice, hloop]) hstatement
    | _ => exact .plain rfl hrun

end Statements

/-! ## Resource bodies -/

/-- What a resource body comes to is told by the attempts that get its statements done, one for each
statement. -/
structure BodyOnce (e : Evaluator) (frame : Frame) (source : List Node) (start : Progress)
    (fields : Bindings) (inventory : Inventory) : Prop where
  perm : ((e.done frame start (bodyOrder source)).map Prod.snd).Perm source
  /-- Each statement that is reached counts once for the blocks and the given names. -/
  scopes : ∀ names, (∀ attempt ∈ Step.attempts (e.step frame) start (bodyOrder source),
      (Trial.mk frame attempt.1 attempt.2).Tidy e names) →
    ∃ last, OnceEach e names frame (e.done frame start (bodyOrder source)) start.scope last ∧
      fields = last.fields
  /-- Running each statement once, in the order in which they got done, comes to the same. -/
  sequence : (∀ attempt ∈ Step.attempts (e.step frame) start (bodyOrder source), ∀ reasons q,
      (e.step frame attempt.2).run attempt.1 = (.error (.deferred reasons), q) →
        attempt.1.Like q) →
    ∃ q, (Step.sequence ((e.done frame start (bodyOrder source)).map fun attempt =>
        e.step frame attempt.2)).run start = (.ok (), q) ∧
      fields = q.scope.fields ∧ inventory = q.inventory

theorem bodyOrder_perm (source : List Node) : (bodyOrder source).Perm source := by
  unfold bodyOrder
  have hperm := List.filter_append_perm (fun node => !isDirective node) source
  simpa only [Bool.not_not] using hperm

theorem bodyOnce_of_resourceBody {setting : Setting} {depth : Nat} {frame inner : Frame}
    {source : List Node} {p q : Progress} {body : EvaluatedBody}
    (hrun : (resourceBody frame (runMarked (Evaluator.atDepth setting depth) source inner)).run p =
      (.ok body, q)) :
    BodyOnce (Evaluator.atDepth setting depth) inner source p.entered body.fields q.inventory := by
  rw [resourceBody_runMarked] at hrun
  generalize hbody : (Step.body ((bodyOrder source).map fun node =>
    runStatement (Evaluator.atDepth setting depth) node inner)).run p.entered = result at hrun
  obtain ⟨outcome, last⟩ := result
  rcases outcome with interrupt | ⟨⟩
  · cases hrun
  · cases hrun
    refine ⟨?_, fun names htidy => ?_, fun hleaves => ?_⟩
    · exact (Step.successes_perm hbody).trans (bodyOrder_perm source)
    · exact ⟨last.scope,
        onceEach_of_body (fun node _ => statement_countsOnce _ names node) htidy hbody, rfl⟩
    · obtain ⟨once, hsequence, hlike⟩ := Step.sequence_of_body
        (fun node => runStatement_blind (atDepth_blind setting depth) node inner) hleaves hbody
      refine ⟨once, hsequence, ?_, hlike.inventory.symm⟩
      dsimp only
      rw [hlike.scope]

/-! ## Files -/

namespace Round

/-- The attempts that get the statements of files done, in the order in which they do. -/
def done (setup : EvaluationSetup) (start : Round) : List (Round × Task) :=
  (start.history setup (passBound start.tasks)).filter (succeeds setup)

/-- An attempt at a statement of a file. -/
def trial (round : Round) (task : Task) : Trial :=
  ⟨{ file := task.file }, round.progress task, task.node⟩

/-- Evaluates statements of files once each, in the given order.  With each comes whether type
queries are answered although declarations may be missing. -/
def each (setup : EvaluationSetup) : Round → List (Bool × Task) → Option Round
  | round, [] => some round
  | round, (settling, task) :: rest =>
    match { round with settling := settling }.attempt setup task with
    | .ok (after, none) => after.each setup rest
    | _ => none

/-- The same has come about in the second round, and the same is undeclared. -/
structure Like (round other : Round) : Prop where
  inventory : other.inventory = round.inventory
  declared : other.declared = round.declared
  scopes : other.scopes = round.scopes
  unfinished : other.unfinished = round.unfinished

variable {setup : EvaluationSetup} {round after other last : Round} {task : Task}
variable {past : List (Round × Task)} {deferred : Deferred}

theorem done_append (h : round.attempt setup task = .ok (after, none)) :
    (past ++ [(round, task)]).filter (succeeds setup) =
      past.filter (succeeds setup) ++ [(round, task)] := by
  rw [List.filter_append, List.filter_singleton, succeeds_of_done h]
  rfl

theorem done_append_deferred (h : round.attempt setup task = .ok (after, some deferred)) :
    (past ++ [(round, task)]).filter (succeeds setup) = past.filter (succeeds setup) := by
  rw [List.filter_append, List.filter_singleton, succeeds_of_deferred h]
  exact List.append_nil _

/-- An attempt that is made in a like round with the same patience comes to the same. -/
theorem Like.attempt (h : round.Like other)
    (hdone : round.attempt setup task = .ok (after, none)) :
    ∃ after', { other with settling := round.settling }.attempt setup task = .ok (after', none) ∧
      after.Like after' := by
  have hprogress : progress { other with settling := round.settling } task = round.progress task := by
    unfold progress
    dsimp only
    rw [h.inventory, h.declared, h.scopes]
  have hundeclared :
      undeclared { other with settling := round.settling } task = round.undeclared task := by
    unfold undeclared
    dsimp only
    rw [h.unfinished]
  rw [attempt_eq] at hdone ⊢
  rw [hprogress, hundeclared]
  split at hdone
  · cases hdone
    refine ⟨_, rfl, rfl, rfl, ?_, ?_⟩
    · show other.scopes.set _ _ = round.scopes.set _ _
      rw [h.scopes]
    · show Table.erase other.unfinished _ = Table.erase round.unfinished _
      rw [h.unfinished]
  · cases hdone
  · cases hdone

theorem each_append {start between : Round} {tasks : List (Bool × Task)} {settling : Bool}
    (h : start.each setup tasks = some between) :
    start.each setup (tasks ++ [(settling, task)]) = between.each setup [(settling, task)] := by
  induction tasks generalizing start with
  | nil =>
    cases h
    rfl
  | cons first rest ih =>
    obtain ⟨firstSettling, firstTask⟩ := first
    rw [each] at h
    rw [List.cons_append, each]
    split at h
    · exact ih h
    · cases h

end Round

/-- The scope of each file keeps its blocks and the values of some names. -/
def KeepScopes (names : String → Prop) (scopes others : List Scope) : Prop :=
  ∀ source : Nat, ((scopes[source]?).getD {}).Keeps names ((others[source]?).getD {})

theorem keepScopes_set {names : String → Prop} {scopes : List Scope} {source : Nat} {scope : Scope}
    (h : ((scopes[source]?).getD {}).Keeps names scope) :
    KeepScopes names scopes (scopes.set source scope) := by
  intro other
  rw [List.getElem?_set]
  by_cases hother : source = other
  · subst hother
    rw [if_pos rfl]
    by_cases hlt : source < scopes.length
    · rw [if_pos hlt]
      exact h
    · rw [if_neg hlt, List.getElem?_eq_none (Nat.not_lt.1 hlt)]
      exact .refl _ _
  · rw [if_neg hother]
    exact .refl _ _

/-- What becomes of the scopes of files when each attempt in turn starts from what the one before
has left, as far as blocks and the given names are concerned. -/
inductive OnceTasks (setup : EvaluationSetup) (names : String → Prop) :
    List (Round × Task) → List Scope → List Scope → Prop
  | nil {scopes last : List Scope} (hkeep : KeepScopes names scopes last) :
      OnceTasks setup names [] scopes last
  | cons {round : Round} {task : Task} {rest : List (Round × Task)} {s : Scope}
      {scopes last : List Scope} (hkeep : KeepScopes names scopes round.scopes)
      (h : Once (setup.evaluator (round.undeclared task)) names (round.trial task) s)
      (hrest : OnceTasks setup names rest (round.scopes.set task.source s) last) :
      OnceTasks setup names ((round, task) :: rest) scopes last

section Tasks

variable {setup : EvaluationSetup} {names : String → Prop} {attempts : List (Round × Task)}
variable {round : Round} {task : Task} {scopes between last : List Scope}

theorem OnceTasks.keep (h : OnceTasks setup names attempts scopes between)
    (hkeep : KeepScopes names between last) :
    OnceTasks setup names attempts scopes last := by
  induction attempts generalizing scopes with
  | nil =>
    cases h with
    | nil hfirst => exact .nil fun source => (hfirst source).trans (hkeep source)
  | cons attempt rest ih =>
    cases h with
    | cons hfirst h hrest => exact .cons hfirst h (ih hrest)

theorem OnceTasks.append {s : Scope} (h : OnceTasks setup names attempts scopes round.scopes)
    (hlast : Once (setup.evaluator (round.undeclared task)) names (round.trial task) s) :
    OnceTasks setup names (attempts ++ [(round, task)]) scopes (round.scopes.set task.source s) := by
  induction attempts generalizing scopes with
  | nil =>
    cases h with
    | nil hkeep => exact .cons hkeep hlast (.nil fun _ => .refl _ _)
  | cons attempt rest ih =>
    cases h with
    | cons hkeep h hrest => exact .cons hkeep h (ih hrest)

end Tasks

/-- What an evaluation of files comes to is told by the attempts that get their statements done, one
for each statement. -/
structure FilesOnce (setup : EvaluationSetup) (start : Round) (indices : List Nat)
    (result : Inventory) : Prop where
  perm : ((start.done setup).map Prod.snd).Perm start.tasks
  /-- Each statement that is reached counts once for the blocks and the given names. -/
  scopes : ∀ names, (∀ attempt ∈ start.history setup (passBound start.tasks),
      (attempt.1.trial attempt.2).Tidy (setup.evaluator (attempt.1.undeclared attempt.2)) names) →
    ∃ last : Round, OnceTasks setup names (start.done setup) start.scopes last.scopes ∧
      result = last.result indices
  /-- Evaluating each statement once, in the order in which they got done, comes to the same. -/
  each : (∀ attempt ∈ start.history setup (passBound start.tasks), ∀ after deferred,
      attempt.1.attempt setup attempt.2 = .ok (after, some deferred) → after = attempt.1) →
    ∃ last, start.each setup ((start.done setup).map fun attempt =>
        (attempt.1.settling, attempt.2)) = some last ∧ result = last.result indices

section Files

variable {setup : EvaluationSetup} {start last : Round} {bound : Nat}

theorem tasks_of_run (hrun : start.run setup bound = .ok last) :
    (((start.history setup bound).filter (Round.succeeds setup)).map Prod.snd).Perm start.tasks := by
  have hkeeps := Round.run_keeps (fun past _ rest =>
    ((past.filter (Round.succeeds setup)).map Prod.snd ++ rest).Perm start.tasks) ?_ ?_ ?_ []
    (List.Perm.refl _) hrun
  · rwa [List.append_nil] at hkeeps
  · intro past round front task back after hperm hdone
    rw [Round.done_append hdone, List.map_append, List.append_assoc, List.map_singleton,
      List.singleton_append]
    exact (List.Perm.append_left _ List.perm_middle.symm).trans hperm
  · intro past round front task back after d hperm hdeferred
    rwa [Round.done_append_deferred hdeferred]
  · exact fun _ _ _ _ _ hperm => hperm

/-- What is tried is a statement of the files. -/
theorem mem_tasks_of_history (hrun : start.run setup bound = .ok last) :
    ∀ attempt ∈ start.history setup bound, attempt.2 ∈ start.tasks := by
  refine (Round.run_keeps (fun past _ rest => (∀ attempt ∈ past, attempt.2 ∈ start.tasks) ∧
    ∀ task ∈ rest, task ∈ start.tasks) ?_ ?_ ?_ []
    ⟨fun _ => List.not_mem_nil.elim, fun _ h => h⟩ hrun).1
  · rintro past round front task back after ⟨hpast, hrest⟩ -
    refine ⟨fun attempt hattempt => ?_, fun other hother => hrest other ?_⟩
    · rcases List.mem_append.1 hattempt with hattempt | hattempt
      · exact hpast attempt hattempt
      · rw [List.mem_singleton.1 hattempt]
        exact hrest task (by simp)
    · simp only [List.mem_append, List.mem_cons] at hother ⊢
      tauto
  · rintro past round front task back after d ⟨hpast, hrest⟩ -
    refine ⟨fun attempt hattempt => ?_, hrest⟩
    rcases List.mem_append.1 hattempt with hattempt | hattempt
    · exact hpast attempt hattempt
    · rw [List.mem_singleton.1 hattempt]
      exact hrest task (by simp)
  · exact fun _ _ _ _ _ h => h

theorem onceTasks_of_run {names : String → Prop}
    (htidy : ∀ attempt ∈ start.history setup bound,
      (attempt.1.trial attempt.2).Tidy (setup.evaluator (attempt.1.undeclared attempt.2)) names)
    (hrun : start.run setup bound = .ok last) :
    OnceTasks setup names ((start.history setup bound).filter (Round.succeeds setup)) start.scopes
      last.scopes := by
  have hkeeps := Round.run_keeps (fun past round _ =>
    (∀ attempt ∈ past,
      (attempt.1.trial attempt.2).Tidy (setup.evaluator (attempt.1.undeclared attempt.2)) names) →
    OnceTasks setup names (past.filter (Round.succeeds setup)) start.scopes round.scopes) ?_ ?_ ?_ []
    (fun _ => .nil fun _ => .refl _ _) hrun
  · exact hkeeps htidy
  · intro past round front task back after honce hdone htidy
    have hbefore := honce fun attempt hattempt => htidy attempt (List.mem_append_left _ hattempt)
    rw [Round.done_append hdone]
    rw [attempt_eq] at hdone
    split at hdone
    · next q hq =>
      cases hdone
      exact hbefore.append
        (statement_countsOnce _ names task.node _ _ _ hq (htidy (round, task) (by simp)))
    · cases hdone
    · cases hdone
  · intro past round front task back after d honce hdeferred htidy
    have hbefore := honce fun attempt hattempt => htidy attempt (List.mem_append_left _ hattempt)
    rw [Round.done_append_deferred hdeferred]
    rw [attempt_eq] at hdeferred
    split at hdeferred
    · cases hdeferred
    · next reasons q hq =>
      cases hdeferred
      exact hbefore.keep (keepScopes_set ((htidy (round, task) (by simp)).waits hq))
    · cases hdeferred
  · exact fun _ _ _ _ _ honce => honce

theorem each_of_run
    (hleaves : ∀ attempt ∈ start.history setup bound, ∀ after deferred,
      attempt.1.attempt setup attempt.2 = .ok (after, some deferred) → after = attempt.1)
    (hrun : start.run setup bound = .ok last) :
    ∃ once, start.each setup (((start.history setup bound).filter (Round.succeeds setup)).map
      fun attempt => (attempt.1.settling, attempt.2)) = some once ∧ last.Like once := by
  have hkeeps := Round.run_keeps (fun past round _ =>
    (∀ attempt ∈ past, ∀ after deferred,
      attempt.1.attempt setup attempt.2 = .ok (after, some deferred) → after = attempt.1) →
    ∃ once, start.each setup ((past.filter (Round.succeeds setup)).map
      fun attempt => (attempt.1.settling, attempt.2)) = some once ∧ round.Like once) ?_ ?_ ?_ []
    (fun _ => ⟨start, rfl, rfl, rfl, rfl, rfl⟩) hrun
  · exact hkeeps hleaves
  · intro past round front task back after heach hdone hleaves
    obtain ⟨once, hbefore, hlike⟩ := heach fun attempt hattempt =>
      hleaves attempt (List.mem_append_left _ hattempt)
    obtain ⟨next, hnext, hafter⟩ := hlike.attempt hdone
    refine ⟨next, ?_, hafter⟩
    rw [Round.done_append hdone, List.map_append, List.map_singleton, Round.each_append hbefore,
      Round.each, hnext]
    rfl
  · intro past round front task back after d heach hdeferred hleaves
    obtain ⟨once, hbefore, hlike⟩ := heach fun attempt hattempt =>
      hleaves attempt (List.mem_append_left _ hattempt)
    obtain rfl := hleaves (round, task) (by simp) after d hdeferred
    exact ⟨once, by rwa [Round.done_append_deferred hdeferred], hlike⟩
  · intro past round rest tasks settling heach hleaves
    obtain ⟨once, hbefore, hlike⟩ := heach hleaves
    exact ⟨once, hbefore, hlike.inventory, hlike.declared, hlike.scopes, hlike.unfinished⟩

theorem mem_tasks_of_evaluates {inventory result : Inventory} {files : List SourceFile}
    {indices : List Nat} (hstart : Round.start inventory files = .ok (start, indices))
    (h : evaluateFiles setup inventory files = .ok result) :
    ∀ attempt ∈ start.history setup (passBound start.tasks), attempt.2 ∈ start.tasks := by
  obtain ⟨start', indices', last, hstart', hrun, -⟩ := evaluateFiles_eq_ok h
  rw [hstart] at hstart'
  cases hstart'
  exact mem_tasks_of_history hrun

/-- Nothing is left of a deferred attempt at a statement that leaves nothing behind. -/
theorem Round.eq_of_like {round after : Round} {task : Task} {deferred : Deferred}
    (h : ∀ reasons q, (runStatement (setup.evaluator (round.undeclared task)) task.node
      { file := task.file }).run (round.progress task) = (.error (.deferred reasons), q) →
        (round.progress task).Like q)
    (hdeferred : round.attempt setup task = .ok (after, some deferred)) :
    after = round := by
  rw [attempt_eq] at hdeferred
  split at hdeferred
  · cases hdeferred
  · next reasons q hrun =>
    cases hdeferred
    obtain ⟨hinventory, hdeclared, hscope⟩ := h reasons q hrun
    unfold keeping
    rw [hinventory, hdeclared, hscope]
    unfold progress
    dsimp only
    rw [set_getD_getElem?]
  · cases hdeferred

theorem filesOnce_of_evaluates {inventory result : Inventory} {files : List SourceFile}
    {indices : List Nat} (hstart : Round.start inventory files = .ok (start, indices))
    (h : evaluateFiles setup inventory files = .ok result) :
    FilesOnce setup start indices result := by
  obtain ⟨start', indices', last, hstart', hrun, rfl⟩ := evaluateFiles_eq_ok h
  obtain ⟨rfl, rfl⟩ : start = start' ∧ indices = indices' := by
    rw [hstart] at hstart'
    cases hstart'
    exact ⟨rfl, rfl⟩
  refine ⟨tasks_of_run hrun, fun names htidy => ⟨last, onceTasks_of_run htidy hrun, rfl⟩,
    fun hleaves => ?_⟩
  obtain ⟨once, heach, hlike⟩ := each_of_run hleaves hrun
  refine ⟨once, heach, ?_⟩
  unfold Round.result
  rw [hlike.inventory, hlike.scopes]

end Files

/-! ## The two together -/

/-- In every resource body and in all files that evaluate, each statement that is reached counts
once, and evaluating the statements once each comes to the same, as far as what is deferred
leaves nothing behind. -/
theorem statements_count_once (setup : EvaluationSetup) :
    (∀ (undeclared : List TypeName) (frame inner : Frame) (source : List Node) (p q : Progress)
      (body : EvaluatedBody),
      (resourceBody frame (runMarked (setup.evaluator undeclared) source inner)).run p = (.ok body, q) →
      BodyOnce (setup.evaluator undeclared) inner source p.entered body.fields q.inventory) ∧
    ∀ (inventory : Inventory) (files : List SourceFile) (start : Round) (indices : List Nat)
      (result : Inventory),
      Round.start inventory files = .ok (start, indices) →
      evaluateFiles setup inventory files = .ok result →
      FilesOnce setup start indices result :=
  ⟨fun _ _ _ _ _ _ _ hrun => bodyOnce_of_resourceBody hrun,
    fun _ _ _ _ _ hstart h => filesOnce_of_evaluates hstart h⟩

/-! ### Lists merged in any pass -/

/-- A directive that merges a value into a name. -/
def extendsAt (line : Nat) (name : String) (value : Node) : Node :=
  .directive ⟨"extends", [.map [⟨name, value, lineStart line⟩]], [], true, [], [], lineStart line⟩

/-- What is done when a condition holds. -/
def whenAt (line : Nat) (condition : Node) (body : List Node) : Node :=
  .directive ⟨"if", [condition], [], false, body, [], lineStart line⟩

/-- A list that waits for `w`, a choice that waits for `flag`, and a choice that does not wait. -/
def listings : List Node := [
  extendsAt 1 "v" (.list [variableAt 1 "w"]),
  whenAt 2 (variableAt 2 "flag") [pairAt 3 "w" (.text "a"), extendsAt 4 "v" (.list [.text "b"])],
  whenAt 6 (.bool true) [pairAt 7 "flag" (.bool true)]]

/-- The frame of the first file. -/
def mainFrame : Frame :=
  { file := 0 }

/-- The state before anything is evaluated. -/
def emptyProgress : Progress :=
  ⟨.empty boxRegistry, [], {}, [], none⟩

theorem not_sprawls_extendsAt (line : Nat) (name : String) (value : Node) :
    ¬ Sprawls (extendsAt line name value) := by
  intro h
  cases h with
  | choice hname _ _ => exact absurd hname (of_decide_eq_false rfl)
  | inside hchild _ => cases hchild

theorem not_sprawls_pairAt (line : Nat) (name : String) (value : Node) :
    ¬ Sprawls (pairAt line name value) := by
  intro h
  cases h with
  | inside hchild _ => cases hchild

/-- Each of the statements declares nothing, leaves the scope alone when it waits, and makes no
choice between bodies of several statements inside of it. -/
theorem listings_spec {node : Node} (h : node ∈ listings) :
    typesIn node = [] ∧ (∀ e frame, (runStatement e node frame).WaitsStill) ∧
      ∀ child ∈ node.inner, ¬ Sprawls child := by
  simp only [listings, List.mem_cons, List.not_mem_nil, or_false] at h
  rcases h with rfl | rfl | rfl
  · refine ⟨rfl, fun e frame => waitsStill_statement (not_sprawls_extendsAt _ _ _) frame, ?_⟩
    exact fun child hchild => nomatch hchild
  · refine ⟨rfl, fun e frame => waitsStill_choice rfl fun nodes hoffers => ?_, fun child hchild => ?_⟩
    · -- nothing waits once the flag is there
      have hdone : ∀ p, ∃ q, (Step.body (nodes.map (e.step frame))).run p = (.ok (), q) := by
        intro p
        rcases hoffers with rfl | rfl | ⟨branch, hbranch, -⟩
        · exact ⟨_, rfl⟩
        · exact ⟨_, rfl⟩
        · cases hbranch
      intro p reasons q hrun
      obtain ⟨q', hdone⟩ := hdone p
      rw [hrun] at hdone
      cases hdone
    · have hchild : child ∈ [pairAt 3 "w" (.text "a"), extendsAt 4 "v" (.list [.text "b"])] := hchild
      simp only [List.mem_cons, List.not_mem_nil, or_false] at hchild
      rcases hchild with rfl | rfl
      · exact not_sprawls_pairAt _ _ _
      · exact not_sprawls_extendsAt _ _ _
  · have hinner : ∀ child ∈ (whenAt 6 (.bool true) [pairAt 7 "flag" (.bool true)]).inner,
        ¬ Sprawls child := by
      intro child hchild
      have hchild : child ∈ [pairAt 7 "flag" (.bool true)] := hchild
      rw [List.mem_singleton.1 hchild]
      exact not_sprawls_pairAt _ _ _
    refine ⟨rfl, fun e frame => waitsStill_statement (fun hsprawls => ?_) frame, hinner⟩
    cases hsprawls with
    | choice _ hoffers hlength =>
      rcases hoffers with rfl | rfl | ⟨branch, hbranch, -⟩
      · cases hlength
      · exact absurd hlength (by decide)
      · cases hbranch
    | inside hchild h => exact hinner _ hchild h

/-- The lists come together in the order in which the choices let them: as fields of a body, and as
bindings of a file.  All conditions are met, so that each statement counts once. -/
theorem statements_count_once_listings :
    ∃ body q start indices result,
      (resourceBody mainFrame (runMarked (boxSetup.evaluator []) listings mainFrame)).run
        emptyProgress = (.ok body, q) ∧
      (Table.get? body.fields "v").map textsOf = some ["b", "a"] ∧
      (∃ last, OnceEach (boxSetup.evaluator []) (fun _ => True) mainFrame
          ((boxSetup.evaluator []).done mainFrame emptyProgress.entered (bodyOrder listings))
          emptyProgress.entered.scope last ∧ body.fields = last.fields) ∧
      (∃ once, (Step.sequence (((boxSetup.evaluator []).done mainFrame emptyProgress.entered
          (bodyOrder listings)).map fun attempt =>
            (boxSetup.evaluator []).step mainFrame attempt.2)).run emptyProgress.entered =
          (.ok (), once) ∧ body.fields = once.scope.fields ∧ q.inventory = once.inventory) ∧
      Round.start (.empty boxRegistry) [⟨"main", listings⟩] = .ok (start, indices) ∧
      evaluateFiles boxSetup (.empty boxRegistry) [⟨"main", listings⟩] = .ok result ∧
      (start.history boxSetup (passBound start.tasks)).map (Round.succeeds boxSetup) =
        [false, false, true, false, true, true] ∧
      (∃ last : Round, OnceTasks boxSetup (fun _ => True) (start.done boxSetup) start.scopes
          last.scopes ∧ result = last.result indices) ∧
      ∃ once, start.each boxSetup ((start.done boxSetup).map fun attempt =>
          (attempt.1.settling, attempt.2)) = some once ∧ result = once.result indices := by
  have hbody : ((resourceBody mainFrame (runMarked (boxSetup.evaluator []) listings mainFrame)).run
      emptyProgress).1.toOption.bind (fun body => (Table.get? body.fields "v").map textsOf) =
        some ["b", "a"] := by decide +kernel
  have hfile : (Round.start (.empty boxRegistry) [⟨"main", listings⟩]).toOption.bind (fun started =>
      (evaluateFiles boxSetup (.empty boxRegistry) [⟨"main", listings⟩]).toOption.map fun _ =>
        (started.1.history boxSetup (passBound started.1.tasks)).map (Round.succeeds boxSetup)) =
      some [false, false, true, false, true, true] := by decide +kernel
  have htasks : (Round.start (.empty boxRegistry) [⟨"main", listings⟩]).toOption.map
      (fun started => started.1.tasks) = some (listings.map fun node => ⟨0, 0, node⟩) := rfl
  generalize hrun : (resourceBody mainFrame (runMarked (boxSetup.evaluator []) listings
    mainFrame)).run emptyProgress = ran at hbody
  obtain ⟨outcome, q⟩ := ran
  obtain ⟨body, hok, htexts⟩ := Option.bind_eq_some_iff.1 hbody
  obtain rfl : outcome = .ok body := toOption_eq_some.1 hok
  obtain ⟨⟨start, indices⟩, hstart, hfile⟩ := Option.bind_eq_some_iff.1 hfile
  obtain ⟨result, hresult, hhistory⟩ := Option.map_eq_some_iff.1 hfile
  rw [toOption_eq_some] at hstart hresult
  rw [hstart] at htasks
  have hattempt : ∀ attempt ∈ start.history boxSetup (passBound start.tasks),
      attempt.2.node ∈ listings := by
    intro attempt hattempt
    have htask := mem_tasks_of_evaluates hstart hresult attempt hattempt
    have htasks : start.tasks = listings.map fun node => ⟨0, 0, node⟩ := Option.some.inj htasks
    rw [htasks] at htask
    obtain ⟨node, hnode, heq⟩ := List.mem_map.1 htask
    exact heq ▸ hnode
  have hbodies := (statements_count_once boxSetup).1 _ mainFrame mainFrame listings _ _ _ hrun
  have hfiles := (statements_count_once boxSetup).2 _ _ _ _ _ hstart hresult
  refine ⟨body, q, start, indices, result, rfl, htexts, hbodies.scopes _ ?_, hbodies.sequence ?_,
    hstart, hresult, hhistory, hfiles.scopes _ ?_, hfiles.each ?_⟩
  · intro attempt hmem
    obtain ⟨-, hwaits, hinner⟩ := listings_spec (mem_bodyOrder.1 (Step.mem_of_attempts hmem))
    exact Trial.tidy_of_inner (hwaits _ _) hinner
  · intro attempt hmem reasons q hdeferred
    obtain ⟨htypes, hwaits, -⟩ := listings_spec (mem_bodyOrder.1 (Step.mem_of_attempts hmem))
    exact like_of_waits htypes (hwaits _ _) hdeferred
  · intro attempt hmem
    obtain ⟨-, hwaits, hinner⟩ := listings_spec (hattempt attempt hmem)
    exact Trial.tidy_of_inner (hwaits _ _) hinner
  · intro attempt hmem after deferred hdeferred
    obtain ⟨htypes, hwaits, -⟩ := listings_spec (hattempt attempt hmem)
    exact Round.eq_of_like (fun _ _ => like_of_waits htypes (hwaits _ _)) hdeferred

/-! ### A choice that counts twice -/

/-- A choice that is deferred after it has merged its list. -/
def hastyListing : SourceFile :=
  ⟨"main", [
    whenAt 1 (.bool true) [extendsAt 2 "l" (.list [.text "a"]), pairAt 3 "x" (variableAt 3 "late")],
    pairAt 5 "late" (.text "z")]⟩

/-- The texts that a name is bound to in the first file. -/
def boundTexts (inventory : Inventory) (name : String) : Option (List String) :=
  (inventory.files.head?.bind fun file => Table.get? file.bindings name).map textsOf

/-- The list has its item twice, and once when each statement is evaluated once. -/
theorem hasty_listing_merged_twice :
    ∃ start indices result once,
      Round.start (.empty boxRegistry) [hastyListing] = .ok (start, indices) ∧
      evaluateFiles boxSetup (.empty boxRegistry) [hastyListing] = .ok result ∧
      start.each boxSetup ((start.done boxSetup).map fun attempt =>
        (attempt.1.settling, attempt.2)) = some once ∧
      boundTexts result "l" = some ["a", "a"] ∧
      boundTexts (once.result indices) "l" = some ["a"] := by
  have hrun : (Round.start (.empty boxRegistry) [hastyListing]).toOption.bind (fun started =>
      (evaluateFiles boxSetup (.empty boxRegistry) [hastyListing]).toOption.bind fun result =>
        (started.1.each boxSetup ((started.1.done boxSetup).map fun attempt =>
            (attempt.1.settling, attempt.2))).map fun once =>
          (boundTexts result "l", boundTexts (once.result started.2) "l")) =
      some (some ["a", "a"], some ["a"]) := by decide +kernel
  obtain ⟨⟨start, indices⟩, hstart, hrun⟩ := Option.bind_eq_some_iff.1 hrun
  obtain ⟨result, hresult, hrun⟩ := Option.bind_eq_some_iff.1 hrun
  obtain ⟨once, honce, hrun⟩ := Option.map_eq_some_iff.1 hrun
  obtain ⟨htwice, hsingle⟩ := Prod.mk.inj hrun
  rw [toOption_eq_some] at hstart hresult
  exact ⟨start, indices, result, once, hstart, hresult, honce, htwice, hsingle⟩

end Provision

import Provision.Proofs.Evaluation.Blind

/-!
# Attempts inside attempts

While a statement is evaluated, the statements in its bodies are tried in turn: those of
a named block in a scope of their own, those of a loop in one scope for each iteration,
and those of an `@if` in the scope around it.  A statement that waits has left the scope
as it was, unless it is an `@if` with several statements in a branch.
-/

namespace Provision

open Provision.Language (Node Branch Directive)

/-! ## Choices and loops -/

/-- The step of a statement, with the frame first. -/
def Evaluator.step (e : Evaluator) (frame : Frame) (node : Node) : Step Unit :=
  runStatement e node frame

/-- The body of the first branch without a guard, or with one that holds. -/
def Evaluator.guarded (e : Evaluator) (frame : Frame) (span : Span) : List Branch → Step (List Node)
  | [] => pure []
  | ⟨_, arguments, body, _⟩ :: rest =>
    match arguments.head? with
    | none => pure body
    | some condition => do
      let value ← e.reading frame span fun view => evaluate view condition
      if value.isTruthy then pure body else e.guarded frame span rest

/-- The body that an `@if` chooses. -/
def Evaluator.chosen (e : Evaluator) (frame : Frame) (d : Directive) : Step (List Node) :=
  match d.arguments.head? with
  | none => Step.fail (.invalidDirective d.span d.name "expects a condition")
  | some condition => do
    let value ← e.reading frame d.span fun view => evaluate view condition
    if value.isTruthy then pure d.body else e.guarded frame d.span d.branches

/-- The variables of a loop and the values that they take, iteration by iteration. -/
def Evaluator.rounds (e : Evaluator) (frame : Frame) (d : Directive) :
    Step (List String × List (List Value)) := do
  let names ← Step.settled (loopNames d d.arguments)
  if names.isEmpty then
    Step.fail (.invalidDirective d.span d.name "expects at least one loop variable")
  else
    match (d.clause? "in").bind fun clause => clause.arguments.head? with
    | none => Step.fail (.invalidDirective d.span d.name "expects `in <list or map>`")
    | some source =>
      let value ← e.reading frame d.span fun view => evaluate view source
      let rounds ← Step.settled (iterations d names.length value)
      pure (names, rounds)

/-- The scope of an iteration in which the variables of the loop have the given values. -/
def Scope.iteration (scope : Scope) (names : List String) (values : List Value) : Scope :=
  (names.zip values).foldl (fun s entry => s.put entry.1 entry.2) scope.child

/-- The frame of an iteration. -/
def Frame.iteration (frame : Frame) (span : Span) (index : Nat) : Frame :=
  { frame with site := frame.site ++ [.iteration span index] }

section Parts

variable {e : Evaluator} {frame : Frame} {d : Directive} {p q : Progress} {nodes : List Node}

theorem runStatements_eq_step (e : Evaluator) (frame : Frame) (source : List Node) :
    runStatements e source frame = source.map (e.step frame) :=
  runStatements_eq_map e frame source

theorem runBranches_eq (span : Span) (branches : List Branch) :
    runBranches e span branches frame =
      e.guarded frame span branches >>= fun nodes => Step.body (runStatements e nodes frame) := by
  induction branches with
  | nil =>
    rw [runBranches, Evaluator.guarded, pure_bind]
    rfl
  | cons branch rest ih =>
    obtain ⟨name, arguments, body, place⟩ := branch
    rw [runBranches, Evaluator.guarded]
    cases arguments.head? with
    | none =>
      dsimp only
      rw [pure_bind]
    | some condition =>
      dsimp only
      rw [bind_assoc]
      congr 1
      funext value
      split
      · rw [pure_bind]
      · exact ih

/-- An `@if` runs the body that it chooses. -/
theorem runDirective_choice (hname : d.name = "if") :
    runDirective e d frame =
      e.chosen frame d >>= fun nodes => Step.body (runStatements e nodes frame) := by
  obtain ⟨name, arguments, clauses, bodyless, body, branches, span⟩ := d
  obtain rfl : name = "if" := hname
  rw [runDirective, if_pos rfl, Evaluator.chosen]
  cases arguments.head? with
  | none => rfl
  | some condition =>
    dsimp only
    rw [bind_assoc]
    congr 1
    funext value
    split
    · rw [pure_bind]
    · exact runBranches_eq span branches

/-- A loop runs its iterations and adds the blocks of all of them. -/
theorem runLoop_eq (run : Frame → Step Unit) :
    runLoop e frame d run = e.rounds frame d >>= fun found =>
      runIterations frame d.span found.1 run 0 found.2 >>= fun blocks =>
        modify fun progress => { progress with scope := progress.scope.extendBlocks blocks } := by
  unfold runLoop Evaluator.rounds
  rw [bind_assoc]
  congr 1
  funext names
  split
  · rfl
  · cases (d.clause? "in").bind fun clause => clause.arguments.head? with
    | none => rfl
    | some source => simp only [bind_assoc, pure_bind]

theorem runDirective_loop (hname : d.name = "for") :
    runDirective e d frame = runLoop e frame d fun inner => Step.sequence (runStatements e d.body inner) := by
  obtain ⟨name, arguments, clauses, bodyless, body, branches, span⟩ := d
  obtain rfl : name = "for" := hname
  rw [runDirective, if_neg (by decide), if_pos rfl]

theorem runIterations_cons (run : Frame → Step Unit) (span : Span) (names : List String) (index : Nat)
    (values : List Value) (rest : List (List Value)) :
    runIterations frame span names run index (values :: rest) =
      Step.inScope (fun scope => scope.iteration names values) (run (frame.iteration span index)) >>=
        fun scope => runIterations frame span names run (index + 1) rest >>= fun later =>
          pure (later.foldl (fun all entry => Blocks.append all entry.1 entry.2) scope.blocks) :=
  rfl

theorem still_guarded (span : Span) (branches : List Branch) : (e.guarded frame span branches).Still := by
  induction branches with
  | nil => exact Step.still_pure _
  | cons branch rest ih =>
    obtain ⟨name, arguments, body, place⟩ := branch
    rw [Evaluator.guarded]
    split
    · exact Step.still_pure _
    · refine (Step.still_reading _ _ _ _).bind fun value => ?_
      split
      · exact Step.still_pure _
      · exact ih

theorem still_chosen : (e.chosen frame d).Still := by
  unfold Evaluator.chosen
  split
  · exact Step.still_fail _
  · refine (Step.still_reading _ _ _ _).bind fun value => ?_
    split
    · exact Step.still_pure _
    · exact still_guarded _ _

theorem still_rounds : (e.rounds frame d).Still := by
  unfold Evaluator.rounds
  refine (Step.still_settled _).bind fun names => ?_
  split
  · exact Step.still_fail _
  · split
    · exact Step.still_fail _
    · refine (Step.still_reading _ _ _ _).bind fun value => ?_
      exact (Step.still_settled _).bind fun rounds => Step.still_pure _

/-- The bodies between which a choice is made. -/
def Offers (d : Directive) (nodes : List Node) : Prop :=
  nodes = [] ∨ nodes = d.body ∨ ∃ branch ∈ d.branches, nodes = branch.body

theorem offered_of_guarded {span : Span} {branches : List Branch}
    (h : (e.guarded frame span branches).run p = (.ok nodes, q)) :
    nodes = [] ∨ ∃ branch ∈ branches, nodes = branch.body := by
  induction branches generalizing p with
  | nil =>
    cases h
    exact Or.inl rfl
  | cons branch rest ih =>
    obtain ⟨name, arguments, body, place⟩ := branch
    rw [Evaluator.guarded] at h
    split at h
    · cases h
      exact Or.inr ⟨_, List.mem_cons_self, rfl⟩
    · obtain ⟨value, between, -, h⟩ := run_bind_eq_ok.1 h
      split at h
      · cases h
        exact Or.inr ⟨_, List.mem_cons_self, rfl⟩
      · rcases ih h with hnil | ⟨branch, hbranch, hbody⟩
        · exact Or.inl hnil
        · exact Or.inr ⟨branch, List.mem_cons_of_mem _ hbranch, hbody⟩

theorem offered_of_chosen (h : (e.chosen frame d).run p = (.ok nodes, q)) : Offers d nodes := by
  unfold Evaluator.chosen at h
  split at h
  · cases h
  · obtain ⟨value, between, -, h⟩ := run_bind_eq_ok.1 h
    split at h
    · cases h
      exact Or.inr (Or.inl rfl)
    · exact (offered_of_guarded h).imp id Or.inr

theorem Offers.inner (h : Offers d nodes) {node : Node} (hnode : node ∈ nodes) :
    node ∈ (Node.directive d).inner := by
  rcases h with rfl | rfl | ⟨branch, hbranch, rfl⟩
  · cases hnode
  · exact List.mem_append_left _ hnode
  · exact List.mem_append_right _ (List.mem_flatMap.2 ⟨branch, hbranch, hnode⟩)

end Parts

/-! ## Statements that may leave something behind -/

/-- An `@if` with several statements in a branch, or a statement with such an `@if` in it. -/
inductive Sprawls : Node → Prop
  | choice {d : Directive} {nodes : List Node} (hname : d.name = "if") (hoffers : Offers d nodes)
      (hlength : 1 < nodes.length) : Sprawls (.directive d)
  | inside {node child : Node} (hchild : child ∈ node.inner) (h : Sprawls child) : Sprawls node

section Waiting

variable {e : Evaluator} {frame : Frame}

theorem still_resource (typeText : String) (name : Node) (source : List Node) (span : Span) :
    (runStatement e (.resource typeText name source span) frame).Still := by
  have hregister : ∀ resource, (register frame resource).Still := by
    intro resource p
    rw [register_run_eq]
    cases p.clash ⟨frame.site, resource.origin⟩ resource.key <;> rfl
  unfold runStatement
  refine (Step.still_settled _).bind fun type => ?_
  refine (Step.still_reading _ _ _ _).bind fun text => ?_
  refine Step.still_get.bind fun progress => ?_
  split
  · unfold instantiate
    refine (still_collecting (Step.still_inScope _ _)).bind fun found => ?_
    dsimp only
    split
    · exact Step.still_fail _
    · split
      · exact Step.still_fail _
      · exact (Step.still_inScope _ _).bind fun _ => Step.still_pure _
  · split
    · exact Step.still_fail _
    · unfold declareResource
      refine (Step.still_settled _).bind fun key => ?_
      refine (still_resourceBody _ _).bind fun body => ?_
      refine (Step.still_settled _).bind fun resource => ?_
      exact Step.still_get.bind fun progress => hregister _

theorem waitsStill_block (key : String) (source : List Node) (span : Span) :
    (runStatement e (.block key source span) frame).WaitsStill := by
  unfold runStatement
  split
  · exact (Step.still_fail _).waitsStill
  · exact (Step.still_inScope _ _).waitsStill_bind fun scope => Step.waitsStill_modify _

/-- A choice leaves the scope alone when it waits if the bodies do between which it is made. -/
theorem waitsStill_choice {d : Directive} (hname : d.name = "if")
    (h : ∀ nodes, Offers d nodes → (Step.body (nodes.map (e.step frame))).WaitsStill) :
    (runStatement e (.directive d) frame).WaitsStill := by
  intro p reasons q hrun
  unfold runStatement at hrun
  rw [runDirective_choice hname, run_bind] at hrun
  cases hchosen : (e.chosen frame d).run p with
  | mk outcome between =>
    have hstill := still_of_run still_chosen hchosen
    rw [hchosen] at hrun
    rcases outcome with interrupt | nodes
    · cases hrun
      exact hstill
    · dsimp only at hrun
      rw [runStatements_eq_step] at hrun
      exact (h nodes (offered_of_chosen hchosen) _ _ _ hrun).trans hstill

/-- A statement that waits has left the scope as it was, unless a choice between bodies of
several statements is made in it. -/
theorem waitsStill_statement {node : Node} (h : ¬ Sprawls node) (frame : Frame) :
    (runStatement e node frame).WaitsStill := by
  induction node using Node.induction generalizing frame with
  | step node ih =>
    cases node with
    | pair entry => exact waitsStill_pair entry
    | resource typeText name source span => exact (still_resource _ _ _ _).waitsStill
    | block key source span => exact waitsStill_block key source span
    | directive d =>
      by_cases hname : d.name = "if"
      · refine waitsStill_choice hname fun nodes hoffers => ?_
        have hlength : nodes.length ≤ 1 := Nat.not_lt.1 fun hlong => h (.choice hname hoffers hlong)
        match nodes, hlength with
        | [], _ => exact (Step.still_pure _).waitsStill
        | [node], _ =>
          have hchild := hoffers.inner (List.mem_singleton.2 rfl)
          intro p reasons q hrun
          rw [List.map_singleton, Step.body_singleton] at hrun
          exact ih node (Node.mem_children_of_inner hchild)
            (fun hsprawls => h (.inside hchild hsprawls)) frame _ _ _ hrun
      · unfold runStatement
        exact waitsStill_runDirective hname
    | _ => exact (Step.still_fail _).waitsStill

/-- A statement that declares nothing leaves nothing behind when it waits, if it leaves the scope
alone. -/
theorem like_of_waits {node : Node} (htypes : typesIn node = [])
    (hwaits : (runStatement e node frame).WaitsStill) {p q : Progress} {reasons : List Deferral}
    (hrun : (runStatement e node frame).run p = (.error (.deferred reasons), q)) :
    p.Like q := by
  have hquiet := runStatement_quiet e htypes frame
  have hinventory := hquiet.inventory p
  have hdeclared := hquiet.declared p p.declared
  rw [hrun] at hinventory hdeclared
  exact ⟨hinventory, congrArg (fun result => result.2.declared) hdeclared,
    hwaits p reasons q hrun⟩

end Waiting

/-! ## Trials -/

/-- An attempt at a statement: the frame that it is made in and the progress that it starts from. -/
structure Trial where
  frame : Frame
  before : Progress
  node : Node

/-- What comes of an attempt. -/
def Trial.run (e : Evaluator) (trial : Trial) : Except Interrupt Unit × Progress :=
  (runStatement e trial.node trial.frame).run trial.before

/-- The attempts at statements that are run one after another. -/
inductive Walks (e : Evaluator) (frame : Frame) : Progress → List Node → Trial → Prop
  | here {p : Progress} {node : Node} {rest : List Node} :
      Walks e frame p (node :: rest) ⟨frame, p, node⟩
  | later {p q : Progress} {node : Node} {rest : List Node} {trial : Trial}
      (hrun : (runStatement e node frame).run p = (.ok (), q)) (h : Walks e frame q rest trial) :
      Walks e frame p (node :: rest) trial

/-- The attempts at the statements of a loop, iteration by iteration. -/
inductive Iterates (e : Evaluator) (frame : Frame) (d : Directive) (names : List String) :
    Nat → Progress → List (List Value) → Trial → Prop
  | here {index : Nat} {p : Progress} {values : List Value} {rest : List (List Value)} {trial : Trial}
      (h : Walks e (frame.iteration d.span index)
        { p with scope := p.scope.iteration names values } d.body trial) :
      Iterates e frame d names index p (values :: rest) trial
  | later {index : Nat} {p q : Progress} {values : List Value} {rest : List (List Value)} {scope : Scope}
      {trial : Trial}
      (hrun : (Step.inScope (fun scope => scope.iteration names values)
        (Step.sequence (runStatements e d.body (frame.iteration d.span index)))).run p = (.ok scope, q))
      (h : Iterates e frame d names (index + 1) q rest trial) :
      Iterates e frame d names index p (values :: rest) trial

/-- The second attempt is made at a statement in a body of the first. -/
inductive Trial.Inside (e : Evaluator) : Trial → Trial → Prop
  | chosen {frame : Frame} {p between : Progress} {d : Directive} {nodes : List Node}
      {attempt : Progress × Node} (hname : d.name = "if")
      (hchosen : (e.chosen frame d).run p = (.ok nodes, between))
      (hattempt : attempt ∈ Step.attempts (e.step frame) between nodes) :
      Inside e ⟨frame, p, .directive d⟩ ⟨frame, attempt.1, attempt.2⟩
  | block {frame : Frame} {p : Progress} {key : String} {source : List Node} {span : Span}
      {attempt : Progress × Node}
      (hattempt : attempt ∈ Step.attempts (e.step frame) { p with scope := p.scope.child } source) :
      Inside e ⟨frame, p, .block key source span⟩ ⟨frame, attempt.1, attempt.2⟩
  | loop {frame : Frame} {p between : Progress} {d : Directive} {names : List String}
      {rounds : List (List Value)} {trial : Trial} (hname : d.name = "for")
      (hrounds : (e.rounds frame d).run p = (.ok (names, rounds), between))
      (htrial : Iterates e frame d names 0 between rounds trial) :
      Inside e ⟨frame, p, .directive d⟩ trial

/-- The attempts that count for what a statement comes to: its own, and those inside of attempts
that count and succeed. -/
inductive Trial.Final (e : Evaluator) (root : Trial) : Trial → Prop
  | root : Final e root root
  | inside {outer inner : Trial} {q : Progress} (h : Final e root outer)
      (hdone : outer.run e = (.ok (), q)) (hinside : outer.Inside e inner) : Final e root inner

/-- The second scope has the blocks of the first, and its values of some names. -/
structure Scope.Keeps (names : String → Prop) (scope other : Scope) : Prop where
  blocks : other.blocks = scope.blocks
  values : ∀ name, names name → other.get? name = scope.get? name

theorem Scope.Keeps.refl (names : String → Prop) (scope : Scope) : scope.Keeps names scope :=
  ⟨rfl, fun _ _ => rfl⟩

theorem Scope.Keeps.trans {names : String → Prop} {scope between other : Scope}
    (h : scope.Keeps names between) (h' : between.Keeps names other) :
    scope.Keeps names other :=
  ⟨h'.blocks.trans h.blocks, fun name hname => (h'.values name hname).trans (h.values name hname)⟩

/-- Where an attempt that counts waits at a choice between bodies of several statements, it has
left the blocks as they were, and the values of the given names. -/
def Trial.Tidy (e : Evaluator) (names : String → Prop) (root : Trial) : Prop :=
  ∀ trial, root.Final e trial → Sprawls trial.node → ∀ reasons q,
    trial.run e = (.error (.deferred reasons), q) → trial.before.scope.Keeps names q.scope

section Trials

variable {e : Evaluator} {names : String → Prop} {root inner trial : Trial} {p q : Progress}

theorem Trial.Final.trans (h : root.Final e inner) (h' : inner.Final e trial) : root.Final e trial := by
  induction h' with
  | root => exact h
  | inside _ hdone hinside ih => exact .inside ih hdone hinside

theorem Trial.Tidy.inside (h : root.Tidy e names) (hdone : root.run e = (.ok (), q))
    (hinside : root.Inside e inner) :
    inner.Tidy e names :=
  fun trial hfinal => h trial ((Trial.Final.root.inside hdone hinside).trans hfinal)

theorem Trial.Tidy.waits (h : root.Tidy e names) {reasons : List Deferral}
    (hrun : root.run e = (.error (.deferred reasons), q)) :
    root.before.scope.Keeps names q.scope := by
  by_cases hsprawls : Sprawls root.node
  · exact h root .root hsprawls reasons q hrun
  · rw [waitsStill_statement hsprawls root.frame _ _ _ hrun]
    exact .refl _ _

theorem mem_of_walks {frame : Frame} {nodes : List Node} (h : Walks e frame p nodes trial) :
    trial.node ∈ nodes := by
  induction h with
  | here => exact List.mem_cons_self
  | later _ _ ih => exact List.mem_cons_of_mem _ ih

theorem mem_of_iterates {frame : Frame} {d : Directive} {loopNames : List String} {index : Nat}
    {rounds : List (List Value)} (h : Iterates e frame d loopNames index p rounds trial) :
    trial.node ∈ d.body := by
  induction h with
  | here h => exact mem_of_walks h
  | later _ _ ih => exact ih

theorem Trial.Inside.mem_inner (h : root.Inside e inner) : inner.node ∈ root.node.inner := by
  cases h with
  | chosen hname hchosen hattempt =>
    exact (offered_of_chosen hchosen).inner (Step.mem_of_attempts hattempt)
  | block hattempt => exact Step.mem_of_attempts hattempt
  | loop hname hrounds htrial => exact List.mem_append_left _ (mem_of_iterates htrial)

/-- A statement is tidy that leaves the scope alone when it waits, and in which no choice between
bodies of several statements is made. -/
theorem Trial.tidy_of_inner (hwaits : (runStatement e root.node root.frame).WaitsStill)
    (hinner : ∀ child ∈ root.node.inner, ¬ Sprawls child) :
    root.Tidy e names := by
  intro trial hfinal
  have hcases : trial = root ∨ ¬ Sprawls trial.node := by
    induction hfinal with
    | root => exact Or.inl rfl
    | inside _ _ hinside ih =>
      refine Or.inr ?_
      rcases ih with rfl | hnone
      · exact hinner _ hinside.mem_inner
      · exact fun hsprawls => hnone (.inside hinside.mem_inner hsprawls)
  intro hsprawls reasons q hrun
  rcases hcases with rfl | hnone
  · rw [hwaits _ _ _ hrun]
    exact .refl _ _
  · exact (hnone hsprawls).elim

/-- Statements without such choices are tidy. -/
theorem Trial.tidy_of_not_sprawls (h : ¬ Sprawls root.node) : root.Tidy e names :=
  Trial.tidy_of_inner (waitsStill_statement h root.frame) fun _ hchild hsprawls =>
    h (.inside hchild hsprawls)

end Trials

end Provision

import Provision.Proofs.Evaluation.History
import Provision.Proofs.Evaluation.Order
import Provision.Proofs.Evaluation.Solving

/-!
# Fields that hide variables

In a file of variable pairs and resource blocks a field may have the name of a
variable.  When the fields that hide variables are set in time, two evaluations of
the same statements that succeed come to the same, whatever the order: each fact
that the one brings about is brought about by the same statement in the other, and
seen from the end of the other both attempts solve the same pairs.
-/

namespace Provision

open Provision.Language (Node Entry SourceFile)
open Retry (Verdict Below)

/-- Statements of which no two bind the same variable or declare the same key, and in whose blocks
the fields with the names of variables are set in time. -/
structure Timed (registry : Registry) (body : List Node) : Prop where
  plain : ∀ node ∈ body, PlainStatement registry node
  names : (body.filterMap boundName?).Nodup
  keys : (body.filterMap (declaredKey? registry)).Nodup
  inTime : ∀ typeText name span (entries : List Entry),
    Node.resource typeText name (entries.map Node.pair) span ∈ body →
      InTime (body.filterMap boundName?) (entries.map Entry.key) [] entries

/-- A statement gets done in a state and brings about a fact. -/
inductive Brings (setup : EvaluationSetup) (registry : Registry) (bound : List String)
    (p : Progress) : Node → Fact → Prop
  | pair {entry : Entry} {value : Value} (hsaid : said p.plainView entry.value = .yields value) :
      Brings setup registry bound p (.pair entry) (.bound entry.key value)
  | block {typeText : String} {name : Node} {entries : List Entry} {span : Span}
      {type : ResourceType} {key : Key} {undeclared : List TypeName} {q : Progress}
      {evaluated : EvaluatedBody} {resource : Resource}
      (hby : declaredBy? registry (.resource typeText name (entries.map Node.pair) span) =
        some (type, key))
      (hends : Ends setup undeclared 0 bound entries p q evaluated)
      (hmade : finishResource ⟨setup.mode, setup.current, undeclared⟩ key type span evaluated =
        .ok resource) :
      Brings setup registry bound p (.resource typeText name (entries.map Node.pair) span)
        (.declared key resource.content)

/-! ## One statement -/

section Statement

variable {setup : EvaluationSetup} {registry : Registry} {path : Path}
variable {body body' items items' front back : List Node} {p p' last : Progress}
variable {node node' : Node} {fact fact' : Fact}

/-- What is around the body of a block. -/
theorem AtTop.surrounds (h : AtTop setup registry path body items p)
    (hone : AsksForOne setup registry path body) (htimed : Timed registry body)
    {typeText : String} {name : Node} {span : Span} {entries : List Entry}
    (hblock : Node.resource typeText name (entries.map Node.pair) span ∈ body) :
    Surrounds setup 0 (body.filterMap boundName?) entries p where
  virtuals := h.virtuals
  known := h.known
  named := fun name value hfind => h.named name value (h.find name ▸ hfind)
  once := (htimed.plain _ hblock).once
  single := h.single_inside hone hblock

/-- Seen from a state above both, the same statement brings about the same fact in two states. -/
theorem Brings.unique (hbrings : Brings setup registry (body.filterMap boundName?) p node fact)
    (hbrings' : Brings setup registry (body'.filterMap boundName?) p' node' fact')
    (h : AtTop setup registry path body items p) (h' : AtTop setup registry path body' items' p')
    (hone : AsksForOne setup registry path body) (hone' : AsksForOne setup registry path body')
    (htimed : Timed registry body) (htimed' : Timed registry body')
    (hnode : node ∈ body) (hnode' : node' ∈ body') (hlike : node.bare = node'.bare)
    (hbelow : p.plainView.Below last.plainView) (hbelow' : p'.plainView.Below last.plainView) :
    fact = fact' := by
  cases hbrings with
  | @pair entry value hsaid =>
    cases hbrings' with
    | @pair entry' value' hsaid' =>
      have hentry : entry.bare = entry'.bare := by
        rw [Node.bare, Node.bare] at hlike
        injection hlike
      have hagrees := evaluate_agrees hbelow h.known (value_of_bare hentry)
        (h.single hone hnode [] Span.generated)
      have hagrees' := evaluate_agrees hbelow' h'.known rfl
        (h'.single hone' hnode' [] Span.generated)
      have hvalue := (said_of_yields hagrees hsaid).1
      rw [(said_of_yields hagrees' hsaid').1] at hvalue
      cases hvalue
      rw [key_of_bare hentry]
    | block =>
      rw [Node.bare, Node.bare] at hlike
      cases hlike
  | @block typeText name entries span type key undeclared q evaluated resource hby hends hmade =>
    cases hbrings' with
    | pair =>
      rw [Node.bare, Node.bare] at hlike
      cases hlike
    | @block typeText' name' entries' span' type' key' undeclared' q' evaluated' resource' hby'
        hends' hmade' =>
      have hbare : entries.map Entry.bare = entries'.map Entry.bare := by
        rw [Node.bare, Node.bare] at hlike
        injection hlike with _ _ hsource
        rw [Language.bareNodes_eq_map, Language.bareNodes_eq_map] at hsource
        exact bare_of_pairs hsource
      obtain ⟨rfl, rfl⟩ : type = type' ∧ key = key' := by
        rw [← declaredBy?_bare, hlike, declaredBy?_bare, hby'] at hby
        cases hby
        exact ⟨rfl, rfl⟩
      have hs := h.surrounds hone htimed hnode
      have hs' := h'.surrounds hone' htimed' hnode'
      have halike := hends.alike hs hs' hends' hbare hbelow hbelow'
      obtain ⟨other, hother, -, hcontent⟩ := finish_alike undeclared' span'
        (hends.body_eq ▸ (hends.trail.within hs).distinct)
        (hends'.body_eq ▸ (hends'.trail.within hs').distinct) halike hmade
      rw [hmade'] at hother
      cases hother
      rw [hcontent]

/-- What comes of trying a statement. -/
inductive TurnsOut (setup : EvaluationSetup) (registry : Registry) (path : Path) (body : List Node)
    (p : Progress) (front : List Node) (node : Node) (back : List Node) :
    Except Interrupt Unit × Progress → Prop
  | done {q : Progress} {fact : Fact}
      (hbrings : Brings setup registry (body.filterMap boundName?) p node fact)
      (htop : AtTop setup registry path body (front ++ back) q)
      (hfacts : ∀ other, Holds q other ↔ Holds p other ∨ other = fact) :
      TurnsOut setup registry path body p front node back (.ok (), q)
  | waits {reasons : List Deferral} {reads : List Key} :
      TurnsOut setup registry path body p front node back
        (.error (.deferred reasons), { p with reads := reads })
  | fails {e : EvalError} {q : Progress} :
      TurnsOut setup registry path body p front node back (.error (.failed e), q)

variable (hcurrent : NoHandles setup) (hone : AsksForOne setup registry path body)
  (htimed : Timed registry body)

include hone in
theorem AtTop.tries_pair {entry : Entry}
    (h : AtTop setup registry path body (front ++ .pair entry :: back) p)
    (undeclared : List TypeName) :
    TurnsOut setup registry path body p front (.pair entry) back
      ((runStatement (setup.evaluator undeclared) (.pair entry) { file := 0 }).run p) := by
  have hmem : Node.pair entry ∈ body := h.mem _ (by simp)
  have hsingle := h.single hone hmem
  have hframe : (Frame.mk 0 none false [] []).qualifier = none := rfl
  cases hsaid : said p.plainView entry.value with
  | yields value =>
    obtain ⟨reads, hrun, hknown, -⟩ := pair_of_yields (setup.evaluator undeclared) h.virtuals
      h.known hsingle hframe hsaid
    have hunbound : p.scope.get? entry.key = none :=
      h.unbound _ (List.mem_filterMap.2 ⟨.pair entry, by simp, rfl⟩)
    rw [hrun]
    exact .done (.pair hsaid) (h.done_pair hrun hknown) (holds_bound hunbound)
  | waits =>
    obtain ⟨reasons, reads, hrun, -⟩ := pair_of_waits (setup.evaluator undeclared) h.virtuals
      h.known hsingle hframe hsaid
    rw [hrun]
    exact .waits
  | fails =>
    obtain ⟨e, reads, hrun⟩ := pair_of_fails (setup.evaluator undeclared) h.virtuals h.known
      hsingle hframe hsaid
    rw [hrun]
    exact .fails

include htimed in
/-- A block without a good key fails. -/
theorem AtTop.tries_nothing {typeText : String} {name : Node} {span : Span} {entries : List Entry}
    (h : AtTop setup registry path body
      (front ++ .resource typeText name (entries.map Node.pair) span :: back) p)
    (hby : declaredBy? registry (.resource typeText name (entries.map Node.pair) span) = none)
    (undeclared : List TypeName) :
    ∃ e q, (runStatement (setup.evaluator undeclared)
      (.resource typeText name (entries.map Node.pair) span) { file := 0 }).run p =
        (.error (.failed e), q) := by
  obtain rfl := h.registered
  have hmem : Node.resource typeText name (entries.map Node.pair) span ∈ body :=
    h.mem _ (List.mem_append_right _ List.mem_cons_self)
  obtain ⟨typeName, type, htypeName, htype, hname⟩ := (htimed.plain _ hmem).names
  exact block_of_nothing h.virtuals htypeName htype hname hby undeclared

include hcurrent in
/-- A block whose body has got done adds its resource. -/
theorem AtTop.adds {typeText : String} {name : Node} {span : Span} {entries : List Entry}
    {type : ResourceType} {key : Key} {undeclared : List TypeName} {evaluated : EvaluatedBody}
    {resource : Resource} {q : Progress}
    (h : AtTop setup registry path body
      (front ++ .resource typeText name (entries.map Node.pair) span :: back) p)
    (hs : Surrounds setup 0 (body.filterMap boundName?) entries p)
    (hby : declaredBy? registry (.resource typeText name (entries.map Node.pair) span) =
      some (type, key))
    (hbody : (pairBody setup undeclared 0 entries).run p = (.ok evaluated, p))
    (hends : Ends setup undeclared 0 (body.filterMap boundName?) entries p q evaluated)
    (hmade : finishResource ⟨setup.mode, setup.current, undeclared⟩ key type span evaluated =
      .ok resource) :
    TurnsOut setup registry path body p front
      (.resource typeText name (entries.map Node.pair) span) back
      ((runStatement (setup.evaluator undeclared)
        (.resource typeText name (entries.map Node.pair) span) { file := 0 }).run p) := by
  have hwithin := hends.trail.within hs
  obtain ⟨recorded, -, -, -, hfinished⟩ := finishResource_ok_iff.1 hmade
  obtain rfl : resource.key = key := by
    rw [hfinished]
    rfl
  have hdeclaredKey : declaredKey? registry
      (.resource typeText name (entries.map Node.pair) span) = some resource.key := by
    unfold declaredKey?
    rw [hby]
    rfl
  obtain ⟨hdeclared, hresource⟩ := h.undeclared resource.key
    (List.mem_filterMap.2 ⟨_, List.mem_append_right _ List.mem_cons_self, hdeclaredKey⟩)
  have hrun : (runStatement (setup.evaluator undeclared)
      (.resource typeText name (entries.map Node.pair) span) { file := 0 }).run p =
      (.ok (), p.adding 0 (declaredResource setup (entries.map Node.pair) p resource)) := by
    rw [block_run_of_declared h.virtuals (h.registered.symm ▸ hby), hbody]
    dsimp only
    rw [hmade]
    exact register_run hdeclared hresource rfl
  rw [hrun]
  refine .done (.block hby hends hmade) (h.done_block hrun hdeclaredKey fun field value hfield => ?_)
    (holds_declared h.distinct h.room hresource)
  have hfield : resource.field? field = some value := hfield
  rw [hfinished] at hfield
  rcases get?_finished (hends.body_eq ▸ hwithin.distinct) hfield with
    hget | ⟨current, found, hsetup, hfound, hin⟩
  · rw [hends.body_eq] at hget
    exact hwithin.known field value hget
  · exact Value.known_of_handles_eq_nil (hcurrent current hsetup _ _ hfound _ hin)

include hcurrent hone htimed in
theorem AtTop.tries_block {typeText : String} {name : Node} {span : Span} {entries : List Entry}
    (h : AtTop setup registry path body
      (front ++ .resource typeText name (entries.map Node.pair) span :: back) p)
    (undeclared : List TypeName) :
    TurnsOut setup registry path body p front
      (.resource typeText name (entries.map Node.pair) span) back
      ((runStatement (setup.evaluator undeclared)
        (.resource typeText name (entries.map Node.pair) span) { file := 0 }).run p) := by
  have hmem : Node.resource typeText name (entries.map Node.pair) span ∈ body :=
    h.mem _ (List.mem_append_right _ List.mem_cons_self)
  have hs := h.surrounds hone htimed hmem
  cases hby : declaredBy? registry (.resource typeText name (entries.map Node.pair) span) with
  | none =>
    obtain ⟨e, q, hrun⟩ := h.tries_nothing htimed hby undeclared
    rw [hrun]
    exact .fails
  | some declared =>
    obtain ⟨type, key⟩ := declared
    have hblock := @block_run_of_declared setup 0 entries p _ _ _ _ _ h.virtuals
      (h.registered.symm ▸ hby) undeclared
    rcases hbody : (pairBody setup undeclared 0 entries).run p with
      ⟨(reasons | e) | evaluated, q⟩
    · obtain rfl := pairBody_leaves hbody
      rw [hblock, hbody]
      exact .waits
    · rw [hblock, hbody]
      exact .fails
    · obtain rfl := pairBody_leaves hbody
      obtain ⟨last, hends⟩ := ends_of_run hs (htimed.inTime typeText name span entries hmem) hbody
      cases hmade : finishResource ⟨setup.mode, setup.current, undeclared⟩ key type span
          evaluated with
      | ok resource => exact h.adds hcurrent hs hby hbody hends hmade
      | error e =>
        rw [hblock, hbody]
        dsimp only
        rw [hmade]
        exact .fails

include hcurrent hone htimed in
/-- A statement gets done and brings about a fact, or it waits and leaves everything as it was, or
it fails. -/
theorem AtTop.tries (h : AtTop setup registry path body (front ++ node :: back) p)
    (undeclared : List TypeName) :
    TurnsOut setup registry path body p front node back
      ((runStatement (setup.evaluator undeclared) node { file := 0 }).run p) := by
  cases htimed.plain node (h.mem node (by simp)) with
  | pair entry => exact h.tries_pair hone undeclared
  | block => exact h.tries_block hcurrent hone htimed undeclared

end Statement

/-! ## One statement after the other -/

/-- How the statements of a file get done, in whatever order they are tried. -/
inductive Unfolds (setup : EvaluationSetup) (registry : Registry) (path : Path)
    (body : List Node) : List Node → Progress → Prop
  | start {p : Progress} (hnothing : ∀ fact, ¬ Holds p fact) :
      Unfolds setup registry path body body p
  | done {front back : List Node} {node : Node} {p q : Progress} {fact : Fact}
      (hbefore : Unfolds setup registry path body (front ++ node :: back) p)
      (hpre : AtTop setup registry path body (front ++ node :: back) p)
      (hbrings : Brings setup registry (body.filterMap boundName?) p node fact)
      (hfacts : ∀ other, Holds q other ↔ Holds p other ∨ other = fact) :
      Unfolds setup registry path body (front ++ back) q
  | waits {items : List Node} {p q : Progress}
      (hbefore : Unfolds setup registry path body items p)
      (hfacts : ∀ other, Holds q other ↔ Holds p other) :
      Unfolds setup registry path body items q

/-- A statement has brought about a fact in an earlier state. -/
def Brought (setup : EvaluationSetup) (registry : Registry) (path : Path) (body : List Node)
    (p : Progress) (node : Node) (fact : Fact) : Prop :=
  ∃ items before, AtTop setup registry path body items before ∧ Below Holds before p ∧
    Brings setup registry (body.filterMap boundName?) before node fact

section Unfolding

variable {setup : EvaluationSetup} {registry : Registry} {path : Path}
variable {body body' items items' : List Node} {p q last : Progress} {node : Node} {fact : Fact}

theorem Brought.mono (h : Brought setup registry path body p node fact)
    (hfacts : Below Holds p q) :
    Brought setup registry path body q node fact := by
  obtain ⟨items, before, htop, hbelow, hbrings⟩ := h
  exact ⟨items, before, htop, fun other hother => hfacts other (hbelow other hother), hbrings⟩

/-- A statement is left or has brought about a fact that holds. -/
theorem Unfolds.brought (h : Unfolds setup registry path body items p) (hnode : node ∈ body) :
    node ∈ items ∨ ∃ fact, Holds p fact ∧ Brought setup registry path body p node fact := by
  induction h with
  | start => exact Or.inl hnode
  | @done front back done p q fact _ hpre hbrings hfacts ih =>
    have hbelow : Below Holds p q := fun other hother => (hfacts other).2 (Or.inl hother)
    rcases ih with hleft | ⟨other, hholds, hbrought⟩
    · rcases List.mem_append.1 hleft with hleft | hleft
      · exact Or.inl (List.mem_append_left _ hleft)
      · rcases List.mem_cons.1 hleft with rfl | hleft
        · exact Or.inr ⟨fact, (hfacts fact).2 (Or.inr rfl), _, p, hpre, hbelow, hbrings⟩
        · exact Or.inl (List.mem_append_right _ hleft)
    · exact Or.inr ⟨other, hbelow other hholds, hbrought.mono hbelow⟩
  | @waits items p q _ hfacts ih =>
    have hbelow : Below Holds p q := fun other => (hfacts other).2
    rcases ih with hleft | ⟨other, hholds, hbrought⟩
    · exact Or.inl hleft
    · exact Or.inr ⟨other, hbelow other hholds, hbrought.mono hbelow⟩

/-- No order brings about a fact that is not there once the statements have all got done in
another. -/
theorem Unfolds.bounded (h : Unfolds setup registry path body items p)
    (h' : Unfolds setup registry path body' [] last)
    (hlast : AtTop setup registry path body' [] last)
    (hone : AsksForOne setup registry path body) (hone' : AsksForOne setup registry path body')
    (htimed : Timed registry body) (htimed' : Timed registry body')
    (hbare : ∀ node ∈ body.map Node.bare, node ∈ body'.map Node.bare) :
    Below Holds p last := by
  induction h with
  | start hnothing => exact fun fact hfact => absurd hfact (hnothing fact)
  | @done front back node p q fact _ hpre hbrings hfacts ih =>
    intro other hother
    rcases (hfacts other).1 hother with hother | rfl
    · exact ih other hother
    · have hnode : node ∈ body := hpre.mem node (List.mem_append_right _ List.mem_cons_self)
      obtain ⟨node', hnode', hlike⟩ := List.mem_map.1 (hbare _ (List.mem_map_of_mem hnode))
      obtain ⟨fact', hholds, items', before, htop, hbelow, hbrings'⟩ :=
        (h'.brought hnode').resolve_left List.not_mem_nil
      have hsame := hbrings.unique hbrings' hpre htop hone hone' htimed htimed' hnode hnode'
        hlike.symm (hpre.view_below hlast ih) (htop.view_below hlast hbelow)
      exact hsame ▸ hholds
  | @waits items p q _ hfacts ih => exact fun other hother => ih other ((hfacts other).1 hother)

end Unfolding

/-! ## From the first pass to the result -/

section Evaluation

variable {setup : EvaluationSetup} {registry : Registry} {path : Path} {body body' : List Node}
variable {tasks front back : List Task} {round after : Round} {task : Task}

/-- Some statements of a round are left, and the others have got done. -/
def UnfoldsTo (setup : EvaluationSetup) (registry : Registry) (path : Path) (body : List Node)
    (round : Round) (tasks : List Task) : Prop :=
  RoundAt setup registry path body tasks round ∧
    Unfolds setup registry path body (tasks.map Task.node) round.state

variable (hcurrent : NoHandles setup) (hone : AsksForOne setup registry path body)
  (htimed : Timed registry body)

include hcurrent hone htimed in
theorem RoundAt.tries (h : RoundAt setup registry path body (front ++ task :: back) round) :
    TurnsOut setup registry path body round.state (front.map Task.node) task.node
      (back.map Task.node)
      ((runStatement (setup.evaluator (round.undeclared task)) task.node { file := 0 }).run
        round.state) := by
  have htop : AtTop setup registry path body
      (front.map Task.node ++ task.node :: back.map Task.node) round.state := by
    rw [← List.map_cons, ← List.map_append]
    exact h.top
  exact htop.tries hcurrent hone htimed (round.undeclared task)

include hcurrent hone htimed in
theorem UnfoldsTo.of_done
    (h : UnfoldsTo setup registry path body round (front ++ task :: back))
    (hrun : round.attempt setup task = .ok (after, none)) :
    UnfoldsTo setup registry path body after (front ++ back) := by
  obtain ⟨hround, hunfolds⟩ := h
  have htries := hround.tries hcurrent hone htimed
  obtain ⟨htask, -⟩ := mem_fileTasks.1 (hround.mem task (by simp))
  obtain ⟨file, source, node⟩ := task
  cases htask
  rw [List.map_append, List.map_cons] at hunfolds
  rw [attempt_eq] at hrun
  split at hrun
  · next q hq =>
    cases hrun
    have hq : (runStatement (setup.evaluator (round.undeclared ⟨0, 0, node⟩)) node
      { file := 0 }).run round.state = (.ok (), q) := hq
    rw [hq] at htries
    cases htries with
    | @done q fact hbrings htop hfacts =>
      have hsubset : ∀ other ∈ front ++ back, other ∈ front ++ ⟨0, 0, node⟩ :: back :=
        fun other hother => (List.mem_append.1 hother).elim (List.mem_append_left _)
          fun hback => List.mem_append_right _ (List.mem_cons_of_mem _ hback)
      obtain ⟨hafter, hstate⟩ := hround.keeping hsubset (by rw [List.map_append]; exact htop)
        (Table.erase round.unfinished (statementSpan node)) node
      refine ⟨hafter, ?_⟩
      rw [hstate, List.map_append]
      refine hunfolds.done ?_ hbrings hfacts
      rw [← List.map_cons, ← List.map_append]
      exact hround.top
  · cases hrun
  · cases hrun

include hcurrent hone htimed in
theorem UnfoldsTo.of_deferred
    (h : UnfoldsTo setup registry path body round (front ++ task :: back)) {d : Deferred}
    (hrun : round.attempt setup task = .ok (after, some d)) :
    UnfoldsTo setup registry path body after (front ++ task :: back) := by
  obtain ⟨hround, hunfolds⟩ := h
  have htries := hround.tries hcurrent hone htimed
  obtain ⟨htask, -⟩ := mem_fileTasks.1 (hround.mem task (by simp))
  obtain ⟨file, source, node⟩ := task
  cases htask
  rw [attempt_eq] at hrun
  split at hrun
  · cases hrun
  · next reasons q hq =>
    cases hrun
    have hq : (runStatement (setup.evaluator (round.undeclared ⟨0, 0, node⟩)) node
      { file := 0 }).run round.state = (.error (.deferred reasons), q) := hq
    rw [hq] at htries
    cases htries with
    | @waits reasons reads =>
      obtain ⟨hafter, hstate⟩ := hround.keeping (fun _ hother => hother) (hround.top.reads reads)
        round.unfinished node
      exact ⟨hafter, hunfolds.waits fun other =>
        iff_of_eq (congrArg (fun state => Holds state other) hstate)⟩
  · cases hrun

/-- When a file evaluates, its statements have all got done. -/
theorem unfolds_of_evaluates {text : String} {inventory : Inventory} (hcurrent : NoHandles setup)
    (hone : AsksForOne setup registry ⟨text⟩ body) (htimed : Timed registry body)
    (h : evaluateFiles setup (.empty registry) [⟨text, body⟩] = .ok inventory) :
    ∃ last, UnfoldsTo setup registry ⟨text⟩ body last [] ∧ inventory = last.result [0] := by
  obtain ⟨start, indices, last, hstart, hrun, rfl⟩ := evaluateFiles_eq_ok h
  rw [start_eq htimed.plain] at hstart
  cases hstart
  have hfirst : UnfoldsTo setup registry ⟨text⟩ body (firstRound registry ⟨text⟩ body)
      (fileTasks body) := by
    refine ⟨roundAt_first htimed.names htimed.keys, ?_⟩
    rw [nodes_fileTasks]
    exact .start fun fact hfact => by cases fact <;> cases hfact
  refine ⟨last, ?_, rfl⟩
  exact Round.run_keeps (fun _ => UnfoldsTo setup registry ⟨text⟩ body)
    (fun _ _ _ _ _ _ hbefore hattempt => hbefore.of_done hcurrent hone htimed hattempt)
    (fun _ _ _ _ _ _ _ hbefore hattempt => hbefore.of_deferred hcurrent hone htimed hattempt)
    (fun _ _ _ _ _ hbefore => ⟨⟨hbefore.1.scopes, hbefore.1.mem, hbefore.1.top⟩, hbefore.2⟩)
    [] hfirst hrun

end Evaluation

/-! ## In another order -/

section Orders

variable {setup : EvaluationSetup} {registry : Registry} {body body' : List Node}

theorem uses_of_bare {Free : String → Prop} (node node' : Node) (hbare : node.bare = node'.bare)
    (h : node.Uses Free) :
    node'.Uses Free := by
  cases node' with
  | var path' span' =>
    cases node with
    | var path span =>
      rw [Node.bare, Node.bare] at hbare
      cases hbare
      cases path' with
      | nil => exact trivial
      | cons head rest => exact h
    | _ =>
      rw [Node.bare, Node.bare] at hbare
      cases hbare
  | _ => exact trivial

/-- Where the pairs stand does not matter for whether they are in time, nor in which order the
variables are bound. -/
theorem InTime.of_bare {bound bound' fields set : List String} {entries entries' : List Entry}
    (h : InTime bound fields set entries) (hbare : entries.map Entry.bare = entries'.map Entry.bare)
    (hbound : ∀ name ∈ bound', name ∈ bound) :
    InTime bound' fields set entries' := by
  induction h generalizing entries' with
  | nil =>
    obtain rfl : entries' = [] := List.map_eq_nil_iff.1 hbare.symm
    exact .nil
  | @prompt set entry rest hreads _ ih =>
    obtain ⟨entry', rest', rfl, hentry, hrest⟩ := List.map_eq_cons_iff.1 hbare.symm
    have hkey := key_of_bare hentry
    refine .prompt (hkey ▸ hreads.of_bare uses_of_bare (value_of_bare hentry).symm) ?_
    exact hkey ▸ ih hrest.symm
  | @later set entry rest hreads _ ih =>
    obtain ⟨entry', rest', rfl, hentry, hrest⟩ := List.map_eq_cons_iff.1 hbare.symm
    have hkey := key_of_bare hentry
    refine .later ?_ (ih hrest.symm)
    have hmoved := hreads.of_bare uses_of_bare (value_of_bare hentry).symm
    exact hkey ▸ uses_mono hmoved fun name hname hfield hmem => hname hfield (hbound name hmem)

theorem Timed.perm (h : Timed registry body)
    (hperm : (body.map Node.bare).Perm (body'.map Node.bare)) :
    Timed registry body' := by
  have hnames := boundNames_perm hperm
  refine ⟨plain_of_perm h.plain hperm, hnames.nodup_iff.1 h.names,
    (declaredKeys_perm registry hperm).nodup_iff.1 h.keys, ?_⟩
  intro typeText name span entries hblock
  obtain ⟨typeText', name', span', entries', hnode, hbare⟩ :=
    exists_block_of_perm h.plain hperm hblock
  exact keys_of_bare hbare ▸ (h.inTime typeText' name' span' entries' hnode).of_bare hbare
    fun name => hnames.mem_iff.2

/-- Where a pair of a block reads another field of the block, it has the value of that field. -/
def ReadsOwnFields (registry : Registry) (body : List Node) (inventory : Inventory) : Prop :=
  ∀ typeText name span (entries : List Entry),
    Node.resource typeText name (entries.map Node.pair) span ∈ body →
      ∀ entry ∈ entries, ∀ field place, entry.value = .var [field] place →
        field ∈ entries.map Entry.key → field ≠ entry.key →
          ∃ type key resource value,
            declaredBy? registry (.resource typeText name (entries.map Node.pair) span) =
              some (type, key) ∧
            inventory.resource? key = some resource ∧
            resource.field? entry.key = some value ∧ resource.field? field = some value

theorem said_variable {view : View} {name : String} {place : Span} {value : Value}
    (hfind : view.scope.find name = some value) :
    said view (.var [name] place) = .yields value := by
  have hfollow : evaluate view (.var [name] place) = pure value := by
    rw [evaluate, variableValue, hfind]
    dsimp only
    rw [follow]
  unfold said
  rw [hfollow]
  rfl

/-- What reads another field has the value of that field. -/
theorem Solves.reads {outside : Progress} {entries : List Entry} {fields : Bindings}
    (h : Solves outside entries fields) {entry : Entry} (hentry : entry ∈ entries) {field : String}
    {place : Span} (hvalue : entry.value = .var [field] place)
    (hfield : field ∈ entries.map Entry.key) (hne : field ≠ entry.key) :
    ∃ value, Table.get? fields entry.key = some value ∧ Table.get? fields field = some value := by
  obtain ⟨value, hsaid, hget⟩ := h.value entry hentry
  obtain ⟨other, hother, rfl⟩ := List.mem_map.1 hfield
  obtain ⟨found, -, hfound⟩ := h.value other hother
  have hfind : (outside.inner fields entry.key).scope.find other.key = some found := by
    show Scope.findIn (Table.erase fields entry.key :: _) other.key = some found
    rw [Scope.findIn, Table.get?_erase h.distinct, if_neg (Ne.symm hne), hfound]
  rw [hvalue, said_variable hfind] at hsaid
  cases hsaid
  exact ⟨value, hget, hfound⟩

theorem UnfoldsTo.readsOwnFields {path : Path} {last : Round}
    (h : UnfoldsTo setup registry path body last [])
    (hone : AsksForOne setup registry path body) (htimed : Timed registry body)
    (hmode : setup.mode = .configuration) :
    ReadsOwnFields registry body (last.result [0]) := by
  intro typeText name span entries hblock entry hentry field place hvalue hfield hne
  obtain ⟨hround, hunfolds⟩ := h
  obtain ⟨fact, hholds, items, before, htop, hbelow, hbrings⟩ :=
    (hunfolds.brought hblock).resolve_left List.not_mem_nil
  generalize hnode : Node.resource typeText name (entries.map Node.pair) span = node at hbrings
  cases hbrings with
  | pair => cases hnode
  | @block typeText' name' entries' span' type key undeclared q evaluated resource hby hends
      hmade =>
    obtain rfl : entries = entries' := by
      injection hnode with _ _ hsource
      rw [← filterMap_pairs entries, hsource, filterMap_pairs]
    have hs := htop.surrounds hone htimed hblock
    have hbase := htop.view_below hround.top hbelow
    have hsolves : Solves last.state entries evaluated.fields :=
      hends.body_eq ▸ hends.trail.solves hs hbase hends.all
    obtain ⟨value, hget, hfound⟩ := hsolves.reads hentry hvalue hfield hne
    obtain ⟨found, hresource, hcontent⟩ := Option.map_eq_some_iff.1
      (show (last.state.inventory.resource? key).map Resource.content = _ from hholds)
    have hfields : found.field? = resource.field? := congrArg Content.fields hcontent
    refine ⟨type, key, found, value, hnode ▸ hby, hround.resource? key ▸ hresource, ?_, ?_⟩
    · rw [hfields]
      exact field?_of_finishResource hmode hsolves.distinct hmade hget
    · rw [hfields]
      exact field?_of_finishResource hmode hsolves.distinct hmade hfound

/-- A field that hides a variable hides it in every order, when the fields that hide variables are
set in time.  Two orders of the statements that both evaluate give the same bindings and resources,
and in each a pair that reads such a field has the value of the field, and not of the variable. -/
theorem evaluateFiles_hiding {text : String} {x y : Inventory} (hcurrent : NoHandles setup)
    (hone : AsksForOne setup registry ⟨text⟩ body) (htimed : Timed registry body)
    (hperm : (body.map Node.bare).Perm (body'.map Node.bare))
    (hx : evaluateFiles setup (.empty registry) [⟨text, body⟩] = .ok x)
    (hy : evaluateFiles setup (.empty registry) [⟨text, body'⟩] = .ok y) :
    x.Alike y ∧ (setup.mode = .configuration →
      ReadsOwnFields registry body x ∧ ReadsOwnFields registry body' y) := by
  have hone' := hone.perm hperm
  have htimed' := htimed.perm hperm
  obtain ⟨last, hlast, rfl⟩ := unfolds_of_evaluates hcurrent hone htimed hx
  obtain ⟨last', hlast', rfl⟩ := unfolds_of_evaluates hcurrent hone' htimed' hy
  refine ⟨alike_of_facts hlast.1 hlast'.1 fun fact => ⟨?_, ?_⟩, fun hmode =>
    ⟨hlast.readsOwnFields hone htimed hmode, hlast'.readsOwnFields hone' htimed' hmode⟩⟩
  · exact hlast.2.bounded hlast'.2 hlast'.1.top hone hone' htimed htimed'
      (fun _ => hperm.mem_iff.1) fact
  · exact hlast'.2.bounded hlast.2 hlast.1.top hone' hone htimed' htimed
      (fun _ => hperm.mem_iff.2) fact

end Orders

/-! ### A box that hides a variable -/

/-- A variable, bound at a line. -/
def outerPair (line : Nat) : Node :=
  pairAt line "v" (.text "outer")

/-- A box that sets its own `v` before its path reads it. -/
def hidingBox (line : Nat) : Node :=
  boxBlock line (.text "b")
    ([⟨"v", .text "own", lineStart (line + 1)⟩,
      ⟨"path", variableAt (line + 2) "v", lineStart (line + 2)⟩].map Node.pair)

/-- A box whose path reads `v` before the box sets its own. -/
def hastyBox (line : Nat) : Node :=
  boxBlock line (.text "b")
    ([⟨"path", variableAt (line + 1) "v", lineStart (line + 1)⟩,
      ⟨"v", .text "own", lineStart (line + 2)⟩].map Node.pair)

/-- The path of the box in what comes of a file. -/
def pathOfBox (body : List Node) : Option String :=
  (evaluateFiles boxSetup (.empty boxRegistry) [⟨"main", body⟩]).toOption.bind fun inventory =>
    (inventory.resource? (boxKey "b")).bind fun resource =>
      (resource.field? "path").bind Value.asText?

theorem timed_hidingBox : Timed boxRegistry [hidingBox 1, outerPair 5] where
  plain := by
    intro node hnode
    simp only [List.mem_cons, List.not_mem_nil, or_false] at hnode
    rcases hnode with rfl | rfl
    · exact .block (rfl : TypeName.ofText "m::box" = .ok ⟨"m::box", rfl⟩) rfl rfl (by decide)
    · exact .pair _
  names := by decide
  keys := by decide +kernel
  inTime := by
    intro typeText name span entries hblock
    simp only [List.mem_cons, List.not_mem_nil, or_false] at hblock
    rcases hblock with hblock | hblock
    · injection hblock with _ _ hsource
      rw [← filterMap_pairs entries, hsource, filterMap_pairs]
      refine .prompt (.leaf trivial rfl) (.later (.leaf ?_ rfl) .nil)
      exact fun _ _ => Or.inr List.mem_cons_self
    · cases hblock

theorem pairAt_literal {line : Nat} {field : String} {value : Node}
    (h : value.Everywhere NamesLiterally) :
    (pairAt line field value).Everywhere NamesLiterally :=
  .intro trivial fun _ hchild => List.mem_singleton.1 hchild ▸ h

theorem asksForOne_hidingBox :
    AsksForOne boxSetup boxRegistry ⟨"main"⟩ [hidingBox 1, outerPair 5] := by
  refine asksForOne_of_literal fun node hnode => ?_
  simp only [List.mem_cons, List.not_mem_nil, or_false] at hnode
  rcases hnode with rfl | rfl
  · refine .intro trivial fun child hchild => ?_
    rcases List.mem_cons.1 hchild with rfl | hchild
    · exact .leaf trivial rfl
    · rcases List.mem_cons.1 hchild with rfl | hchild
      · exact pairAt_literal (.leaf trivial rfl)
      · exact List.mem_singleton.1 hchild ▸ pairAt_literal (.leaf trivial rfl)
  · exact pairAt_literal (.leaf trivial rfl)

/-- Before the variable or behind it, the box has its own `v` as its path. -/
theorem evaluateFiles_hiding_box :
    ∃ x y, evaluateFiles boxSetup (.empty boxRegistry)
        [⟨"main", [hidingBox 1, outerPair 5]⟩] = .ok x ∧
      evaluateFiles boxSetup (.empty boxRegistry) [⟨"main", [outerPair 1, hidingBox 2]⟩] = .ok y ∧
      x.Alike y ∧ ReadsOwnFields boxRegistry [hidingBox 1, outerPair 5] x ∧
      ReadsOwnFields boxRegistry [outerPair 1, hidingBox 2] y := by
  have hfirst : pathOfBox [hidingBox 1, outerPair 5] = some "own" := by decide +kernel
  have hsecond : pathOfBox [outerPair 1, hidingBox 2] = some "own" := by decide +kernel
  have hperm : ([hidingBox 1, outerPair 5].map Node.bare).Perm
      ([outerPair 1, hidingBox 2].map Node.bare) := .swap _ _ _
  obtain ⟨x, hx, -⟩ := Option.bind_eq_some_iff.1 hfirst
  obtain ⟨y, hy, -⟩ := Option.bind_eq_some_iff.1 hsecond
  rw [toOption_eq_some] at hx hy
  have hcurrent : NoHandles boxSetup := fun current h => nomatch (h : none = some current)
  obtain ⟨halike, hown⟩ := evaluateFiles_hiding hcurrent asksForOne_hidingBox timed_hidingBox hperm
    hx hy
  exact ⟨x, y, hx, hy, halike, hown rfl⟩

/-- A path that reads `v` before the box sets it is the variable when that is bound already, and
the field when it is not. -/
theorem path_of_hastyBox :
    ([hastyBox 1, outerPair 5].map Node.bare).Perm ([outerPair 1, hastyBox 2].map Node.bare) ∧
      pathOfBox [hastyBox 1, outerPair 5] = some "own" ∧
      pathOfBox [outerPair 1, hastyBox 2] = some "outer" := by
  refine ⟨.swap _ _ _, by decide +kernel, by decide +kernel⟩

end Provision

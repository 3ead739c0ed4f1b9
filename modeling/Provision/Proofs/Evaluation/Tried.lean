import Provision.Proofs.Evaluation.Pairs
import Provision.Proofs.Evaluation.Rounds

/-!
# Statements tried in any order

The states that some statements can bring about when they are tried one after
another, each as often as one likes and in whatever order.  Statements are told
apart by what they say and not by where they stand.  Every evaluation of the
statements, in passes or otherwise, stays among these states.
-/

namespace Provision

open Provision.Language (Node Entry)
open Recording
open Retry (Verdict)

/-- What the progress shows to an expression outside every instance, wherever it stands. -/
def Progress.plainView (p : Progress) : View :=
  ⟨p.inventory, p.scope, none, [], Span.generated⟩

/-- The progress that the body of a resource starts from. -/
def Progress.entered (p : Progress) : Progress :=
  { p with scope := p.scope.child, reads := [], credentials := none }

/-- What trying some statements, in any order, can bring about from a given start. -/
inductive Tried (setup : EvaluationSetup) (frame : Frame) (statements : List Node)
    (start : Progress) : Progress → Prop
  | start : Tried setup frame statements start start
  | step {p after : Progress} {node : Node} {undeclared : List TypeName} {reads : List Key}
      {outcome : Except Interrupt Unit}
      (hbefore : Tried setup frame statements start p)
      (hnode : node.bare ∈ statements.map Node.bare)
      (hrun : (runStatement (setup.evaluator undeclared) node frame).run { p with reads := reads } =
        (outcome, after)) :
      Tried setup frame statements start after

/-- Every reference in an expression asks for one resource. -/
def Progress.Single (p : Progress) (node : Node) : Prop :=
  ∀ undeclared location,
    node.Everywhere (NamesOne ⟨p.inventory, p.scope, none, undeclared, location⟩)

theorem tried_congr {setup : EvaluationSetup} {frame : Frame} {statements statements' : List Node}
    {start p : Progress}
    (hbare : ∀ node, node ∈ statements.map Node.bare ↔ node ∈ statements'.map Node.bare)
    (h : Tried setup frame statements start p) :
    Tried setup frame statements' start p := by
  induction h with
  | start => exact .start
  | step _ hnode hrun ih => exact .step ih ((hbare _).1 hnode) hrun

/-! ## One pair -/

section Pair

variable {p : Progress} {entry : Entry} {frame : Frame}

/-- An expression comes to the same wherever it stands. -/
theorem agrees_here
    (hvirtuals : p.inventory.virtuals = [])
    (hknown : p.plainView.Known)
    (hsingle : p.Single entry.value)
    (hframe : frame.qualifier = none)
    (setting : Setting) :
    Agrees (Value.Known p.inventory) (evaluate p.plainView entry.value)
        (evaluate (p.view setting frame entry.span) entry.value) ∧
      Agrees (Value.Known p.inventory) (evaluate (p.view setting frame entry.span) entry.value)
        (evaluate p.plainView entry.value) := by
  have hhere : (p.view setting frame entry.span).Known := ⟨hknown.scope, hknown.fields⟩
  have hsingle' := hsingle setting.undeclared entry.span
  rw [← hframe] at hsingle'
  have hbelow : p.plainView.Below (p.view setting frame entry.span) :=
    View.below_of_same rfl rfl hvirtuals ⟨rfl, hframe⟩
  have hback : (p.view setting frame entry.span).Below p.plainView :=
    View.below_of_same rfl rfl hvirtuals ⟨hframe, rfl⟩
  constructor
  · exact evaluate_agrees hbelow hknown rfl (hsingle [] Span.generated)
  · exact evaluate_agrees hback hhere rfl hsingle'

variable (e : Evaluator)
  (hvirtuals : p.inventory.virtuals = [])
  (hknown : p.plainView.Known)
  (hsingle : p.Single entry.value)
  (hframe : frame.qualifier = none)

include hvirtuals hknown hsingle hframe

theorem pair_of_yields {value : Value} (hsaid : said p.plainView entry.value = .yields value) :
    ∃ reads, (runStatement e (.pair entry) frame).run p =
        (.ok (), { p with reads := reads, scope := p.scope.put entry.key value }) ∧
      value.Known p.inventory ∧
      ∀ key, key ∈ reads ↔ key ∈ p.reads ∨ key ∈ readBy p.plainView entry.value := by
  have hagrees := (agrees_here hvirtuals hknown hsingle hframe e.setting).1
  obtain ⟨reads, hrun, hreads⟩ := run_of_yields hagrees hsaid p.reads
  refine ⟨reads, ?_, (said_of_yields hagrees hsaid).2.1, hreads⟩
  rw [pair_run, hrun]

theorem pair_of_waits (hsaid : said p.plainView entry.value = .waits) :
    ∃ deferrals reads, (runStatement e (.pair entry) frame).run p =
        (.error (.deferred deferrals), { p with reads := reads }) ∧
      ∀ key, key ∈ reads ↔ key ∈ p.reads ∨ key ∈ readBy p.plainView entry.value := by
  obtain ⟨hagrees, hback⟩ := agrees_here hvirtuals hknown hsingle hframe e.setting
  obtain ⟨deferrals, reads, hrun, hreads⟩ := run_of_waits hagrees hback hsaid p.reads
  refine ⟨deferrals, reads, ?_, hreads⟩
  rw [pair_run, hrun]

theorem pair_of_fails (hsaid : said p.plainView entry.value = .fails) :
    ∃ error reads, (runStatement e (.pair entry) frame).run p =
      (.error (.failed error), { p with reads := reads }) := by
  have hagrees := (agrees_here hvirtuals hknown hsingle hframe e.setting).1
  obtain ⟨error, reads, hrun⟩ := run_of_fails hagrees hsaid p.reads
  refine ⟨error, reads, ?_⟩
  rw [pair_run, hrun]

end Pair

end Provision

import Provision.Proofs.Evaluation.Quiet

/-!
# What a statement takes from its evaluator

A statement that declares nothing takes from its evaluator only which types are
still undeclared.  It does the same whatever inventory is recorded and whatever
instances expand to, so that two evaluations can be compared under one evaluator.
-/

namespace Provision

open Provision.Language (Node Branch Directive)

theorem Step.settled_error_bind {α β : Type} (error : EvalError) (f : α → Step β) :
    (Step.settled (.error error) >>= f) = Step.fail error :=
  rfl

section Congruence

variable {e e' : Evaluator} (hsame : e'.setting.undeclared = e.setting.undeclared)

include hsame

theorem reading_congr {α : Type} (frame : Frame) (span : Span) (run : View → Recording α) :
    e'.reading frame span run = e.reading frame span run := by
  unfold Evaluator.reading Progress.view
  rw [hsame]

theorem exclude_congr (frame : Frame) (d : Directive) (arguments : List Node) (entries : Bindings) :
    exclude e' frame d arguments entries = exclude e frame d arguments entries := by
  induction arguments generalizing entries with
  | nil => rfl
  | cons argument rest ih =>
    unfold exclude
    simp only [reading_congr hsame, ih]

theorem runExtends_congr (frame : Frame) (d : Directive) :
    runExtends e' frame d = runExtends e frame d := by
  unfold runExtends
  simp only [reading_congr hsame, exclude_congr hsame]

theorem runCredentials_congr (frame : Frame) (d : Directive) :
    runCredentials e' frame d = runCredentials e frame d := by
  unfold runCredentials
  simp only [reading_congr hsame]

theorem runLoop_congr (frame : Frame) (d : Directive) (run : Frame → Step Unit) :
    runLoop e' frame d run = runLoop e frame d run := by
  unfold runLoop
  simp only [reading_congr hsame]

omit hsame in
theorem runStatements_congr {nodes : List Node} {frame : Frame}
    (h : ∀ node ∈ nodes, runStatement e' node frame = runStatement e node frame) :
    runStatements e' nodes frame = runStatements e nodes frame := by
  rw [runStatements_eq_map, runStatements_eq_map]
  exact List.map_congr_left h

theorem runBranches_congr (span : Span) {branches : List Branch} {frame : Frame}
    (h : ∀ branch ∈ branches, ∀ node ∈ branch.body,
      runStatement e' node frame = runStatement e node frame) :
    runBranches e' span branches frame = runBranches e span branches frame := by
  induction branches with
  | nil => rfl
  | cons branch rest ih =>
    obtain ⟨name, arguments, body, place⟩ := branch
    have hbody := runStatements_congr (h _ List.mem_cons_self)
    have hrest := ih fun other hother => h other (List.mem_cons_of_mem _ hother)
    unfold runBranches
    simp only [reading_congr hsame, hbody, hrest]

theorem runDirective_congr {d : Directive}
    (h : ∀ node ∈ (Node.directive d).inner, ∀ frame,
      runStatement e' node frame = runStatement e node frame) (frame : Frame) :
    runDirective e' d frame = runDirective e d frame := by
  obtain ⟨name, arguments, clauses, bodyless, body, branches, span⟩ := d
  have hbody : ∀ inner, runStatements e' body inner = runStatements e body inner :=
    fun inner => runStatements_congr fun node hnode =>
      h node (List.mem_append_left _ hnode) inner
  have hbranches : runBranches e' span branches frame = runBranches e span branches frame := by
    refine runBranches_congr hsame span fun branch hbranch node hnode => ?_
    have hmem := List.mem_flatMap.2 ⟨branch, hbranch, hnode⟩
    exact h node (List.mem_append_right _ hmem) frame
  unfold runDirective
  simp only [reading_congr hsame, runLoop_congr hsame, runExtends_congr hsame,
    runCredentials_congr hsame, hbody, hbranches]

/-- Evaluators with the same undeclared types run a statement alike that declares nothing. -/
theorem runStatement_congr {node : Node} (h : typesIn node = []) (frame : Frame) :
    runStatement e' node frame = runStatement e node frame := by
  induction node using Node.induction generalizing frame with
  | step node ih =>
    have hinner : ∀ child ∈ node.inner, ∀ frame,
        runStatement e' child frame = runStatement e child frame :=
      fun child hchild => ih child (Node.mem_children_of_inner hchild) (typesIn_inner h child hchild)
    cases node with
    | pair entry =>
      obtain ⟨key, value, span⟩ := entry
      unfold runStatement
      rw [reading_congr hsame]
    | resource type name source span =>
      obtain ⟨error, htype⟩ := typeAt_of_typesIn h span
      unfold runStatement
      rw [htype, Step.settled_error_bind, Step.settled_error_bind]
    | block key source span =>
      have hsource : runStatements e' source frame = runStatements e source frame :=
        runStatements_congr fun child hchild => hinner child hchild frame
      unfold runStatement
      rw [hsource]
    | directive d =>
      unfold runStatement
      exact runDirective_congr hsame hinner frame
    | _ => simp only [runStatement]

theorem runMarked_congr {nodes : List Node} (h : typesInAll nodes = []) (frame : Frame) :
    runMarked e' nodes frame = runMarked e nodes frame := by
  rw [runMarked_eq_map, runMarked_eq_map]
  refine List.map_congr_left fun node hnode => ?_
  rw [runStatement_congr hsame (typesInAll_eq_nil.1 h node hnode)]

end Congruence

end Provision

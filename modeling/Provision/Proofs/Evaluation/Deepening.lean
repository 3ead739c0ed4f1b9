import Provision.Proofs.Evaluation.Congruence
import Provision.Proofs.Evaluation.Done
import Provision.Proofs.Evaluation.Rounds

/-!
# Deeper evaluations

Evaluation is given a bound on how deeply instances nest.  An evaluation that does
not reach its bound comes to the same under every greater one.  This holds of
evaluations as a whole because it holds of what instances expand to, and each
construct of the language passes it on.
-/

namespace Provision

open Provision.Language (Node Branch Directive SourceFile)

/-- The outcome is that instances are nested too deeply. -/
def CutShort {α : Type} (outcome : Except Interrupt α) : Prop :=
  ∃ span type, outcome = .error (.failed (.nestedInstances span type))

/-- Both end early for the same reason, or with related results. -/
inductive EndsLike {α β : Type} (rel : α → β → Prop) :
    Except Interrupt α → Except Interrupt β → Prop
  | ok {a : α} {b : β} (h : rel a b) : EndsLike rel (.ok a) (.ok b)
  | error (interrupt : Interrupt) : EndsLike rel (.error interrupt) (.error interrupt)

theorem EndsLike.refl {α : Type} (outcome : Except Interrupt α) : EndsLike Eq outcome outcome := by
  cases outcome with
  | ok a => exact .ok rfl
  | error interrupt => exact .error interrupt

theorem EndsLike.eq {α : Type} {outcome deeper : Except Interrupt α}
    (h : EndsLike Eq outcome deeper) :
    deeper = outcome := by
  cases h with
  | ok h => rw [h]
  | error interrupt => rfl

namespace Step

variable {α α' β β' : Type}

/-- Wherever the first step is not cut short, the second leaves the same progress and ends like
it. -/
def Deepens (rel : α → β → Prop) (step : Step α) (deeper : Step β) : Prop :=
  ∀ p, CutShort (step.run p).1 ∨
    (deeper.run p).2 = (step.run p).2 ∧ EndsLike rel (step.run p).1 (deeper.run p).1

theorem deepens_refl (step : Step α) : step.Deepens Eq step :=
  fun _ => Or.inr ⟨rfl, .refl _⟩

theorem deepens_pure {rel : α → β → Prop} {a : α} {b : β} (h : rel a b) :
    (pure a : Step α).Deepens rel (pure b : Step β) :=
  fun _ => Or.inr ⟨rfl, .ok h⟩

theorem Deepens.bind {rel : α → β → Prop} {rel' : α' → β' → Prop} {m : Step α} {m' : Step β}
    {f : α → Step α'} {f' : β → Step β'} (hm : m.Deepens rel m')
    (hf : ∀ a b, rel a b → (f a).Deepens rel' (f' b)) :
    (m >>= f).Deepens rel' (m' >>= f') := by
  intro p
  have hfirst := hm p
  rw [run_bind, run_bind]
  generalize m.run p = result at hfirst ⊢
  generalize m'.run p = result' at hfirst ⊢
  obtain ⟨outcome, q⟩ := result
  obtain ⟨outcome', q'⟩ := result'
  rcases hfirst with ⟨span, type, hcut⟩ | ⟨hstate, hends⟩
  · cases hcut
    exact Or.inl ⟨span, type, rfl⟩
  · cases hstate
    cases hends with
    | ok h => exact hf _ _ h q
    | error interrupt => exact Or.inr ⟨rfl, .error interrupt⟩

/-- The same step first, and steps after it that deepen each other. -/
theorem Deepens.after (m : Step α) {f : α → Step α'} {f' : α → Step β'}
    {rel : α' → β' → Prop} (hf : ∀ a, (f a).Deepens rel (f' a)) :
    (m >>= f).Deepens rel (m >>= f') :=
  (deepens_refl m).bind fun a _ h => h ▸ hf a

theorem Deepens.collecting {step deeper : Step α} (h : step.Deepens Eq deeper) :
    (Step.collecting step).Deepens Eq (Step.collecting deeper) := by
  intro p
  rw [collecting_run, collecting_run]
  rcases h { p with reads := [], credentials := none } with ⟨span, type, hcut⟩ | ⟨hstate, hends⟩
  · rw [hcut]
    exact Or.inl ⟨span, type, rfl⟩
  · rw [hstate, hends.eq]
    exact Or.inr ⟨rfl, .refl _⟩

theorem Deepens.inScope {step deeper : Step Unit} (h : step.Deepens Eq deeper)
    (enter : Scope → Scope) :
    (Step.inScope enter step).Deepens Eq (Step.inScope enter deeper) := by
  intro p
  rw [inScope_run, inScope_run]
  rcases h { p with scope := enter p.scope } with ⟨span, type, hcut⟩ | ⟨hstate, hends⟩
  · rw [hcut]
    exact Or.inl ⟨span, type, rfl⟩
  · rw [hstate, hends.eq]
    exact Or.inr ⟨rfl, .refl _⟩

theorem Deepens.tried {step deeper : Step Unit} (h : step.Deepens Eq deeper) :
    step.tried.Deepens Eq deeper.tried := by
  intro p
  rw [tried_run_eq, tried_run_eq]
  rcases h p with ⟨span, type, hcut⟩ | ⟨hstate, hends⟩
  · rcases hrun : step.run p with ⟨outcome, q⟩
    rw [hrun] at hcut
    cases hcut
    exact Or.inl ⟨span, type, rfl⟩
  · have hsame : deeper.run p = step.run p := Prod.ext hends.eq hstate
    rw [hsame]
    exact Or.inr ⟨rfl, .refl _⟩

/-! ### Bodies -/

variable {steps deeper : List (Step Unit)}

/-- The steps that a pass leaves deepen each other, too. -/
theorem deepens_pass (h : List.Forall₂ (Deepens Eq) steps deeper) :
    (Step.pass steps).Deepens (fun left left' => List.Forall₂ (Deepens Eq) left.1 left'.1 ∧
      left.2 = left'.2) (Step.pass deeper) := by
  induction h with
  | nil => exact deepens_pure ⟨.nil, rfl⟩
  | @cons step step' rest rest' hstep hrest ih =>
    rw [pass_cons, pass_cons]
    refine hstep.tried.bind ?_
    rintro waiting _ rfl
    refine ih.bind ?_
    rintro ⟨left, reasons⟩ ⟨left', _⟩ ⟨hleft, rfl⟩
    cases waiting with
    | none => exact deepens_pure ⟨hleft, rfl⟩
    | some first => exact deepens_pure ⟨.cons hstep hleft, rfl⟩

theorem deepens_settle (bound : Nat) (h : List.Forall₂ (Deepens Eq) steps deeper) :
    (Step.settle bound steps).Deepens Eq (Step.settle bound deeper) := by
  induction bound generalizing steps deeper with
  | zero => exact deepens_refl _
  | succ bound ih =>
    unfold Step.settle
    refine (deepens_pass h).bind ?_
    rintro ⟨left, reasons⟩ ⟨left', _⟩ ⟨hleft, rfl⟩
    have hempty : left'.isEmpty = left.isEmpty := by
      cases hleft <;> rfl
    dsimp only
    rw [hempty, ← hleft.length_eq, ← h.length_eq]
    split
    · exact deepens_refl _
    · split
      · exact deepens_refl _
      · exact ih hleft

theorem deepens_body (h : List.Forall₂ (Deepens Eq) steps deeper) :
    (Step.body steps).Deepens Eq (Step.body deeper) := by
  unfold Step.body
  rw [← h.length_eq]
  exact deepens_settle _ h

theorem deepens_sequence (h : List.Forall₂ (Deepens Eq) steps deeper) :
    (Step.sequence steps).Deepens Eq (Step.sequence deeper) := by
  induction h with
  | nil => exact deepens_refl _
  | cons hstep hrest ih => exact hstep.bind fun _ _ _ => ih

end Step

/-! ## Statements -/

section Statements

variable {e e' : Evaluator}

theorem forall₂_map_deepens {ι : Type} {run run' : ι → Step Unit} {items : List ι}
    (h : ∀ i ∈ items, (run i).Deepens Eq (run' i)) :
    List.Forall₂ (Step.Deepens Eq) (items.map run) (items.map run') := by
  rw [List.forall₂_map_left_iff, List.forall₂_map_right_iff, List.forall₂_same]
  exact h

theorem runStatements_deepens {nodes : List Node} {frame : Frame}
    (h : ∀ node ∈ nodes, (runStatement e node frame).Deepens Eq (runStatement e' node frame)) :
    List.Forall₂ (Step.Deepens Eq) (runStatements e nodes frame)
      (runStatements e' nodes frame) := by
  rw [runStatements_eq_map, runStatements_eq_map]
  exact forall₂_map_deepens h

theorem runIterations_deepens (frame : Frame) (span : Span) (names : List String)
    {run run' : Frame → Step Unit} (h : ∀ inner, (run inner).Deepens Eq (run' inner)) (index : Nat)
    (rounds : List (List Value)) :
    (runIterations frame span names run index rounds).Deepens Eq
      (runIterations frame span names run' index rounds) := by
  induction rounds generalizing index with
  | nil => exact Step.deepens_refl _
  | cons values rest ih =>
    unfold runIterations
    refine ((h _).inScope _).bind ?_
    rintro scope _ rfl
    refine (ih (index + 1)).bind ?_
    rintro later _ rfl
    exact Step.deepens_refl _

theorem runLoop_deepens (frame : Frame) (d : Directive) {run run' : Frame → Step Unit}
    (h : ∀ inner, (run inner).Deepens Eq (run' inner)) :
    (runLoop e frame d run).Deepens Eq (runLoop e frame d run') := by
  unfold runLoop
  refine Step.Deepens.after _ fun names => ?_
  split
  · exact Step.deepens_refl _
  · split
    · exact Step.deepens_refl _
    · refine Step.Deepens.after _ fun value => Step.Deepens.after _ fun rounds => ?_
      refine (runIterations_deepens frame d.span names h 0 rounds).bind ?_
      rintro blocks _ rfl
      exact Step.deepens_refl _

variable (hsetting : e'.setting = e.setting)

include hsetting

theorem runBranches_deepens (span : Span) {branches : List Branch} {frame : Frame}
    (h : ∀ branch ∈ branches, ∀ node ∈ branch.body,
      (runStatement e node frame).Deepens Eq (runStatement e' node frame)) :
    (runBranches e span branches frame).Deepens Eq (runBranches e' span branches frame) := by
  induction branches with
  | nil => exact Step.deepens_refl _
  | cons branch rest ih =>
    obtain ⟨name, arguments, body, place⟩ := branch
    have hbody := Step.deepens_body (runStatements_deepens (h _ List.mem_cons_self))
    have hrest := ih fun other hother => h other (List.mem_cons_of_mem _ hother)
    unfold runBranches
    split
    · exact hbody
    · rw [reading_congr (congrArg Setting.undeclared hsetting)]
      refine Step.Deepens.after _ fun value => ?_
      split
      · exact hbody
      · exact hrest

theorem runDirective_deepens {d : Directive}
    (h : ∀ node ∈ (Node.directive d).inner, ∀ frame,
      (runStatement e node frame).Deepens Eq (runStatement e' node frame)) (frame : Frame) :
    (runDirective e d frame).Deepens Eq (runDirective e' d frame) := by
  obtain ⟨name, arguments, clauses, bodyless, body, branches, span⟩ := d
  have hundeclared := congrArg Setting.undeclared hsetting
  have hbody : ∀ inner, List.Forall₂ (Step.Deepens Eq) (runStatements e body inner)
      (runStatements e' body inner) :=
    fun inner => runStatements_deepens fun node hnode => h node (List.mem_append_left _ hnode) inner
  have hbranches : (runBranches e span branches frame).Deepens Eq
      (runBranches e' span branches frame) := by
    refine runBranches_deepens hsetting span fun branch hbranch node hnode => ?_
    have hmem := List.mem_flatMap.2 ⟨branch, hbranch, hnode⟩
    exact h node (List.mem_append_right _ hmem) frame
  unfold runDirective
  simp only [reading_congr hundeclared, runLoop_congr hundeclared, runExtends_congr hundeclared,
    runCredentials_congr hundeclared]
  split
  · split
    · exact Step.deepens_refl _
    · refine Step.Deepens.after _ fun value => ?_
      split
      · exact Step.deepens_body (hbody frame)
      · exact hbranches
  · split
    · exact runLoop_deepens frame _ fun inner => Step.deepens_sequence (hbody inner)
    · exact Step.deepens_refl _

omit hsetting in
theorem resourceBody_deepens (frame inner : Frame) {source : List Node}
    (h : ∀ node ∈ source, (runStatement e node inner).Deepens Eq (runStatement e' node inner)) :
    (resourceBody frame (runMarked e source inner)).Deepens Eq
      (resourceBody frame (runMarked e' source inner)) := by
  have hmarked : ∀ keep : Bool → Bool, List.Forall₂ (Step.Deepens Eq)
      (((runMarked e source inner).filter fun step => keep step.1).map Prod.snd)
      (((runMarked e' source inner).filter fun step => keep step.1).map Prod.snd) := by
    intro keep
    rw [runMarked_eq_map, runMarked_eq_map, List.filter_map, List.filter_map, List.map_map,
      List.map_map]
    exact forall₂_map_deepens fun node hnode => h node (List.mem_filter.1 hnode).1
  have hbody := Step.deepens_body (List.rel_append (hmarked fun marked => !marked) (hmarked id))
  exact (hbody.inScope Scope.child).collecting.bind fun _ _ h => h ▸ Step.deepens_refl _

theorem declareResource_deepens (frame : Frame) (type : ResourceType) (name : String)
    (span : Span) {inner : Frame} {source : List Node}
    (h : ∀ node ∈ source, (runStatement e node inner).Deepens Eq (runStatement e' node inner)) :
    (declareResource e frame type name source span (runMarked e source inner)).Deepens Eq
      (declareResource e' frame type name source span (runMarked e' source inner)) := by
  unfold declareResource
  rw [hsetting]
  refine Step.Deepens.after _ fun key => (resourceBody_deepens frame inner h).bind ?_
  rintro body _ rfl
  exact Step.deepens_refl _

variable (hexpand : ∀ template frame span,
  (e.expand template frame span).Deepens Eq (e'.expand template frame span))

include hexpand

omit hsetting in
theorem instantiate_deepens (frame : Frame) (template : VirtualType) (name : String) (span : Span)
    {steps deeper : List (Step Unit)} (h : List.Forall₂ (Step.Deepens Eq) steps deeper) :
    (instantiate e frame template name span steps).Deepens Eq
      (instantiate e' frame template name span deeper) := by
  unfold instantiate
  refine ((Step.deepens_body h).inScope Scope.child).collecting.bind ?_
  rintro ⟨arguments, reads, credentials⟩ _ rfl
  dsimp only
  split
  · exact Step.deepens_refl _
  · split
    · exact Step.deepens_refl _
    · exact ((hexpand _ _ _).inScope _).bind fun _ _ _ => Step.deepens_refl _

/-- A statement does the same when instances expand to the same, unless one is cut short. -/
theorem runStatement_deepens (node : Node) (frame : Frame) :
    (runStatement e node frame).Deepens Eq (runStatement e' node frame) := by
  have hundeclared := congrArg Setting.undeclared hsetting
  induction node using Node.induction generalizing frame with
  | step node ih =>
    have hinner : ∀ child ∈ node.inner, ∀ frame,
        (runStatement e child frame).Deepens Eq (runStatement e' child frame) :=
      fun child hchild => ih child (Node.mem_children_of_inner hchild)
    cases node with
    | pair entry =>
      obtain ⟨key, value, span⟩ := entry
      unfold runStatement
      rw [reading_congr hundeclared]
      exact Step.deepens_refl _
    | resource typeText name source span =>
      unfold runStatement
      rw [reading_congr hundeclared]
      refine Step.Deepens.after _ fun type => Step.Deepens.after _ fun text =>
        Step.Deepens.after _ fun progress => ?_
      split
      · exact instantiate_deepens hexpand frame _ text span
          (runStatements_deepens fun child hchild => hinner child hchild _)
      · split
        · exact Step.deepens_refl _
        · exact declareResource_deepens hsetting frame _ text span fun child hchild =>
            hinner child hchild _
    | block key source span =>
      unfold runStatement
      split
      · exact Step.deepens_refl _
      · have hbody := Step.deepens_body (runStatements_deepens fun child hchild =>
          hinner child hchild frame)
        exact (hbody.inScope Scope.child).bind fun _ _ h => h ▸ Step.deepens_refl _
    | directive d =>
      unfold runStatement
      exact runDirective_deepens hsetting hinner frame
    | _ =>
      unfold runStatement
      exact Step.deepens_refl _

end Statements

/-- One more level of instances changes nothing unless the evaluation is cut short. -/
theorem atDepth_deepens (setting : Setting) (depth : Nat) (template : VirtualType) (frame : Frame)
    (span : Span) :
    ((Evaluator.atDepth setting depth).expand template frame span).Deepens Eq
      ((Evaluator.atDepth setting (depth + 1)).expand template frame span) := by
  induction depth generalizing template frame span with
  | zero => exact fun p => Or.inl ⟨span, template.name, rfl⟩
  | succ depth ih =>
    refine Step.deepens_body (runStatements_deepens fun node _ => ?_)
    have hsetting := (Evaluator.setting_atDepth setting (depth + 1)).trans
      (Evaluator.setting_atDepth setting depth).symm
    exact runStatement_deepens hsetting ih node frame

/-! ## Rounds -/

/-- The evaluation failed for instances that are nested too deeply. -/
def TooDeep {α : Type} (outcome : Except EvalError α) : Prop :=
  ∃ span type, outcome = .error (.nestedInstances span type)

theorem tooDeep_or_eq_bind {α β : Type} {x y : Except EvalError α} {f g : α → Except EvalError β}
    (h : TooDeep x ∨ y = x) (hf : ∀ a, TooDeep (f a) ∨ g a = f a) :
    TooDeep (x >>= f) ∨ (y >>= g) = (x >>= f) := by
  rcases h with ⟨span, type, rfl⟩ | rfl
  · exact Or.inl ⟨span, type, rfl⟩
  · cases y with
    | error e => exact Or.inr rfl
    | ok a => exact hf a

/-- One more level of instances is allowed. -/
def EvaluationSetup.deeper (setup : EvaluationSetup) : EvaluationSetup :=
  { setup with depth := setup.depth + 1 }

namespace Round

variable (setup : EvaluationSetup)

variable {setup} in
theorem attempt_tooDeep {round : Round} {task : Task}
    (h : CutShort ((runStatement (setup.evaluator (round.undeclared task)) task.node
      { file := task.file }).run (round.progress task)).1) :
    TooDeep (round.attempt setup task) := by
  obtain ⟨span, type, hcut⟩ := h
  rw [attempt_eq]
  generalize (runStatement (setup.evaluator _) _ _).run _ = result at hcut ⊢
  obtain ⟨outcome, q⟩ := result
  cases hcut
  exact ⟨span, type, rfl⟩

theorem attempt_deeper (round : Round) (task : Task) :
    TooDeep (round.attempt setup task) ∨
      round.attempt setup.deeper task = round.attempt setup task := by
  have hsetting : (setup.deeper.evaluator (round.undeclared task)).setting =
      (setup.evaluator (round.undeclared task)).setting :=
    (Evaluator.setting_atDepth _ _).trans (Evaluator.setting_atDepth _ _).symm
  rcases runStatement_deepens hsetting (atDepth_deepens _ _) task.node { file := task.file }
    (round.progress task) with hcut | ⟨hstate, hends⟩
  · exact Or.inl (attempt_tooDeep hcut)
  · rw [attempt_eq, attempt_eq]
    exact Or.inr (by rw [Prod.ext hends.eq hstate])

theorem sweep_deeper (round : Round) (tasks : List Task) :
    TooDeep (round.sweep setup tasks) ∨
      round.sweep setup.deeper tasks = round.sweep setup tasks := by
  induction tasks generalizing round with
  | nil => exact Or.inr rfl
  | cons task rest ih =>
    rw [sweep_cons, sweep_cons]
    refine tooDeep_or_eq_bind (round.attempt_deeper setup task) fun tried => ?_
    exact tooDeep_or_eq_bind (ih tried.1) fun _ => Or.inr rfl

theorem run_deeper (round : Round) (bound : Nat) :
    TooDeep (round.run setup bound) ∨ round.run setup.deeper bound = round.run setup bound := by
  induction bound generalizing round with
  | zero => exact Or.inr rfl
  | succ bound ih =>
    unfold Round.run Round.pass
    rcases round.sweep_deeper setup round.tasks with ⟨span, type, hdeep⟩ | hsame
    · rw [hdeep]
      exact Or.inl ⟨span, type, rfl⟩
    · rw [hsame]
      split
      · exact Or.inr rfl
      · exact ih _
      · exact Or.inr rfl
      · exact Or.inr rfl

end Round

theorem evaluateFiles_deeper (setup : EvaluationSetup) (inventory : Inventory)
    (files : List SourceFile) :
    TooDeep (evaluateFiles setup inventory files) ∨
      evaluateFiles setup.deeper inventory files = evaluateFiles setup inventory files := by
  refine tooDeep_or_eq_bind (Or.inr rfl) fun started => ?_
  exact tooDeep_or_eq_bind (started.1.run_deeper setup _) fun _ => Or.inr rfl

/-- An evaluation whose instances are not nested too deeply comes to the same under every greater
bound on how deeply they may nest. -/
theorem evaluateFiles_of_le {mode : Mode} {current : Option Inventory} {depth depth' : Nat}
    {inventory : Inventory} {files : List SourceFile} (hle : depth ≤ depth')
    (h : ¬ TooDeep (evaluateFiles ⟨mode, current, depth⟩ inventory files)) :
    evaluateFiles ⟨mode, current, depth'⟩ inventory files =
      evaluateFiles ⟨mode, current, depth⟩ inventory files := by
  induction depth', hle using Nat.le_induction with
  | base => rfl
  | succ more _ ih =>
    refine Eq.trans ?_ ih
    refine (evaluateFiles_deeper ⟨mode, current, more⟩ inventory files).resolve_left ?_
    rwa [ih]

end Provision

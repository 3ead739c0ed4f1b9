import Provision.Proofs.Evaluation.Circles
import Provision.Proofs.Evaluation.Declaring
import Provision.Proofs.Evaluation.Deepening

/-!
# Evaluations that end

Instances expand to the bodies of templates, which may have instances again.  Only a
template that leads back to itself makes this go on for ever.  When no statement
leads to such a template, instances nest at most as deeply as there are templates,
so that the evaluation ends by itself.
-/

namespace Provision

open Provision.Language (Node SourceFile)
open Relation (ReflTransGen TransGen)

/-- Under every bound from some one on the evaluation comes to the same outcome, and neither the
depth of instances nor the number of passes is what ends it: passes that run out tell of no
statement. -/
def Terminates (mode : Mode) (current : Option Inventory) (inventory : Inventory)
    (files : List SourceFile) : Prop :=
  ∃ depth outcome, ¬ TooDeep outcome ∧ (∀ cycles, outcome ≠ .error (.unresolvable [] cycles)) ∧
    ∀ more, depth ≤ more → evaluateFiles ⟨mode, current, more⟩ inventory files = outcome

/-- The body of the first template has a block of the second type. -/
def Instantiates (virtuals : Table TypeName VirtualType) (outer inner : TypeName) : Prop :=
  ∃ template, Table.get? virtuals outer = some template ∧ inner ∈ typesInAll template.body

/-- No statement leads to a template that leads back to itself. -/
def Round.Unlooped (round : Round) : Prop :=
  ∀ task ∈ round.tasks, ∀ type ∈ typesIn task.node, ∀ inner,
    ReflTransGen (Instantiates round.inventory.virtuals) type inner →
      ¬ TransGen (Instantiates round.inventory.virtuals) inner inner

/-! ## Depth of templates -/

/-- Instances of the type nest at most so deeply. -/
def Shallow (virtuals : Table TypeName VirtualType) : Nat → TypeName → Prop
  | 0, type => Table.get? virtuals type = none
  | depth + 1, type => ∀ inner, Instantiates virtuals type inner → Shallow virtuals depth inner

section Templates

variable {virtuals : Table TypeName VirtualType} {type : TypeName} {depth : Nat}

/-- Where instances nest more deeply there is a chain of so many templates. -/
theorem exists_chain_of_not_shallow (h : ¬ Shallow virtuals depth type) :
    ∃ path, path.length = depth ∧ (type :: path).Pairwise (TransGen (Instantiates virtuals)) ∧
      type :: path ⊆ Table.keys virtuals := by
  induction depth generalizing type with
  | zero =>
    refine ⟨[], rfl, List.pairwise_singleton _ _, ?_⟩
    rintro _ hmem
    obtain rfl := List.mem_singleton.1 hmem
    exact Table.mem_keys_iff.2 (Option.isSome_iff_ne_none.2 h)
  | succ depth ih =>
    unfold Shallow at h
    push Not at h
    obtain ⟨inner, hinner, hdeep⟩ := h
    obtain ⟨path, hlength, hpath, hkeys⟩ := ih hdeep
    refine ⟨inner :: path, congrArg Nat.succ hlength, List.pairwise_cons.2 ⟨?_, hpath⟩, ?_⟩
    · intro other hother
      rcases List.mem_cons.1 hother with rfl | hother
      · exact .single hinner
      · exact .head hinner (List.rel_of_pairwise_cons hpath hother)
    · obtain ⟨template, htemplate, -⟩ := hinner
      exact List.cons_subset.2 ⟨Table.mem_keys_iff.2 (htemplate ▸ rfl), hkeys⟩

/-- Instances of a type that leads to no template leading back to itself nest at most as deeply as
there are templates. -/
theorem shallow_of_unlooped
    (h : ∀ inner, ReflTransGen (Instantiates virtuals) type inner →
      ¬ TransGen (Instantiates virtuals) inner inner) :
    Shallow virtuals virtuals.length type := by
  by_contra hdeep
  obtain ⟨path, hlength, hpath, hkeys⟩ := exists_chain_of_not_shallow hdeep
  have hreached : ∀ other ∈ type :: path, ReflTransGen (Instantiates virtuals) type other := by
    intro other hother
    rcases List.mem_cons.1 hother with rfl | hother
    · exact .refl
    · exact (List.rel_of_pairwise_cons hpath hother).to_reflTransGen
  have hnodup : (type :: path).Nodup := by
    refine hpath.imp_of_mem fun {a b} ha _ hab heq => ?_
    subst heq
    exact h a (hreached a ha) hab
  have hle := (hnodup.subperm hkeys).length_le
  rw [List.length_cons, hlength, Table.keys, List.length_map] at hle
  exact absurd hle (Nat.not_succ_le_self _)

end Templates

/-! ## Statements -/

/-- The error is not that instances are nested too deeply. -/
def EvalError.IsShallow : EvalError → Prop
  | .nestedInstances _ _ => False
  | _ => True

theorem EvalError.IsLocal.isShallow {e : EvalError} (h : e.IsLocal) : e.IsShallow := by
  cases e with
  | nestedInstances => exact h.elim
  | _ => trivial

/-- The templates stay as they are, and no instance is nested too deeply. -/
def Guarantee.modest (virtuals : Table TypeName VirtualType) : Guarantee where
  holds inventory := inventory.virtuals = virtuals
  waits _ := True
  fails := EvalError.IsShallow

section Statements

variable {virtuals : Table TypeName VirtualType}

theorem Guarantee.lawful_modest : (Guarantee.modest virtuals).Lawful :=
  ⟨fun _ _ => trivial, fun _ => trivial, fun _ => trivial, fun h => h.isShallow⟩

/-- A statement is evaluated without nesting too deeply when each of its types is shallow. -/
theorem runStatement_modest (setting : Setting) {depth : Nat} {node : Node}
    (h : ∀ type ∈ typesIn node, Shallow virtuals depth type) (frame : Frame) :
    (runStatement (Evaluator.atDepth setting depth) node frame).Keeps (.modest virtuals)
      fun _ => True := by
  induction depth generalizing node frame with
  | zero =>
    refine runStatement_keeps Guarantee.lawful_modest
      (fun node => ∀ type ∈ typesIn node, Shallow virtuals 0 type) (fun _ => True)
      (fun _ hnode _ hchild type htype => hnode type (typesIn_of_inner hchild htype))
      (fun _ _ _ => trivial) (fun _ _ _ => trivial) (fun _ _ _ _ h _ _ _ => h) ?_ h trivial
    intro typeText name source span type frame inventory template text reads hnode htype _
      hinventory htemplate
    have hnone : Table.get? virtuals type = none := hnode type (mem_typesIn_self htype)
    rw [← hinventory] at hnone
    cases hnone.symm.trans htemplate
  | succ depth ih =>
    refine runStatement_keeps Guarantee.lawful_modest
      (fun node => ∀ type ∈ typesIn node, Shallow virtuals (depth + 1) type) (fun _ => True)
      (fun _ hnode _ hchild type htype => hnode type (typesIn_of_inner hchild htype))
      (fun _ _ _ => trivial) (fun _ _ _ => trivial) (fun _ _ _ _ h _ _ _ => h) ?_ h trivial
    intro typeText name source span type frame inventory template text reads hnode htype _
      hinventory htemplate
    refine (Step.assembles_keeps Guarantee.lawful_modest).body fun step hstep => ?_
    rw [runStatements_eq_map] at hstep
    obtain ⟨child, hchild, rfl⟩ := List.mem_map.1 hstep
    refine ih (fun inner hinner => ?_) _
    refine hnode type (mem_typesIn_self htype) inner ⟨template, ?_, ?_⟩
    · rw [← hinventory]
      exact htemplate
    · exact mem_typesInAll.2 ⟨child, hchild, hinner⟩

end Statements

/-! ## Rounds -/

namespace Round

variable {setup : EvaluationSetup} {round : Round}

theorem attempt_shallow {task : Task}
    (h : ∀ type ∈ typesIn task.node, Shallow round.inventory.virtuals setup.depth type) :
    FailsAs EvalError.IsShallow (round.attempt setup task) := by
  have hkeeps := runStatement_modest ⟨setup.mode, setup.current, round.undeclared task⟩ h
    { file := task.file } (round.progress task) rfl
  intro e hattempt
  rw [attempt_eq] at hattempt
  split at hattempt
  · cases hattempt
  · cases hattempt
  · next hrun =>
    cases hattempt
    unfold EvaluationSetup.evaluator at hrun
    rw [hrun] at hkeeps
    exact hkeeps.2

theorem sweep_shallow {tasks : List Task}
    (h : ∀ task ∈ tasks, ∀ type ∈ typesIn task.node,
      Shallow round.inventory.virtuals setup.depth type) :
    FailsAs EvalError.IsShallow (round.sweep setup tasks) := by
  induction tasks generalizing round with
  | nil => exact failsAs_ok _
  | cons task rest ih =>
    rw [sweep_cons]
    cases hattempt : round.attempt setup task with
    | error e => exact failsAs_error (attempt_shallow (h task List.mem_cons_self) e hattempt)
    | ok tried =>
      refine (ih fun other hother => ?_).bind fun _ => failsAs_ok _
      rw [(attempt_grown hattempt).virtuals_eq]
      exact h other (List.mem_cons_of_mem _ hother)

theorem run_shallow {bound : Nat}
    (h : ∀ task ∈ round.tasks, ∀ type ∈ typesIn task.node,
      Shallow round.inventory.virtuals setup.depth type) :
    FailsAs EvalError.IsShallow (round.run setup bound) := by
  induction bound generalizing round with
  | zero => exact failsAs_error trivial
  | succ bound ih =>
    have hpass := passes_pass setup round
    rw [run]
    cases hresult : round.pass setup with
    | finished last => exact failsAs_ok _
    | stuck last statements => exact failsAs_error trivial
    | failed cause =>
      rw [hresult] at hpass
      cases hpass with
      | failed hsweep => exact failsAs_error (sweep_shallow h cause hsweep)
    | again next =>
      obtain ⟨htasks, hvirtuals⟩ := tasks_of_again hresult
      refine ih fun task htask => ?_
      rw [hvirtuals]
      exact h task (htasks.subset htask)

/-- A pass that is stuck tells of some statement. -/
theorem ne_nil_of_stuck {last : Round} {stuck : List StuckStatement}
    (h : round.pass setup = .stuck last stuck) :
    stuck ≠ [] := by
  have hpass := passes_pass setup round
  rw [h] at hpass
  cases hpass with
  | stuck _ hne => exact fun hnil => hne (List.map_eq_nil_iff.1 hnil)

end Round

/-- An evaluation fails for something wrong, or with the account of a pass that got stuck on
statements that it was given. -/
theorem failsAs_evaluateFiles {setup : EvaluationSetup} {inventory : Inventory}
    {files : List SourceFile} {kind : EvalError → Prop} (hcause : ∀ e : EvalError, e.IsCause → kind e)
    (hstuck : ∀ start indices before last stuck, Round.start inventory files = .ok (start, indices) →
      Round.pass setup before = .stuck last stuck → last.tasks.Sublist start.tasks →
        kind (.ofStuck stuck)) :
    FailsAs kind (evaluateFiles setup inventory files) := by
  unfold evaluateFiles
  cases hstart : Round.start inventory files with
  | error e => exact failsAs_error (hcause e (failsAs_start inventory files e hstart).isCause)
  | ok started =>
    obtain ⟨start, indices⟩ := started
    rw [ok_bind]
    refine FailsAs.bind (fun e hrun => ?_) fun _ => failsAs_ok _
    rcases Round.run_error (Round.remaining_le_passBound start) (Nat.succ_pos _) hrun with
      hwrong | ⟨last, stuck, hlast, rfl⟩
    · exact hcause e hwrong
    · obtain ⟨⟨before, hbefore⟩, hsublist, -⟩ := Round.exists_stuck_of_stuckAt? hlast
      exact hstuck start indices before last stuck hstart hbefore hsublist

/-- An evaluation never runs out of passes. -/
theorem evaluateFiles_ne_unresolvable_nil (setup : EvaluationSetup) (inventory : Inventory)
    (files : List SourceFile) (cycles : List (List Key)) :
    evaluateFiles setup inventory files ≠ .error (.unresolvable [] cycles) := by
  suffices hfails : FailsAs (fun e => e ≠ .unresolvable [] cycles)
      (evaluateFiles setup inventory files) from fun h => hfails _ h rfl
  refine failsAs_evaluateFiles ?_ ?_
  · rintro _ hcause rfl
    exact hcause
  · intro start indices before last stuck _ hbefore _ heq
    have hne := Round.ne_nil_of_stuck hbefore
    unfold EvalError.ofStuck at heq
    injection heq with hnil
    exact hne hnil

/-- An evaluation does not nest its instances too deeply when it is allowed as many levels as there
are templates and no statement leads to a template that leads back to itself. -/
theorem evaluateFiles_shallow {setup : EvaluationSetup} {inventory : Inventory}
    {files : List SourceFile}
    (h : ∀ start indices, Round.start inventory files = .ok (start, indices) →
      start.Unlooped ∧ start.inventory.virtuals.length = setup.depth) :
    ¬ TooDeep (evaluateFiles setup inventory files) := by
  rintro ⟨span, type, hdeep⟩
  suffices hshallow : FailsAs EvalError.IsShallow (evaluateFiles setup inventory files) from
    hshallow _ hdeep
  unfold evaluateFiles
  cases hstart : Round.start inventory files with
  | error e => exact failsAs_error (failsAs_start inventory files e hstart).isShallow
  | ok started =>
    obtain ⟨hunlooped, hdepth⟩ := h started.1 started.2 hstart
    rw [ok_bind]
    refine FailsAs.bind (Round.run_shallow fun task htask type htype => ?_) fun _ => failsAs_ok _
    rw [← hdepth]
    exact shallow_of_unlooped (hunlooped task htask type htype)

/-- An evaluation ends when no statement leads to a template that leads back to itself. -/
theorem evaluateFiles_terminates {mode : Mode} {current : Option Inventory} {inventory : Inventory}
    {files : List SourceFile}
    (h : ∀ start indices, Round.start inventory files = .ok (start, indices) → start.Unlooped) :
    Terminates mode current inventory files := by
  obtain ⟨depth, hdepth⟩ : ∃ depth, ∀ start indices,
      Round.start inventory files = .ok (start, indices) →
        start.inventory.virtuals.length = depth := by
    cases hstart : Round.start inventory files with
    | error e => exact ⟨0, nofun⟩
    | ok started =>
      refine ⟨started.1.inventory.virtuals.length, ?_⟩
      rintro _ _ ⟨⟩
      rfl
  have hends : ¬ TooDeep (evaluateFiles ⟨mode, current, depth⟩ inventory files) :=
    evaluateFiles_shallow fun start indices hstart =>
      ⟨h start indices hstart, hdepth start indices hstart⟩
  exact ⟨depth, _, hends, evaluateFiles_ne_unresolvable_nil _ _ _,
    fun _ hle => evaluateFiles_of_le hle hends⟩

/-- Templates that only have instances of templates of lower rank never lead back to themselves. -/
theorem unlooped_of_rank {round : Round} (rank : TypeName → Nat)
    (h : ∀ outer inner, Instantiates round.inventory.virtuals outer inner →
      rank inner < rank outer) :
    round.Unlooped := by
  intro _ _ _ _ inner _ hloop
  have hless : TransGen (fun m n : Nat => n < m) (rank inner) (rank inner) := hloop.lift rank h
  rw [Relation.transGen_eq_self] at hless
  exact absurd hless (Nat.lt_irrefl _)

/-- The template of a box. -/
def nestedInner : VirtualType :=
  ⟨⟨"m::leaf", rfl⟩, [], [boxBlock 2 (.text "b") [pairAt 3 "path" (.text "p")]], lineStart 1⟩

/-- A template that has an instance of the other one. -/
def nestedOuter : VirtualType :=
  ⟨⟨"m::stem", rfl⟩, [], [.resource "m::leaf" (.text "z") [] (lineStart 7)], lineStart 6⟩

/-- Both templates, and an instance of the outer one. -/
def nestedBoxes : SourceFile :=
  ⟨"main", [
    .directive ⟨"virtual", [.text "m::leaf"], [], false, nestedInner.body, [], lineStart 1⟩,
    .directive ⟨"virtual", [.text "m::stem"], [], false, nestedOuter.body, [], lineStart 6⟩,
    .resource "m::stem" (.text "x") [] (lineStart 10)]⟩

theorem nestedBoxes_unlooped {start : Round} {indices : List Nat}
    (hstart : Round.start (.empty boxRegistry) [nestedBoxes] = .ok (start, indices)) :
    start.Unlooped := by
  have hvirtuals : (Round.start (.empty boxRegistry) [nestedBoxes]).toOption.map
      (fun started => started.1.inventory.virtuals) =
        some [(nestedInner.name, nestedInner), (nestedOuter.name, nestedOuter)] := rfl
  rw [hstart] at hvirtuals
  have hvirtuals : start.inventory.virtuals =
      [(nestedInner.name, nestedInner), (nestedOuter.name, nestedOuter)] :=
    Option.some.inj hvirtuals
  refine unlooped_of_rank (fun type => if type = nestedOuter.name then 2 else
    if type = nestedInner.name then 1 else 0) ?_
  rintro outer inner ⟨template, htemplate, hinner⟩
  rw [hvirtuals] at htemplate
  have hmem := Table.mem_of_get? htemplate
  simp only [List.mem_cons, List.not_mem_nil, or_false, Prod.mk.injEq] at hmem
  rcases hmem with ⟨rfl, rfl⟩ | ⟨rfl, rfl⟩
  · have htypes : typesInAll nestedInner.body = [boxType.name] := rfl
    rw [htypes, List.mem_singleton] at hinner
    rw [hinner]
    decide
  · have htypes : typesInAll nestedOuter.body = [nestedInner.name] := rfl
    rw [htypes, List.mem_singleton] at hinner
    rw [hinner]
    decide

/-- The evaluation of the nested instances ends, with a box. -/
theorem evaluateFiles_terminates_nested :
    (evaluateFiles boxSetup (.empty boxRegistry) [nestedBoxes]).toOption.map
      (fun inventory => inventory.resources.map Resource.key) = some [boxKey "x/z/b"] ∧
    Terminates .configuration none (.empty boxRegistry) [nestedBoxes] :=
  ⟨by decide +kernel, evaluateFiles_terminates fun _ _ hstart => nestedBoxes_unlooped hstart⟩

/-! ## A template that leads back to itself -/

/-- An evaluation fails with its first statement. -/
theorem Round.run_tooDeep {setup : EvaluationSetup} {round : Round} {task : Task} {rest : List Task}
    (htasks : round.tasks = task :: rest) (h : TooDeep (round.attempt setup task)) :
    TooDeep (round.run setup (passBound round.tasks)) := by
  obtain ⟨span, type, hattempt⟩ := h
  refine ⟨span, type, ?_⟩
  unfold passBound Round.run Round.pass
  rw [htasks, sweep_cons, hattempt, error_bind]

theorem CutShort.bind {α β : Type} {m : Step α} {f : α → Step β} {p : Progress}
    (h : CutShort (m.run p).1) :
    CutShort ((m >>= f).run p).1 := by
  obtain ⟨span, type, hcut⟩ := h
  refine ⟨span, type, ?_⟩
  rw [run_bind]
  generalize m.run p = result at hcut ⊢
  obtain ⟨outcome, q⟩ := result
  cases hcut
  rfl

/-- A template that has an instance of itself. -/
def selfTemplate : VirtualType :=
  ⟨⟨"m::self", rfl⟩, [], [.resource "m::self" (.text "x") [] (lineStart 2)], lineStart 1⟩

/-- The template and an instance of it. -/
def selfFile : SourceFile :=
  ⟨"main", [
    .directive ⟨"virtual", [.text "m::self"], [], false, selfTemplate.body, [], lineStart 1⟩,
    .resource "m::self" (.text "a") [] (lineStart 5)]⟩

/-- An instance of the template is nothing but an expansion in a scope of its own. -/
theorem run_self (e : Evaluator) (name : String) (span : Span) (frame : Frame) {p : Progress}
    (hp : p.inventory.virtual? selfTemplate.name = some selfTemplate) :
    (runStatement e (.resource "m::self" (.text name) [] span) frame).run p =
      (Step.inScope (fun _ => Scope.withValues [])
        (e.expand selfTemplate (frame.below name span []) span) >>= fun _ => pure ()).run p := by
  have htype : (Step.settled (typeAt span "m::self")).run p = (.ok selfTemplate.name, p) := rfl
  have hname : (e.reading frame span fun view => do
      let value ← evaluate view (.text name)
      nameOf view value).run p = (.ok name, p) := rfl
  unfold runStatement
  rw [run_bind_ok htype, run_bind_ok hname, run_bind_ok (run_get p), hp]
  rfl

/-- However deep instances may nest, an instance of the template is cut short. -/
theorem cutShort_self (setting : Setting) (depth : Nat) (name : String) (span : Span)
    (frame : Frame) {p : Progress}
    (hp : p.inventory.virtual? selfTemplate.name = some selfTemplate) :
    CutShort ((runStatement (Evaluator.atDepth setting depth)
      (.resource "m::self" (.text name) [] span) frame).run p).1 := by
  induction depth generalizing name span frame p with
  | zero =>
    rw [run_self _ name span frame hp]
    exact CutShort.bind ⟨span, selfTemplate.name, rfl⟩
  | succ depth ih =>
    rw [run_self _ name span frame hp]
    refine CutShort.bind ?_
    have hbody : CutShort (((Evaluator.atDepth setting (depth + 1)).expand selfTemplate
        (frame.below name span []) span).run { p with scope := Scope.withValues [] }).1 := by
      show CutShort ((Step.body [runStatement (Evaluator.atDepth setting depth)
        (.resource "m::self" (.text "x") [] (lineStart 2)) (frame.below name span [])]).run _).1
      rw [Step.body_singleton]
      exact ih _ _ _ hp
    obtain ⟨place, type, hcut⟩ := hbody
    refine ⟨place, type, ?_⟩
    rw [Step.inScope_run, hcut]
    rfl

/-- The evaluation of the file never ends. -/
theorem self_instance_never_terminates :
    ¬ Terminates .configuration none (.empty boxRegistry) [selfFile] := by
  rintro ⟨depth, outcome, hdeep, -, hends⟩
  refine hdeep ?_
  rw [← hends depth (Nat.le_refl depth)]
  have hstarted : (Round.start (.empty boxRegistry) [selfFile]).toOption.map
      (fun started => (started.1.tasks, started.1.inventory.virtuals)) =
        some ([⟨0, 0, .resource "m::self" (.text "a") [] (lineStart 5)⟩],
          [(selfTemplate.name, selfTemplate)]) := rfl
  obtain ⟨⟨start, indices⟩, hstart, hstarted⟩ := Option.map_eq_some_iff.1 hstarted
  rw [toOption_eq_some] at hstart
  obtain ⟨htasks, hvirtuals⟩ := Prod.mk.inj hstarted
  have hvirtual : start.inventory.virtual? selfTemplate.name = some selfTemplate := by
    unfold Inventory.virtual?
    rw [hvirtuals]
    rfl
  have hrun : TooDeep (start.run ⟨.configuration, none, depth⟩ (passBound start.tasks)) :=
    Round.run_tooDeep htasks
      (Round.attempt_tooDeep (cutShort_self _ depth "a" (lineStart 5) { file := 0 } hvirtual))
  obtain ⟨span, type, hrun⟩ := hrun
  refine ⟨span, type, ?_⟩
  unfold evaluateFiles
  rw [hstart, ok_bind]
  dsimp only
  rw [hrun, error_bind]

end Provision

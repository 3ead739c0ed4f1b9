import Mathlib.Data.List.Nodup
import Provision.Apply
import Provision.Proofs.Evaluation.Growing

/-!
# The course of a run

A run is taken apart into the deeds it does one after another: evaluating a
declaration again, calling the provider and noting what it answered, saving the
state.  Each deed says what it was done with and what came of it, and there is
one rule for what each does to the run.  The course of a plan is made of the
courses of its changes, in which every deed serves its change and a successful
call is directly followed by a save.  A change that is reported as applied has
done what it was there for.
-/

namespace Provision

/-- What a run does in one go. -/
inductive Deed where
  | reevaluate (key : Key)
  | create (key : Key) (file : Path) (resource : Resource) (outcome : Except String Unit)
      (fields : Bindings)
  | update (key : Key) (file : Path) (existing resource : Resource) (outcome : Except String Unit)
      (fields : Bindings)
  | delete (key : Key) (resource : Resource) (outcome : Except String Unit)
  /-- A deletion that finds nothing to delete. -/
  | absent (key : Key)
  | save (state : Inventory) (outcome : Except StateError Unit)

namespace Deed

/-- Whether the provider was called and succeeded. -/
def succeeds : Deed → Bool
  | create _ _ _ (.ok ()) _ => true
  | update _ _ _ _ (.ok ()) _ => true
  | delete _ _ (.ok ()) => true
  | _ => false

/-- Whether the state is saved. -/
def isSave : Deed → Bool
  | save _ _ => true
  | _ => false

/-- What a deed leaves recorded under a key, which is a resource as it was handed to the provider,
or nothing. -/
def leaves (key : Key) (before : Option Resource) : Deed → Option Resource
  | create other _ resource (.ok ()) _ => if other = key then some resource else before
  | update other _ _ resource (.ok ()) _ => if other = key then some resource else before
  | delete other _ (.ok ()) => if other = key then none else before
  | absent other => if other = key then none else before
  | _ => before

/-- What executing a change may do. -/
def Serves (change : PlannedChange) : Deed → Prop
  | reevaluate key => key = change.key ∧ change.kind ≠ .delete
  | create key _ _ _ _ => key = change.key ∧ (change.kind = .create ∨ change.kind = .replace)
  | update key _ _ _ _ _ => key = change.key ∧ change.kind = .update
  | delete key _ _ => key = change.key ∧ (change.kind = .delete ∨ change.kind = .replace)
  | absent key => key = change.key ∧ (change.kind = .delete ∨ change.kind = .replace)
  | save _ _ => True

end Deed

variable {ω : Type}

/-- Takes up a resource with the fields that the provider returned. -/
def Run.noting (run : Run ω) (file : Path) (resource : Resource) (fields : Bindings) (world : ω) :
    Run ω where
  pending := run.pending.insert file { resource with fields := fields }
  state := run.state.insert file { resource with fields := fields }
  world := world

/-- What each deed does to a run. -/
inductive Does (backing : Backing ω) : Run ω → Deed → Run ω → Prop
  | reevaluate (run : Run ω) (key : Key) :
      Does backing run (.reevaluate key)
        { run with pending := (Provision.reevaluate instanceDepth run.pending run.state key).2 }
  | created {run : Run ω} {key : Key} {file : Path} {resource : Resource} {fields : Bindings}
      {world : ω}
      (hfile : run.pending.fileOf? key = some file)
      (hresource : run.pending.resource? key = some resource)
      (hcall : backing.provider.create resource.call resource.fields run.world =
        ((.ok (), fields), world)) :
      Does backing run (.create key file resource (.ok ()) fields)
        (run.noting file resource fields world)
  | createFailed {run : Run ω} {key : Key} {file : Path} {resource : Resource} {message : String}
      {fields : Bindings} {world : ω}
      (hfile : run.pending.fileOf? key = some file)
      (hresource : run.pending.resource? key = some resource)
      (hcall : backing.provider.create resource.call resource.fields run.world =
        ((.error message, fields), world)) :
      Does backing run (.create key file resource (.error message) fields)
        { run with world := world }
  | updated {run : Run ω} {key : Key} {file : Path} {existing resource : Resource}
      {fields : Bindings} {world : ω}
      (hfile : run.pending.fileOf? key = some file)
      (hresource : run.pending.resource? key = some resource)
      (hexisting : run.state.resource? key = some existing)
      (hcall : backing.provider.update resource.call existing.fields resource.fields
        ((changedFields resource existing).map FieldChange.field) run.world =
          ((.ok (), fields), world)) :
      Does backing run (.update key file existing resource (.ok ()) fields)
        (run.noting file resource fields world)
  | updateFailed {run : Run ω} {key : Key} {file : Path} {existing resource : Resource}
      {message : String} {fields : Bindings} {world : ω}
      (hfile : run.pending.fileOf? key = some file)
      (hresource : run.pending.resource? key = some resource)
      (hexisting : run.state.resource? key = some existing)
      (hcall : backing.provider.update resource.call existing.fields resource.fields
        ((changedFields resource existing).map FieldChange.field) run.world =
          ((.error message, fields), world)) :
      Does backing run (.update key file existing resource (.error message) fields)
        { run with world := world }
  | deleted {run : Run ω} {key : Key} {resource : Resource} {world : ω}
      (hresource : run.state.resource? key = some resource)
      (hcall : backing.provider.delete resource.call resource.fields run.world = (.ok (), world)) :
      Does backing run (.delete key resource (.ok ()))
        { run with state := run.state.remove key, world := world }
  | deleteFailed {run : Run ω} {key : Key} {resource : Resource} {message : String} {world : ω}
      (hresource : run.state.resource? key = some resource)
      (hcall : backing.provider.delete resource.call resource.fields run.world =
        (.error message, world)) :
      Does backing run (.delete key resource (.error message)) { run with world := world }
  | absent {run : Run ω} {key : Key} (habsent : run.state.resource? key = none) :
      Does backing run (.absent key) run
  | save {run : Run ω} {state : Inventory} {outcome : Except StateError Unit} {world : ω}
      (hstate : state = withDeclarations run.pending run.state)
      (hcall : backing.save state run.world = (outcome, world)) :
      Does backing run (.save state outcome) { run with state := state, world := world }

/-- Some deeds done one after another. -/
inductive Course (backing : Backing ω) : Run ω → List Deed → Run ω → Prop
  | nil (run : Run ω) : Course backing run [] run
  | cons {run between after : Run ω} {deed : Deed} {deeds : List Deed}
      (hdoes : Does backing run deed between) (hrest : Course backing between deeds after) :
      Course backing run (deed :: deeds) after

/-- What some deeds leave recorded under a key, one after another. -/
def leftBy (deeds : List Deed) (key : Key) (before : Option Resource) : Option Resource :=
  deeds.foldl (Deed.leaves key) before

/-- Whatever was recorded before, the deeds leave one resource under a key. -/
def Stores (key : Key) (deeds : List Deed) : Prop :=
  ∃ resource, ∀ before, leftBy deeds key before = some resource

/-- Whatever was recorded before, the deeds leave nothing under a key. -/
def Drops (key : Key) (deeds : List Deed) : Prop :=
  ∀ before, leftBy deeds key before = none

/-- A workflow whose last stage creates the resource. -/
def Workflow.EndsWithCreate (workflow : Workflow) : Prop :=
  workflow.stages.getLast?.map Stage.action = some .create

/-- What the deeds of an applied change leave under its key.  A replacement is applied when all
stages of its workflow are done, whatever these are. -/
def Accomplishes (workflowFor : TypeName → Option Workflow) (change : PlannedChange)
    (deeds : List Deed) : Prop :=
  match change.kind with
  | .create | .update => Stores change.key deeds
  | .replace =>
    (∀ workflow, workflowFor change.key.type = some workflow → workflow.EndsWithCreate) →
      Stores change.key deeds
  | .delete => Drops change.key deeds

/-- A successful call is directly followed by a save. -/
def SavedAtOnce : List Deed → Prop
  | [] => True
  | deed :: rest =>
    (deed.succeeds = true → ∃ state outcome later, rest = .save state outcome :: later) ∧
      SavedAtOnce rest

/-- What the deeds of one change have in common. -/
structure Executes (change : PlannedChange) (deeds : List Deed) : Prop where
  serves : ∀ deed ∈ deeds, deed.Serves change
  saved : SavedAtOnce deeds
  /-- An update comes right after the evaluation and before the save. -/
  once : change.kind = .update →
    ∃ calls saves, deeds = .reevaluate change.key :: (calls ++ saves) ∧ calls.length ≤ 1 ∧
      (∀ deed ∈ saves, deed.isSave = true)

section Courses

variable {backing : Backing ω} {run between after : Run ω} {deeds more : List Deed}

theorem Course.append (hfirst : Course backing run deeds between)
    (hsecond : Course backing between more after) :
    Course backing run (deeds ++ more) after := by
  induction hfirst with
  | nil => exact hsecond
  | cons hdoes _ ih => exact .cons hdoes (ih hsecond)

/-- A course can be stopped after any of its deeds. -/
theorem Course.split (h : Course backing run (deeds ++ more) after) :
    ∃ between, Course backing run deeds between ∧ Course backing between more after := by
  induction deeds generalizing run with
  | nil => exact ⟨run, .nil run, h⟩
  | cons deed rest ih =>
    cases h with
    | cons hdoes hrest =>
      obtain ⟨middle, hfront, hback⟩ := ih hrest
      exact ⟨middle, .cons hdoes hfront, hback⟩

theorem Course.single {deed : Deed} (h : Does backing run deed after) :
    Course backing run [deed] after :=
  .cons h (.nil after)

theorem savedAtOnce_cons {deed : Deed} (hquiet : deed.succeeds = false) (h : SavedAtOnce deeds) :
    SavedAtOnce (deed :: deeds) := by
  refine ⟨?_, h⟩
  intro hsucceeds
  rw [hquiet] at hsucceeds
  cases hsucceeds

theorem SavedAtOnce.append (hdeeds : SavedAtOnce deeds) (hmore : SavedAtOnce more) :
    SavedAtOnce (deeds ++ more) := by
  induction deeds with
  | nil => exact hmore
  | cons deed rest ih =>
    refine ⟨?_, ih hdeeds.2⟩
    intro hsucceeds
    obtain ⟨state, outcome, later, rfl⟩ := hdeeds.1 hsucceeds
    exact ⟨state, outcome, later ++ more, rfl⟩

theorem SavedAtOnce.split {front back : List Deed} {deed : Deed}
    (h : SavedAtOnce (front ++ deed :: back)) (hsucceeds : deed.succeeds = true) :
    ∃ state outcome later, back = .save state outcome :: later := by
  induction front with
  | nil => exact h.1 hsucceeds
  | cons _ _ ih => exact ih h.2

theorem savedAtOnce_flatten {parts : List (List Deed)} (h : ∀ part ∈ parts, SavedAtOnce part) :
    SavedAtOnce parts.flatten := by
  induction parts with
  | nil => trivial
  | cons part rest ih =>
    rw [List.flatten_cons]
    refine (h part List.mem_cons_self).append (ih ?_)
    intro other hother
    exact h other (List.mem_cons_of_mem _ hother)

theorem leftBy_append (key : Key) (before : Option Resource) :
    leftBy (deeds ++ more) key before = leftBy more key (leftBy deeds key before) :=
  List.foldl_append

theorem Stores.of_leftBy_eq {key : Key} (h : Stores key deeds) (heq : leftBy more = leftBy deeds) :
    Stores key more := by
  unfold Stores
  rw [heq]
  exact h

theorem Stores.behind {key : Key} (h : Stores key more) (deeds : List Deed) :
    Stores key (deeds ++ more) := by
  obtain ⟨resource, hstored⟩ := h
  refine ⟨resource, fun before => ?_⟩
  rw [leftBy_append, hstored]

/-- A run leaves the workflows as they are. -/
theorem Does.workflowFor?_eq {deed : Deed} (h : Does backing run deed after) :
    after.pending.workflowFor? = run.pending.workflowFor? := by
  have hnoted (file : Path) (resource : Resource) :
      (run.pending.insert file resource).workflowFor? = run.pending.workflowFor? := by
    unfold Inventory.insert Inventory.ensureFile
    cases run.pending.indexOf? file <;> rfl
  cases h with
  | reevaluate key => exact workflowFor?_reevaluate _ _ _ key
  | created => exact hnoted _ _
  | updated => exact hnoted _ _
  | createFailed => rfl
  | updateFailed => rfl
  | deleted => rfl
  | deleteFailed => rfl
  | absent => rfl
  | save => rfl

theorem Course.workflowFor?_eq (h : Course backing run deeds after) :
    after.pending.workflowFor? = run.pending.workflowFor? := by
  induction h with
  | nil => rfl
  | cons hdoes _ ih => exact ih.trans hdoes.workflowFor?_eq

end Courses

/-! ## Calls -/

/-- What becomes of a step that does at most one deed, and succeeds only with one that meets its
goal. -/
inductive Tries (backing : Backing ω) (allowed goal : Deed → Prop) (run : Run ω) :
    Except ApplyError Unit × Run ω → Prop
  | refused (error : ApplyError) : Tries backing allowed goal run (.error error, run)
  | failed {deed : Deed} {after : Run ω} (error : ApplyError) (hdoes : Does backing run deed after)
      (hallowed : allowed deed) (hfailed : deed.succeeds = false) :
      Tries backing allowed goal run (.error error, after)
  | done {deed : Deed} {after : Run ω} (hdoes : Does backing run deed after)
      (hallowed : allowed deed) (hgoal : goal deed) :
      Tries backing allowed goal run (.ok (), after)

section Calls

variable (backing : Backing ω) (key : Key) (run : Run ω)

theorem run_act {α : Type} (action : ω → α × ω) :
    (RunStep.act action).run run =
      (.ok (action run.world).1, { run with world := (action run.world).2 }) :=
  rfl

theorem createResource_tries {change : PlannedChange} (hkey : key = change.key)
    (hkind : change.kind = .create ∨ change.kind = .replace) :
    Tries backing (Deed.Serves change) (fun deed => Stores key [deed]) run
      ((createResource backing key).run run) := by
  unfold createResource
  rw [run_bind_ok (run_get run)]
  cases hfile : run.pending.fileOf? key with
  | none => exact .refused _
  | some file =>
    cases hresource : run.pending.resource? key with
    | none => exact .refused _
    | some resource =>
      dsimp only
      split
      · exact .refused _
      · rw [run_bind_ok (run_act run _)]
        cases hcall : backing.provider.create resource.call resource.fields run.world with
        | mk answer world =>
          obtain ⟨outcome, fields⟩ := answer
          cases outcome with
          | error message =>
            exact .failed _ (.createFailed hfile hresource hcall) ⟨hkey, hkind⟩ rfl
          | ok =>
            exact .done (.created hfile hresource hcall) ⟨hkey, hkind⟩
              ⟨resource, fun _ => if_pos rfl⟩

theorem updateResource_tries {change : PlannedChange} (hkey : key = change.key)
    (hkind : change.kind = .update) :
    Tries backing (Deed.Serves change) (fun deed => Stores key [deed]) run
      ((updateResource backing key).run run) := by
  unfold updateResource
  rw [run_bind_ok (run_get run)]
  cases hfile : run.pending.fileOf? key with
  | none => exact .refused _
  | some file =>
    cases hresource : run.pending.resource? key with
    | none => exact .refused _
    | some resource =>
      cases hexisting : run.state.resource? key with
      | none => exact .refused _
      | some existing =>
        dsimp only
        split
        · exact .refused _
        · rw [run_bind_ok (run_act run _)]
          cases hcall : backing.provider.update resource.call existing.fields resource.fields
              ((changedFields resource existing).map FieldChange.field) run.world with
          | mk answer world =>
            obtain ⟨outcome, fields⟩ := answer
            cases outcome with
            | error message =>
              exact .failed _ (.updateFailed hfile hresource hexisting hcall) ⟨hkey, hkind⟩ rfl
            | ok =>
              exact .done (.updated hfile hresource hexisting hcall) ⟨hkey, hkind⟩
                ⟨resource, fun _ => if_pos rfl⟩

theorem deleteResource_tries {change : PlannedChange} (hkey : key = change.key)
    (hkind : change.kind = .delete ∨ change.kind = .replace) :
    Tries backing (Deed.Serves change) (fun deed => Drops key [deed]) run
      ((deleteResource backing key).run run) := by
  unfold deleteResource
  rw [run_bind_ok (run_get run)]
  cases hresource : run.state.resource? key with
  | none => exact .done (.absent hresource) ⟨hkey, hkind⟩ fun _ => if_pos rfl
  | some resource =>
    dsimp only
    split
    · exact .refused _
    · rw [run_bind_ok (run_act run _)]
      cases hcall : backing.provider.delete resource.call resource.fields run.world with
      | mk outcome world =>
        cases outcome with
        | error message =>
          exact .failed _ (.deleteFailed hresource hcall) ⟨hkey, hkind⟩ rfl
        | ok =>
          exact .done (.deleted hresource hcall) ⟨hkey, hkind⟩ fun _ => if_pos rfl

theorem persist_does :
    ∃ state outcome, Does backing run (.save state outcome) ((persist backing).run run).2 := by
  unfold persist
  rw [run_bind_ok (run_modify _ run), run_bind_ok (run_get _), run_bind_ok (run_act _ _)]
  cases hcall : backing.save (withDeclarations run.pending run.state) run.world with
  | mk outcome world =>
    refine ⟨withDeclarations run.pending run.state, outcome, ?_⟩
    cases outcome with
    | error e => exact .save rfl hcall
    | ok => exact .save rfl hcall

theorem refreshDeclaration_does :
    Does backing run (.reevaluate key) ((refreshDeclaration key).run run).2 :=
  .reevaluate run key

end Calls

/-! ## Changes -/

section Changes

variable {backing : Backing ω} {change : PlannedChange} {run : Run ω}

/-- The deeds of a call that is followed by a save: none, the call alone when it fails, or both.
When all succeeds, they leave behind what the call leaves. -/
theorem course_of_tries {step : RunStep ω Unit} {goal : Deed → Prop}
    (h : Tries backing (Deed.Serves change) goal run (step.run run)) :
    ∃ calls saves,
      Course backing run (calls ++ saves) ((do step; persist backing : RunStep ω Unit).run run).2 ∧
      (∀ deed ∈ calls ++ saves, deed.Serves change) ∧ SavedAtOnce (calls ++ saves) ∧
      calls.length ≤ 1 ∧ (∀ deed ∈ saves, deed.isSave = true) ∧
      (((do step; persist backing : RunStep ω Unit).run run).1 = .ok () →
        ∃ deed, goal deed ∧ leftBy (calls ++ saves) = leftBy [deed]) := by
  generalize hresult : step.run run = result at h
  cases h with
  | refused error =>
    rw [run_bind_error hresult]
    exact ⟨[], [], .nil run, by simp, trivial, by simp, by simp, fun hok => nomatch hok⟩
  | @failed deed after error hdoes hallowed hfailed =>
    rw [run_bind_error hresult]
    exact ⟨[deed], [], .single hdoes, by simpa using hallowed, savedAtOnce_cons hfailed trivial,
      by simp, by simp, fun hok => nomatch hok⟩
  | @done deed after hdoes hallowed hgoal =>
    rw [run_bind_ok hresult]
    obtain ⟨state, outcome, hsave⟩ := persist_does backing after
    refine ⟨[deed], [.save state outcome], .cons hdoes (.single hsave), ?_, ?_, by simp, by
      simp [Deed.isSave], fun _ => ⟨deed, hgoal, rfl⟩⟩
    · intro other hother
      rcases List.mem_cons.1 hother with rfl | hother
      · exact hallowed
      · rw [List.mem_singleton.1 hother]
        trivial
    · exact ⟨fun _ => ⟨state, outcome, [], rfl⟩, savedAtOnce_cons rfl trivial⟩

theorem runStage_course (backing : Backing ω) (hkind : change.kind = .replace) (stage : Stage)
    (run : Run ω) :
    ∃ deeds, Course backing run deeds ((runStage backing change.key stage).run run).2 ∧
      (∀ deed ∈ deeds, deed.Serves change) ∧ SavedAtOnce deeds ∧
      (((runStage backing change.key stage).run run).1 = .ok () → stage.action = .create →
        Stores change.key deeds) := by
  unfold runStage
  cases stage.action with
  | create =>
    obtain ⟨calls, saves, hcourse, hserves, hsaved, -, -, hdone⟩ :=
      course_of_tries (createResource_tries backing change.key run rfl (Or.inr hkind))
    refine ⟨calls ++ saves, hcourse, hserves, hsaved, ?_⟩
    intro hok _
    obtain ⟨deed, hstores, hsame⟩ := hdone hok
    exact hstores.of_leftBy_eq hsame
  | delete =>
    obtain ⟨calls, saves, hcourse, hserves, hsaved, -, -, -⟩ :=
      course_of_tries (deleteResource_tries backing change.key run rfl (Or.inr hkind))
    exact ⟨calls ++ saves, hcourse, hserves, hsaved, fun _ haction => nomatch haction⟩

/-- The course of the stages of a workflow.  When all are done, what the last one creates stays. -/
theorem runStages_course (backing : Backing ω) (hkind : change.kind = .replace) (workflow : String)
    (stages : List Stage) (run : Run ω) :
    ∃ deeds, Course backing run deeds
        ((runStages backing change.key workflow stages).run run).2 ∧
      (∀ deed ∈ deeds, deed.Serves change) ∧ SavedAtOnce deeds ∧
      (((runStages backing change.key workflow stages).run run).1.2 = none →
        stages.getLast?.map Stage.action = some .create → Stores change.key deeds) := by
  induction stages generalizing run with
  | nil => exact ⟨[], .nil run, by simp, trivial, fun _ hlast => nomatch hlast⟩
  | cons stage rest ih =>
    obtain ⟨deeds, hcourse, hserves, hsaved, hstored⟩ := runStage_course backing hkind stage run
    rcases hresult : (runStage backing change.key stage).run run with ⟨outcome, after⟩
    have hstate : (runStage backing change.key stage).run.run run = (outcome, after) := hresult
    rw [hresult] at hcourse hstored
    rw [runStages, run_bind_state, hstate]
    cases outcome with
    | error cause => exact ⟨deeds, hcourse, hserves, hsaved, fun hnone => nomatch hnone⟩
    | ok =>
      cases rest with
      | nil =>
        refine ⟨deeds, hcourse, hserves, hsaved, fun _ hlast => hstored rfl ?_⟩
        exact Option.some.inj hlast
      | cons next rest =>
        obtain ⟨more, hmore, hserves', hsaved', hstored'⟩ := ih after
        refine ⟨deeds ++ more, hcourse.append hmore, ?_, hsaved.append hsaved', ?_⟩
        · intro deed hdeed
          exact (List.mem_append.1 hdeed).elim (hserves deed) (hserves' deed)
        · intro hnone hlast
          rw [List.getLast?_cons_cons] at hlast
          exact (hstored' hnone hlast).behind deeds

theorem executePlain_run (step : RunStep ω Unit) (run : Run ω) :
    ((executePlain step).run run).2 = (step.run run).2 ∧
      (((executePlain step).run run).1.outcome = .ok true → (step.run run).1 = .ok ()) := by
  rcases hresult : step.run run with ⟨outcome, after⟩
  have hstate : step.run.run run = (outcome, after) := hresult
  unfold executePlain
  rw [run_bind_state, hstate]
  cases outcome with
  | error e => exact ⟨rfl, fun hok => nomatch hok⟩
  | ok => exact ⟨rfl, fun _ => rfl⟩

/-- The course of a change whose declaration is evaluated again before its one call. -/
theorem course_of_evaluated (hkind : change.kind ≠ .delete) {step : RunStep ω Unit}
    (htries : ∀ run, Tries backing (Deed.Serves change) (fun deed => Stores change.key [deed]) run
      (step.run run)) (run : Run ω) :
    ∃ deeds, Executes change deeds ∧
      Course backing run deeds
        ((executePlain do refreshDeclaration change.key; step; persist backing).run run).2 ∧
      (((executePlain do refreshDeclaration change.key; step; persist backing).run run).1.outcome =
        .ok true → Stores change.key deeds) := by
  obtain ⟨hafter, hok⟩ :=
    executePlain_run (do refreshDeclaration change.key; step; persist backing) run
  have hfirst := refreshDeclaration_does backing change.key run
  have hserves : (Deed.reevaluate change.key).Serves change := ⟨rfl, hkind⟩
  rw [hafter]
  rcases hresult : (refreshDeclaration change.key).run run with ⟨outcome, between⟩
  rw [hresult] at hfirst
  cases outcome with
  | error e =>
    rw [run_bind_error hresult] at hok ⊢
    exact ⟨[.reevaluate change.key],
      ⟨by simpa using hserves, savedAtOnce_cons rfl trivial,
        fun _ => ⟨[], [], rfl, by simp, by simp⟩⟩,
      .single hfirst, fun happlied => nomatch hok happlied⟩
  | ok =>
    rw [run_bind_ok hresult] at hok ⊢
    obtain ⟨calls, saves, hcourse, hall, hsaved, hlength, hsaves, hdone⟩ :=
      course_of_tries (htries between)
    refine ⟨.reevaluate change.key :: (calls ++ saves), ⟨?_, ?_, ?_⟩, .cons hfirst hcourse, ?_⟩
    · intro deed hdeed
      rcases List.mem_cons.1 hdeed with rfl | hdeed
      · exact hserves
      · exact hall deed hdeed
    · exact savedAtOnce_cons rfl hsaved
    · exact fun _ => ⟨calls, saves, rfl, hlength, hsaves⟩
    · intro happlied
      obtain ⟨deed, hstores, hsame⟩ := hdone (hok happlied)
      exact (hstores.of_leftBy_eq hsame).behind [.reevaluate change.key]

/-- The course of a replacement that has a workflow. -/
theorem course_of_replacement (hkind : change.kind = .replace) (backing : Backing ω)
    (workflow : Workflow) (run : Run ω) :
    let result := (do
      match ← (refreshDeclaration change.key).run with
      | .error e => pure ⟨[], .error e⟩
      | .ok () =>
        let (stages, failure) ← runStages backing change.key workflow.name workflow.stages
        match failure with
        | some e => pure ⟨stages, .error e⟩
        | none => pure ⟨stages, .ok true⟩ : StateM (Run ω) Executed).run run
    ∃ deeds, (∀ deed ∈ deeds, deed.Serves change) ∧ SavedAtOnce deeds ∧
      Course backing run deeds result.2 ∧
      (result.1.outcome = .ok true → workflow.EndsWithCreate → Stores change.key deeds) := by
  have hfirst := refreshDeclaration_does backing change.key run
  have hserves : (Deed.reevaluate change.key).Serves change := ⟨rfl, by simp [hkind]⟩
  rcases hresult : (refreshDeclaration change.key).run run with ⟨outcome, between⟩
  have hstate : (refreshDeclaration change.key).run.run run = (outcome, between) := hresult
  rw [hresult] at hfirst
  dsimp only
  rw [run_bind_state, hstate]
  cases outcome with
  | error e =>
    exact ⟨[.reevaluate change.key], by simpa using hserves, savedAtOnce_cons rfl trivial,
      .single hfirst, fun happlied => nomatch happlied⟩
  | ok =>
    obtain ⟨deeds, hcourse, hall, hsaved, hstored⟩ :=
      runStages_course backing hkind workflow.name workflow.stages between
    rcases hlater : (runStages backing change.key workflow.name workflow.stages).run between
      with ⟨⟨stages, failure⟩, after⟩
    rw [hlater] at hcourse hstored
    refine ⟨.reevaluate change.key :: deeds, ?_, savedAtOnce_cons rfl hsaved, ?_, ?_⟩
    · intro deed hdeed
      rcases List.mem_cons.1 hdeed with rfl | hdeed
      · exact hserves
      · exact hall deed hdeed
    · refine .cons hfirst ?_
      dsimp only
      rw [run_bind_state, hlater]
      cases failure <;> exact hcourse
    · dsimp only
      rw [run_bind_state, hlater]
      cases failure with
      | some e => exact fun happlied => nomatch happlied
      | none =>
        exact fun _ hends => (hstored rfl hends).behind [.reevaluate change.key]

/-- The course of one change, which does what it is there for when it is applied. -/
theorem executeChange_course (backing : Backing ω) (change : PlannedChange) (run : Run ω) :
    ∃ deeds, Executes change deeds ∧
      Course backing run deeds ((executeChange backing change).run run).2 ∧
      (((executeChange backing change).run run).1.outcome = .ok true →
        Accomplishes run.pending.workflowFor? change deeds) := by
  have hnever (hupdate : change.kind ≠ .update) {deeds : List Deed}
      (hserves : ∀ deed ∈ deeds, deed.Serves change) (hsaved : SavedAtOnce deeds) :
      Executes change deeds :=
    ⟨hserves, hsaved, fun hkind => absurd hkind hupdate⟩
  unfold executeChange Accomplishes
  cases hkind : change.kind with
  | create =>
    exact course_of_evaluated (by simp [hkind])
      (fun run => createResource_tries backing change.key run rfl (Or.inl hkind)) run
  | update =>
    exact course_of_evaluated (by simp [hkind])
      (fun run => updateResource_tries backing change.key run rfl hkind) run
  | delete =>
    obtain ⟨calls, saves, hcourse, hserves, hsaved, -, -, hdone⟩ :=
      course_of_tries (deleteResource_tries backing change.key run rfl (Or.inl hkind))
    obtain ⟨hafter, hok⟩ :=
      executePlain_run (do deleteResource backing change.key; persist backing) run
    refine ⟨calls ++ saves, hnever (by simp [hkind]) hserves hsaved, ?_, ?_⟩
    · dsimp only
      rw [hafter]
      exact hcourse
    · intro happlied
      obtain ⟨deed, hdrops, hsame⟩ := hdone (hok happlied)
      unfold Drops
      rw [hsame]
      exact hdrops
  | replace =>
    have hget : (get : StateM (Run ω) (Run ω)).run run = (run, run) := rfl
    dsimp only
    rw [run_bind_state, hget]
    dsimp only
    cases run.pending.workflowFor? change.key.type with
    | none =>
      exact ⟨[], hnever (by simp [hkind]) (by simp) trivial, .nil run, fun happlied => nomatch happlied⟩
    | some workflow =>
      obtain ⟨deeds, hserves, hsaved, hcourse, hstored⟩ :=
        course_of_replacement hkind backing workflow run
      exact ⟨deeds, hnever (by simp [hkind]) hserves hsaved, hcourse,
        fun happlied hends => hstored happlied (hends workflow rfl)⟩

/-! ## Plans -/

/-- The changes executed, each with its deeds. -/
abbrev Schedule := List (PlannedChange × List Deed)

/-- The deeds of a schedule, one after another. -/
def Schedule.deeds (schedule : Schedule) : List Deed :=
  (schedule.map Prod.snd).flatten

theorem Schedule.deeds_append (schedule other : Schedule) :
    Schedule.deeds (schedule ++ other) = schedule.deeds ++ other.deeds := by
  unfold Schedule.deeds
  rw [List.map_append, List.flatten_append]

/-- In a schedule with one change for each key, all changes around a given one are for other keys. -/
theorem Schedule.around {schedule : Schedule}
    (honce : ((schedule.map Prod.fst).map PlannedChange.key).Nodup)
    {part : PlannedChange × List Deed} (hpart : part ∈ schedule) :
    ∃ earlier later : Schedule, schedule = earlier ++ part :: later ∧
      schedule.deeds = earlier.deeds ++ (part.2 ++ later.deeds) ∧
      ∀ other ∈ earlier ++ later, other.1.key ≠ part.1.key := by
  obtain ⟨earlier, later, rfl⟩ := List.append_of_mem hpart
  refine ⟨earlier, later, rfl, ?_, ?_⟩
  · rw [deeds_append]
    rfl
  · intro other hother heq
    rw [List.map_map, List.map_append, List.map_cons, List.nodup_middle, List.nodup_cons,
      ← List.map_append] at honce
    exact honce.1 (List.mem_map.2 ⟨other, hother, heq⟩)

/-- A run follows a schedule that takes changes from a list, in order.  When every result says that
its change was applied, all changes of the list are taken and have done what they are there for. -/
def Follows (backing : Backing ω) (changes : List PlannedChange) (results : List ChangeResult)
    (run after : Run ω) : Prop :=
  ∃ schedule : Schedule, (schedule.map Prod.fst).Sublist changes ∧
    (∀ part ∈ schedule, Executes part.1 part.2) ∧ Course backing run schedule.deeds after ∧
    ((∀ result ∈ results, result.status = .applied) →
      schedule.map Prod.fst = changes ∧
        ∀ part ∈ schedule, Accomplishes run.pending.workflowFor? part.1 part.2)

/-- Nothing is done, either because there is nothing to do or because a change was not applied. -/
theorem follows_nothing (backing : Backing ω) {changes : List PlannedChange}
    {results : List ChangeResult} (run : Run ω)
    (h : (∀ result ∈ results, result.status = .applied) → changes = []) :
    Follows backing changes results run run :=
  ⟨[], List.nil_sublist _, by simp, .nil run, fun happlied => ⟨(h happlied).symm, by simp⟩⟩

theorem Follows.append {backing : Backing ω} {changes changes' : List PlannedChange}
    {results results' : List ChangeResult}
    {run between after : Run ω} (hfirst : Follows backing changes results run between)
    (hsecond : Follows backing changes' results' between after) :
    Follows backing (changes ++ changes') (results ++ results') run after := by
  obtain ⟨schedule, hsub, hexecutes, hcourse, hdone⟩ := hfirst
  obtain ⟨schedule', hsub', hexecutes', hcourse', hdone'⟩ := hsecond
  refine ⟨schedule ++ schedule', ?_, ?_, ?_, ?_⟩
  · rw [List.map_append]
    exact hsub.append hsub'
  · intro part hpart
    exact (List.mem_append.1 hpart).elim (hexecutes part) (hexecutes' part)
  · rw [Schedule.deeds_append]
    exact hcourse.append hcourse'
  · intro happlied
    obtain ⟨hall, haccomplished⟩ := hdone fun result hmem =>
      happlied result (List.mem_append_left _ hmem)
    obtain ⟨hall', haccomplished'⟩ := hdone' fun result hmem =>
      happlied result (List.mem_append_right _ hmem)
    refine ⟨by rw [List.map_append, hall, hall'], ?_⟩
    intro part hpart
    rcases List.mem_append.1 hpart with hpart | hpart
    · exact haccomplished part hpart
    · rw [← hcourse.workflowFor?_eq]
      exact haccomplished' part hpart

theorem follows_one {backing : Backing ω} {change : PlannedChange} {deeds : List Deed}
    {results : List ChangeResult} {run after : Run ω} (hexecutes : Executes change deeds)
    (hcourse : Course backing run deeds after)
    (hdone : (∀ result ∈ results, result.status = .applied) →
      Accomplishes run.pending.workflowFor? change deeds) :
    Follows backing [change] results run after := by
  refine ⟨[(change, deeds)], List.Sublist.refl _, by simpa using hexecutes, ?_, ?_⟩
  · simpa [Schedule.deeds] using hcourse
  · exact fun happlied => ⟨rfl, by simpa using hdone happlied⟩

/-- The changes of a group run one after another, all of them or the first few. -/
theorem runChanges_follows (backing : Backing ω) (failFast : Bool) (group : ChangeGroup)
    (changes : List PlannedChange) (run : Run ω) :
    Follows backing changes ((runChanges backing failFast group changes).run run).1.results run
      ((runChanges backing failFast group changes).run run).2 := by
  induction changes generalizing run with
  | nil => exact follows_nothing backing run fun _ => rfl
  | cons change rest ih =>
    obtain ⟨deeds, hexecutes, hcourse, hdone⟩ := executeChange_course backing change run
    rcases hresult : (executeChange backing change).run run with ⟨executed, between⟩
    rw [hresult] at hcourse hdone
    have hunlike (status : ChangeStatus) (hne : status ≠ .applied) (stages : List String)
        (error : Option String) :
        Follows backing [change] [resultFor change status stages error] run between :=
      follows_one hexecutes hcourse fun happlied => absurd (happlied _ List.mem_cons_self) hne
    rw [runChanges, run_bind_state, hresult]
    dsimp only
    split
    · next hok => exact (follows_one hexecutes hcourse fun _ => hdone hok).append (ih between)
    · exact (hunlike .skipped (by decide) _ _).append (ih between)
    · split
      · exact (hunlike .failed (by decide) _ _).append
          (follows_nothing backing between fun happlied => by
            cases rest with
            | nil => rfl
            | cons other rest => exact absurd (happlied _ List.mem_cons_self) (by simp [resultFor]))
      · exact (hunlike .failed (by decide) _ _).append (ih between)

theorem runGroup_follows (backing : Backing ω)
    (approve : ChangeGroup → List PlannedChange → Bool) (failFast : Bool) (plan : Plan)
    (group : ChangeGroup) (run : Run ω) :
    Follows backing (plan.changesIn group)
      ((runGroup backing approve failFast plan group).run run).1.results run
      ((runGroup backing approve failFast plan group).run run).2 := by
  unfold runGroup
  dsimp only
  split
  · next hempty => exact follows_nothing backing run fun _ => List.isEmpty_iff.1 hempty
  · split
    · exact runChanges_follows backing failFast group _ run
    · refine follows_nothing backing run fun happlied => ?_
      rw [List.eq_nil_iff_forall_not_mem]
      intro change hchange
      have hdeclined := happlied _ (List.mem_map_of_mem hchange)
      cases hdeclined

theorem runGroups_follows (backing : Backing ω)
    (approve : ChangeGroup → List PlannedChange → Bool) (failFast : Bool) (plan : Plan)
    (groups : List ChangeGroup) (run : Run ω) :
    Follows backing (groups.flatMap plan.changesIn)
      ((runGroups backing approve failFast plan groups).run run).1.results run
      ((runGroups backing approve failFast plan groups).run run).2 := by
  induction groups generalizing run with
  | nil => exact follows_nothing backing run fun _ => rfl
  | cons group rest ih =>
    rw [runGroups, run_bind_state, List.flatMap_cons]
    exact (runGroup_follows backing approve failFast plan group run).append (ih _)

/-- A run of a plan follows a schedule of its changes, group by group. -/
theorem applyPlan_follows (backing : Backing ω)
    (approve : ChangeGroup → List PlannedChange → Bool) (failFast : Bool) (plan : Plan)
    (run : Run ω) :
    Follows backing (ChangeGroup.all.flatMap plan.changesIn)
      (applyPlan backing approve failFast plan run).1.results run
      (applyPlan backing approve failFast plan run).2 :=
  runGroups_follows backing approve failFast plan ChangeGroup.all run

end Changes

end Provision

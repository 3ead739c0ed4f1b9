import Provision.Proofs.Apply.Account
import Provision.Proofs.Apply.Settling
import Provision.Proofs.Evaluation.Quiet
import Provision.Proofs.Value

/-!
# A run that is fully applied leaves nothing to do

Without blocks inside resource bodies a change touches no key but its own, in
either inventory.  A change that is applied leaves the same resource under its
key in both, or nothing at all.  So when every change of a plan was applied and
nothing is evaluated anew, the two inventories do not differ.
-/

namespace Provision

/-! ## Evaluating a declaration without blocks -/

/-- No body that a resource was evaluated from has a resource block in it. -/
def Inventory.Blockless (inventory : Inventory) : Prop :=
  ∀ resource ∈ inventory.resources, ∀ declaration ∈ resource.declaration,
    typesInAll declaration.body = []

/-- Evaluating a declaration without blocks again changes at most the resource it declares, which
keeps its key, its file and its declaration. -/
theorem reevaluate_blockless (depth : Nat) {pending : Inventory} (current : Inventory) {key : Key}
    (h : ∀ resource declaration, pending.resource? key = some resource →
      resource.declaration = some declaration → typesInAll declaration.body = []) :
    (reevaluate depth pending current key).2 = pending ∨
      ∃ index resource declaration again, pending.fileIndexOf? key = some index ∧
        pending.resource? key = some resource ∧ resource.declaration = some declaration ∧
        again.key = key ∧ again.declaration = some declaration ∧
        (reevaluate depth pending current key).2 = pending.insertAt index again := by
  unfold reevaluate
  split
  · next resource index hresource hindex =>
    split
    · exact Or.inl rfl
    · next declaration hdeclaration =>
      have hquiet := (resourceBody_quiet
        ⟨index, declaration.qualifier, true, declaration.inherited, []⟩
        (runMarked_quiet (Evaluator.atDepth ⟨.configuration, some current, []⟩ depth)
          (h resource declaration hresource hdeclaration)
          ⟨index, declaration.qualifier, true, declaration.inherited, []⟩)).inventory
        ⟨pending, [], Scope.withValues declaration.bindings, [], none⟩
      dsimp only at hquiet ⊢
      generalize (resourceBody _ _).run _ = result at hquiet ⊢
      obtain ⟨outcome, after⟩ := result
      dsimp only at hquiet
      rcases outcome with (reasons | e) | body
      · exact Or.inl hquiet
      · exact Or.inl hquiet
      · dsimp only
        split
        · exact Or.inl hquiet
        · next again hfinished =>
          obtain ⟨hagainKey, -⟩ := identity_of_finishResource hfinished
          exact Or.inr ⟨index, resource, declaration, { again with declaration := some declaration },
            hindex, hresource, hdeclaration, hagainKey, rfl, hquiet ▸ rfl⟩
  · exact Or.inl rfl

/-! ## What a change touches -/

namespace Contents

/-- The two hold the same under every key but one. -/
def SameApartFrom (key : Key) (contents other : Contents) : Prop :=
  ∀ path, ∀ held ≠ key, ∀ found, contents path held found ↔ other path held found

variable {key : Key} {a b c : Contents}

theorem SameApartFrom.refl (key : Key) (a : Contents) : SameApartFrom key a a :=
  fun _ _ _ _ => Iff.rfl

theorem SameApartFrom.trans (hab : SameApartFrom key a b) (hbc : SameApartFrom key b c) :
    SameApartFrom key a c :=
  fun path held hne found => (hab path held hne found).trans (hbc path held hne found)

theorem sameApartFrom_store {resource : Resource} (hkey : resource.key = key) (a : Contents)
    (file : Path) :
    SameApartFrom key (a.store file resource) a := by
  intro path held hne found
  unfold store
  rw [if_neg (hkey ▸ hne)]

theorem sameApartFrom_drop (key : Key) (a : Contents) : SameApartFrom key (a.drop key) a :=
  fun _ _ hne _ => ⟨And.right, fun hheld => ⟨hne, hheld⟩⟩

end Contents

/-- Either inventory holds each key once, and no declaration has a block in its body. -/
structure Run.Tidy {ω : Type} (run : Run ω) : Prop where
  pending : run.pending.OneHome
  state : run.state.OneHome
  blockless : run.pending.Blockless

/-- What has happened concerns one key only. -/
structure Touches {ω : Type} (key : Key) (before after : Run ω) : Prop where
  tidy : after.Tidy
  pending : after.pending.contents.SameApartFrom key before.pending.contents
  state : after.state.contents.SameApartFrom key before.state.contents

section Touching

variable {ω : Type} {backing : Backing ω} {run between after : Run ω} {key : Key}

theorem Touches.refl (h : run.Tidy) (key : Key) : Touches key run run :=
  ⟨h, .refl _ _, .refl _ _⟩

theorem Touches.trans (hfirst : Touches key run between) (hsecond : Touches key between after) :
    Touches key run after :=
  ⟨hsecond.tidy, hsecond.pending.trans hfirst.pending, hsecond.state.trans hfirst.state⟩

theorem Inventory.OneHome.mem_resources_iff {inventory : Inventory} (h : inventory.OneHome)
    {resource : Resource} :
    resource ∈ inventory.resources ↔ ∃ path, inventory.contents path resource.key resource := by
  rw [← h.resource?_iff_contents, h.resource?_eq_some_iff]
  exact (and_iff_left rfl).symm

/-- Storing a resource with the declaration of one that was there brings in no block. -/
theorem Inventory.Blockless.store {pending after : Inventory} (h : pending.Blockless)
    (hpending : pending.OneHome) (hafter : after.OneHome) {file : Path} {again : Resource}
    (hagain : ∀ declaration ∈ again.declaration, typesInAll declaration.body = [])
    (hcontents : after.contents = pending.contents.store file again) :
    after.Blockless := by
  intro resource hresource declaration hdeclaration
  rw [hafter.mem_resources_iff, hcontents] at hresource
  obtain ⟨path, hheld⟩ := hresource
  unfold Contents.store at hheld
  split at hheld
  · exact hagain declaration (hheld.2 ▸ hdeclaration)
  · exact h resource (hpending.mem_resources_iff.2 ⟨path, hheld⟩) declaration hdeclaration

theorem Inventory.Blockless.of_resource? {pending : Inventory} (h : pending.Blockless)
    (hpending : pending.OneHome) {resource : Resource} (hresource : pending.resource? key = some resource) :
    resource.key = key ∧ ∀ declaration ∈ resource.declaration, typesInAll declaration.body = [] := by
  obtain ⟨hmem, hkey⟩ := hpending.resource?_eq_some_iff.1 hresource
  exact ⟨hkey, h resource hmem⟩

/-- Evaluating the declaration of a key again touches that key only. -/
theorem touches_reevaluate (h : run.Tidy) (key : Key) :
    Touches key run
      { run with pending := (reevaluate instanceDepth run.pending run.state key).2 } := by
  rcases reevaluate_blockless instanceDepth run.state
    (fun resource declaration hresource hdeclaration =>
      (h.blockless.of_resource? h.pending hresource).2 declaration hdeclaration) with
    hsame | ⟨index, resource, declaration, again, hindex, hresource, hdeclared, hkey, hagain, hafter⟩
  · rw [hsame]
    exact .refl h key
  · rw [hafter]
    obtain ⟨hlt, -⟩ := List.findIdx?_eq_some_iff_getElem.1 hindex
    have hcontents : (run.pending.insertAt index again).contents =
        run.pending.contents.store run.pending.files[index].path again := by
      funext path held found
      apply propext
      exact Inventory.holds_insertAt h.pending.distinct hlt
    have hhome := Inventory.oneHome_insertAt h.pending index again
    refine ⟨⟨hhome, h.state, h.blockless.store h.pending hhome (fun other hother => ?_) hcontents⟩,
      ?_, .refl _ _⟩
    · obtain rfl : declaration = other := Option.some.inj (hagain.symm.trans hother)
      exact (h.blockless.of_resource? h.pending hresource).2 declaration hdeclared
    · dsimp only
      rw [hcontents]
      exact Contents.sameApartFrom_store hkey _ _

theorem refreshDeclaration_tidy (h : run.Tidy) {outcome : Except ApplyError Unit}
    (hresult : (refreshDeclaration key).run run = (outcome, between)) :
    between.Tidy := by
  obtain rfl : _ = between := congrArg Prod.snd hresult
  exact (touches_reevaluate h key).tidy

/-- Noting what the provider returned touches the key of the resource only. -/
theorem touches_noting (h : run.Tidy) {resource : Resource}
    (hresource : run.pending.resource? key = some resource) (file : Path) (fields : Bindings)
    (world : ω) :
    Touches key run (run.noting file resource fields world) := by
  obtain ⟨hkey, hblockless⟩ := h.blockless.of_resource? h.pending hresource
  let noted : Resource := { resource with fields := fields }
  have hnotedKey : noted.key = key := hkey
  have hhome := Inventory.oneHome_insert h.pending file noted
  have hcontents := contents_insert h.pending.distinct file noted
  have hnoted : ∀ declaration ∈ noted.declaration, typesInAll declaration.body = [] := hblockless
  have hafter : (run.pending.insert file noted).Blockless :=
    h.blockless.store h.pending hhome hnoted hcontents
  refine ⟨⟨hhome, Inventory.oneHome_insert h.state file noted, hafter⟩, ?_, ?_⟩
  · show Contents.SameApartFrom key (run.pending.insert file noted).contents _
    rw [hcontents]
    exact Contents.sameApartFrom_store hnotedKey _ _
  · show Contents.SameApartFrom key (run.state.insert file noted).contents _
    rw [contents_insert h.state.distinct]
    exact Contents.sameApartFrom_store hnotedKey _ _

/-- What leaves the pending side as it is touches no more than it touches in the state. -/
theorem touches_of_pending_eq (h : run.Tidy) (hpending : after.pending = run.pending)
    (hhome : after.state.OneHome)
    (hstate : after.state.contents.SameApartFrom key run.state.contents) :
    Touches key run after := by
  refine ⟨⟨hpending ▸ h.pending, hhome, hpending ▸ h.blockless⟩, ?_, hstate⟩
  rw [hpending]
  exact .refl _ _

/-- What serves a change touches the key of the change only. -/
theorem Does.touches {change : PlannedChange} {deed : Deed} (h : Does backing run deed after)
    (hserves : deed.Serves change) (htidy : run.Tidy) :
    Touches change.key run after := by
  cases h with
  | reevaluate key => exact hserves.1 ▸ touches_reevaluate htidy key
  | created hfile hresource hcall => exact hserves.1 ▸ touches_noting htidy hresource _ _ _
  | updated hfile hresource hexisting hcall =>
    exact hserves.1 ▸ touches_noting htidy hresource _ _ _
  | deleted =>
    refine touches_of_pending_eq htidy rfl (Inventory.oneHome_remove htidy.state _) ?_
    dsimp only
    rw [contents_remove htidy.state]
    exact hserves.1 ▸ Contents.sameApartFrom_drop _ _
  | save hstate hcall =>
    subst hstate
    refine touches_of_pending_eq htidy rfl (oneHome_withDeclarations htidy.state _) ?_
    dsimp only
    rw [contents_withDeclarations]
    exact .refl _ _
  | createFailed => exact touches_of_pending_eq htidy rfl htidy.state (.refl _ _)
  | updateFailed => exact touches_of_pending_eq htidy rfl htidy.state (.refl _ _)
  | deleteFailed => exact touches_of_pending_eq htidy rfl htidy.state (.refl _ _)
  | absent => exact .refl htidy _

theorem Course.touches {change : PlannedChange} {deeds : List Deed}
    (h : Course backing run deeds after) (hserves : ∀ deed ∈ deeds, deed.Serves change)
    (htidy : run.Tidy) :
    Touches change.key run after := by
  induction h with
  | nil => exact .refl htidy _
  | cons hdoes _ ih =>
    have hfirst := hdoes.touches (hserves _ List.mem_cons_self) htidy
    exact hfirst.trans (ih (fun deed hdeed => hserves deed (List.mem_cons_of_mem _ hdeed)) hfirst.tidy)

end Touching

/-! ## What an applied change leaves -/

/-- The provider can answer with the fields when it creates or changes something. -/
def Provider.Answers {ω : Type} (provider : Provider ω) (fields : Bindings) : Prop :=
  (∃ call given world after, provider.create call given world = ((.ok (), fields), after)) ∨
    ∃ call existing given changed world after,
      provider.update call existing given changed world = ((.ok (), fields), after)

/-- Under the key the contents have the resource in the file, and nothing else. -/
def Contents.HasOnly (contents : Contents) (key : Key) (file : Path) (resource : Resource) : Prop :=
  ∀ path found, contents path key found ↔ file.same path = true ∧ found = resource

/-- Both inventories hold the same resource under the key, in the same file, with fields that the
provider has answered. -/
def Run.Agrees {ω : Type} (provider : Provider ω) (key : Key) (run : Run ω) : Prop :=
  ∃ file resource, run.pending.contents.HasOnly key file resource ∧
    run.state.contents.HasOnly key file resource ∧ provider.Answers resource.fields

section Applied

variable {ω : Type} {backing : Backing ω} {run between after : Run ω} {key : Key}
  {change : PlannedChange}

theorem Contents.hasOnly_store (contents : Contents) (file : Path) (resource : Resource) :
    (contents.store file resource).HasOnly resource.key file resource := by
  intro path found
  unfold Contents.store
  rw [if_pos rfl]

theorem Run.Agrees.of_contents (h : run.Agrees backing.provider key)
    (hpending : after.pending.contents = run.pending.contents)
    (hstate : after.state.contents = run.state.contents) :
    after.Agrees backing.provider key := by
  obtain ⟨file, resource, hheld, hrecorded, hanswers⟩ := h
  exact ⟨file, resource, hpending ▸ hheld, hstate ▸ hrecorded, hanswers⟩

theorem agrees_noting (htidy : run.Tidy) {resource : Resource}
    (hresource : run.pending.resource? key = some resource) (file : Path) {fields : Bindings}
    (hfields : backing.provider.Answers fields) (world : ω) :
    (run.noting file resource fields world).Agrees backing.provider key := by
  obtain ⟨-, rfl⟩ := htidy.pending.resource?_eq_some_iff.1 hresource
  let noted : Resource := { resource with fields := fields }
  refine ⟨file, noted, ?_, ?_, hfields⟩
  · show (run.pending.insert file noted).contents.HasOnly noted.key file noted
    rw [contents_insert htidy.pending.distinct]
    exact Contents.hasOnly_store _ _ _
  · show (run.state.insert file noted).contents.HasOnly noted.key file noted
    rw [contents_insert htidy.state.distinct]
    exact Contents.hasOnly_store _ _ _

/-- A deed that stores something under a key leaves the same there in both inventories. -/
theorem Does.agrees {deed : Deed} (h : Does backing run deed after) (htidy : run.Tidy)
    (hstores : Stores key [deed]) :
    after.Agrees backing.provider key := by
  obtain ⟨stored, hstored⟩ := hstores
  have hempty := hstored none
  cases h with
  | @created other file resource fields world hfile hresource hcall =>
    have hkey : other = key := by
      by_contra hne
      rw [show leftBy _ key none = if other = key then some resource else none from rfl,
        if_neg hne] at hempty
      cases hempty
    exact hkey ▸ agrees_noting htidy hresource file (Or.inl ⟨_, _, _, _, hcall⟩) world
  | @updated other file existing resource fields world hfile hresource hexisting hcall =>
    have hkey : other = key := by
      by_contra hne
      rw [show leftBy _ key none = if other = key then some resource else none from rfl,
        if_neg hne] at hempty
      cases hempty
    exact hkey ▸ agrees_noting htidy hresource file (Or.inr ⟨_, _, _, _, _, _, hcall⟩) world
  | @deleted other resource world hresource hcall =>
    rw [show leftBy _ key none = if other = key then none else none from rfl, ite_self] at hempty
    cases hempty
  | absent =>
    rw [show leftBy _ key none = if _ = key then none else none from rfl, ite_self] at hempty
    cases hempty
  | reevaluate => cases hempty
  | createFailed => cases hempty
  | updateFailed => cases hempty
  | deleteFailed => cases hempty
  | save => cases hempty

theorem Run.Agrees.persist (h : run.Agrees backing.provider key) :
    ((persist backing).run run).2.Agrees backing.provider key := by
  obtain ⟨state, outcome, hsave⟩ := persist_does backing run
  generalize ((Provision.persist backing).run run).2 = after at hsave ⊢
  cases hsave with
  | save hstate =>
    subst hstate
    exact h.of_contents rfl (contents_withDeclarations _ _)

/-- A call that is saved leaves the same under its key in both inventories, when it succeeds with a
deed that stores something there. -/
theorem agrees_of_tries {step : RunStep ω Unit}
    (htries : Tries backing (Deed.Serves change) (fun deed => Stores change.key [deed]) run
      (step.run run)) (htidy : run.Tidy)
    (hok : ((do step; persist backing : RunStep ω Unit).run run).1 = .ok ()) :
    ((do step; persist backing : RunStep ω Unit).run run).2.Agrees backing.provider change.key := by
  generalize hresult : step.run run = result at htries
  cases htries with
  | refused error =>
    rw [run_bind_error hresult] at hok
    cases hok
  | failed error hdoes hallowed hfailed =>
    rw [run_bind_error hresult] at hok
    cases hok
  | done hdoes hallowed hgoal =>
    rw [run_bind_ok hresult]
    exact (hdoes.agrees htidy hgoal).persist

/-- The same for a call that follows upon evaluating the declaration again. -/
theorem agrees_of_evaluated {step : RunStep ω Unit}
    (htries : ∀ run, Tries backing (Deed.Serves change) (fun deed => Stores change.key [deed]) run
      (step.run run)) (htidy : run.Tidy)
    (hok : ((executePlain do refreshDeclaration change.key; step; persist backing).run run).1.outcome =
      .ok true) :
    ((executePlain do refreshDeclaration change.key; step; persist backing).run run).2.Agrees
      backing.provider change.key := by
  obtain ⟨hafter, hdone⟩ :=
    executePlain_run (do refreshDeclaration change.key; step; persist backing) run
  rw [hafter]
  have hsucceeds := hdone hok
  rcases hresult : (refreshDeclaration change.key).run run with ⟨outcome, between⟩
  have hbetween := refreshDeclaration_tidy htidy hresult
  cases outcome with
  | error e =>
    rw [run_bind_error hresult] at hsucceeds
    cases hsucceeds
  | ok =>
    rw [run_bind_ok hresult] at hsucceeds ⊢
    exact agrees_of_tries (htries between) hbetween hsucceeds

theorem runStages_agrees (backing : Backing ω) (hkind : change.kind = .replace)
    (workflow : String) {stages : List Stage} (htidy : run.Tidy)
    (hlast : stages.getLast?.map Stage.action = some .create)
    (hok : ((runStages backing change.key workflow stages).run run).1.2 = none) :
    ((runStages backing change.key workflow stages).run run).2.Agrees backing.provider change.key := by
  induction stages generalizing run with
  | nil => cases hlast
  | cons stage rest ih =>
    obtain ⟨deeds, hcourse, hserves, -, -⟩ := runStage_course backing hkind stage run
    have htouched := hcourse.touches hserves htidy
    rcases hresult : (runStage backing change.key stage).run run with ⟨outcome, between⟩
    have hstate : (runStage backing change.key stage).run.run run = (outcome, between) := hresult
    rw [hresult] at htouched
    rw [runStages, run_bind_state, hstate] at hok ⊢
    cases outcome with
    | error cause => cases hok
    | ok =>
      cases rest with
      | nil =>
        have hcreate : stage.action = .create := Option.some.inj hlast
        unfold runStage at hresult
        rw [hcreate] at hresult
        have htries := createResource_tries backing change.key run rfl (Or.inr hkind)
        exact (congrArg Prod.snd hresult) ▸
          agrees_of_tries htries htidy (congrArg Prod.fst hresult)
      | cons next rest =>
        rw [List.getLast?_cons_cons] at hlast
        exact ih htouched.tidy hlast hok

/-- An applied change that deletes nothing leaves the same under its key in both inventories. -/
theorem executeChange_agrees (htidy : run.Tidy)
    (hkind : change.kind ≠ .delete)
    (hworkflow : change.kind = .replace → ∀ workflow,
      run.pending.workflowFor? change.key.type = some workflow → workflow.EndsWithCreate)
    (hok : ((executeChange backing change).run run).1.outcome = .ok true) :
    ((executeChange backing change).run run).2.Agrees backing.provider change.key := by
  unfold executeChange at hok ⊢
  cases hcase : change.kind with
  | create =>
    rw [hcase] at hok
    exact agrees_of_evaluated
      (fun run => createResource_tries backing change.key run rfl (Or.inl hcase)) htidy hok
  | update =>
    rw [hcase] at hok
    exact agrees_of_evaluated
      (fun run => updateResource_tries backing change.key run rfl hcase) htidy hok
  | delete => exact absurd hcase hkind
  | replace =>
    rw [hcase] at hok
    have hget : (get : StateM (Run ω) (Run ω)).run run = (run, run) := rfl
    dsimp only at hok ⊢
    rw [run_bind_state, hget] at hok ⊢
    dsimp only at hok ⊢
    cases hfound : run.pending.workflowFor? change.key.type with
    | none =>
      rw [hfound] at hok
      cases hok
    | some workflow =>
      rw [hfound] at hok
      rcases hresult : (refreshDeclaration change.key).run run with ⟨outcome, between⟩
      have hstate : (refreshDeclaration change.key).run.run run = (outcome, between) := hresult
      have hbetween := refreshDeclaration_tidy htidy hresult
      dsimp only at hok ⊢
      rw [run_bind_state, hstate] at hok ⊢
      cases outcome with
      | error e => cases hok
      | ok =>
        dsimp only at hok ⊢
        rw [run_bind_state] at hok ⊢
        have hagrees := runStages_agrees backing hcase workflow.name hbetween
          (hworkflow hcase workflow hfound)
        rcases hstages : (runStages backing change.key workflow.name workflow.stages).run between
          with ⟨⟨stages, failure⟩, last⟩
        rw [hstages] at hok hagrees
        cases failure with
        | some e => cases hok
        | none => exact hagrees rfl

theorem deleteResource_absent (hstate : run.state.OneHome)
    (h : (deleteResource backing key).run run = (.ok (), after)) :
    after.pending = run.pending ∧ after.state.OneHome ∧ after.state.resource? key = none := by
  unfold deleteResource at h
  rw [run_bind_ok (run_get run)] at h
  cases hresource : run.state.resource? key with
  | none =>
    rw [hresource] at h
    cases h
    exact ⟨rfl, hstate, hresource⟩
  | some resource =>
    rw [hresource] at h
    dsimp only at h
    split at h
    · cases h
    · rw [run_bind_ok (run_act run _)] at h
      cases hcall : backing.provider.delete resource.call resource.fields run.world with
      | mk outcome world =>
        rw [hcall] at h
        cases outcome with
        | error message => cases h
        | ok =>
          cases h
          have hafter := Inventory.oneHome_remove hstate key
          refine ⟨rfl, hafter, ?_⟩
          rw [resource?_of_drop hstate hafter (contents_remove hstate key), if_pos rfl]

/-- An applied deletion leaves the key out of the state and the pending side as it was. -/
theorem executeChange_deletes (hstate : run.state.OneHome) (hkind : change.kind = .delete)
    (hok : ((executeChange backing change).run run).1.outcome = .ok true) :
    ((executeChange backing change).run run).2.pending = run.pending ∧
      ((executeChange backing change).run run).2.state.has change.key = false := by
  obtain ⟨hafter, hdone⟩ :=
    executePlain_run (do deleteResource backing change.key; persist backing) run
  unfold executeChange at hok ⊢
  rw [hkind] at hok ⊢
  have hsucceeds := hdone hok
  dsimp only
  rw [hafter]
  rcases hresult : (deleteResource backing change.key).run run with ⟨outcome, between⟩
  cases outcome with
  | error e =>
    rw [run_bind_error hresult] at hsucceeds
    cases hsucceeds
  | ok =>
    rw [run_bind_ok hresult]
    obtain ⟨hpending, hhome, habsent⟩ := deleteResource_absent hstate hresult
    obtain ⟨state, outcome, hsave⟩ := persist_does backing between
    generalize ((persist backing).run between).2 = last at hsave ⊢
    cases hsave with
    | save hsaved =>
      subst hsaved
      refine ⟨hpending, (Inventory.has_eq_false_iff _ _).2 ?_⟩
      rw [resource?_of_contents hhome (oneHome_withDeclarations hhome _)
        (contents_withDeclarations _ _)]
      exact habsent

end Applied

/-! ## A whole plan -/

/-- Both inventories hold under the key what those of another run hold. -/
structure Run.SameAt {ω : Type} (key : Key) (run other : Run ω) : Prop where
  pending : ∀ path found, run.pending.contents path key found ↔ other.pending.contents path key found
  state : ∀ path found, run.state.contents path key found ↔ other.state.contents path key found

section Plans

variable {ω : Type} {backing : Backing ω} {run between after : Run ω} {key : Key}
  {turns : List (Turn ω)}

theorem Run.SameAt.refl (key : Key) (run : Run ω) : run.SameAt key run :=
  ⟨fun _ _ => Iff.rfl, fun _ _ => Iff.rfl⟩

theorem Run.SameAt.trans (hfirst : run.SameAt key between) (hsecond : between.SameAt key after) :
    run.SameAt key after :=
  ⟨fun path found => (hfirst.pending path found).trans (hsecond.pending path found),
    fun path found => (hfirst.state path found).trans (hsecond.state path found)⟩

theorem Touches.sameAt {touched : Key} (h : Touches touched run after) (hne : key ≠ touched) :
    after.SameAt key run :=
  ⟨fun path found => h.pending path key hne found, fun path found => h.state path key hne found⟩

theorem resource?_of_same {inventory other : Inventory} (hhome : inventory.OneHome)
    (hother : other.OneHome)
    (h : ∀ path found, inventory.contents path key found ↔ other.contents path key found) :
    inventory.resource? key = other.resource? key := by
  apply Option.ext
  intro found
  rw [hhome.resource?_iff_contents, hother.resource?_iff_contents]
  exact exists_congr fun path => h path found

theorem Contents.HasOnly.resource? {inventory : Inventory} (hhome : inventory.OneHome) {file : Path}
    {resource : Resource} (h : inventory.contents.HasOnly key file resource) :
    inventory.resource? key = some resource :=
  hhome.resource?_iff_contents.2 ⟨file, (h file resource).2 ⟨Path.same_iff.2 rfl, rfl⟩⟩

theorem Run.Agrees.of_sameAt (h : run.Agrees backing.provider key) (hsame : after.SameAt key run) :
    after.Agrees backing.provider key := by
  obtain ⟨file, resource, hpending, hstate, hanswers⟩ := h
  exact ⟨file, resource, fun path found => (hsame.pending path found).trans (hpending path found),
    fun path found => (hsame.state path found).trans (hstate path found), hanswers⟩

theorem Turn.Attempted.touches {turn : Turn ω} (h : turn.Attempted backing)
    (htidy : turn.before.Tidy) : Touches turn.change.key turn.before turn.after :=
  h.course.touches h.executes.serves htidy

/-- Turns change nothing under a key that is not theirs. -/
theorem InTurn.sameAt (h : InTurn run turns after)
    (hattempted : ∀ turn ∈ turns, turn.Attempted backing) (htidy : run.Tidy) :
    after.Tidy ∧ ∀ key, (∀ turn ∈ turns, turn.change.key ≠ key) → after.SameAt key run := by
  induction h with
  | nil => exact ⟨htidy, fun key _ => .refl key _⟩
  | @cons turn turns after hrest ih =>
    have htouches := (hattempted turn List.mem_cons_self).touches htidy
    obtain ⟨hafter, hsame⟩ :=
      ih (fun other hother => hattempted other (List.mem_cons_of_mem _ hother)) htouches.tidy
    refine ⟨hafter, fun key hothers => ?_⟩
    have hfirst := htouches.sameAt (Ne.symm (hothers turn List.mem_cons_self))
    exact (hsame key fun other hother => hothers other (List.mem_cons_of_mem _ hother)).trans hfirst

/-- When each key has one turn, what the turn found and left under its key is what was there before
all turns and what is there after them. -/
theorem InTurn.around (h : InTurn run turns after)
    (hattempted : ∀ turn ∈ turns, turn.Attempted backing) (htidy : run.Tidy)
    (honce : (turns.map fun turn => turn.change.key).Nodup) {turn : Turn ω} (hturn : turn ∈ turns) :
    turn.before.Tidy ∧ turn.before.SameAt turn.change.key run ∧
      after.SameAt turn.change.key turn.after := by
  obtain ⟨front, back, rfl⟩ := List.append_of_mem hturn
  obtain ⟨hfront, hback⟩ := h.split
  rw [List.map_append, List.map_cons, List.nodup_middle, List.nodup_cons, ← List.map_append] at honce
  have hothers : ∀ other ∈ front ++ back, other.change.key ≠ turn.change.key :=
    fun other hother heq => honce.1 (List.mem_map.2 ⟨other, hother, heq⟩)
  obtain ⟨hbefore, hsameBefore⟩ :=
    hfront.sameAt (fun other hother => hattempted other (List.mem_append_left _ hother)) htidy
  have htouches := (hattempted turn hturn).touches hbefore
  obtain ⟨-, hsameAfter⟩ := hback.sameAt (fun other hother =>
    hattempted other (List.mem_append_right _ (List.mem_cons_of_mem _ hother))) htouches.tidy
  exact ⟨hbefore, hsameBefore _ fun other hother => hothers other (List.mem_append_left _ hother),
    hsameAfter _ fun other hother => hothers other (List.mem_append_right _ hother)⟩

/-- A resource with definite values does not differ from itself. -/
theorem changedFields_self {resource : Resource}
    (h : ∀ field ∈ resource.fields, field.2.Definite) : changedFields resource resource = [] := by
  unfold changedFields
  rw [List.filterMap_eq_nil_iff]
  intro spec _
  have hsame : ((resource.field? spec.name).getD .null).same
      ((resource.field? spec.name).getD .null) = true := by
    unfold Resource.field?
    cases hfound : Table.get? resource.fields spec.name with
    | none => rfl
    | some value => exact (h _ (Table.mem_of_get? hfound)).same_self
  unfold fieldChange?
  split
  · rfl
  · dsimp only
    rw [if_pos hsame]

/-- A resource that is left out of a plan does not differ from what is recorded of it. -/
theorem unplanned_same {pending current : Inventory} {failures : RefreshFailures} {plan : Plan}
    (hpending : pending.OneHome) (hcurrent : current.OneHome)
    (hplan : diff pending current failures = .ok plan)
    (hnone : ∀ change ∈ plan.changes, change.key ≠ key) {p c : Resource}
    (hp : pending.resource? key = some p) (hc : current.resource? key = some c) :
    changedFields p c = [] := by
  have hkinds : plan.kindsFor key = [] := by
    unfold Plan.kindsFor
    rw [List.map_eq_nil_iff, List.filter_eq_nil_iff]
    exact fun change hmem => by simpa using hnone change hmem
  rw [kindsFor_of_pending hpending hcurrent hplan hp, Option.toList_eq_nil_iff] at hkinds
  obtain ⟨-, rfl⟩ := hpending.resource?_eq_some_iff.1 hp
  obtain ⟨found, hfound, -, hsame⟩ := neededKind_eq_none_iff.1 hkinds
  obtain rfl : found = c := Option.some.inj (hfound.symm.trans hc)
  exact hsame

/-- Turns in which every change of a plan is executed and applied. -/
structure Fulfils (backing : Backing ω) (plan : Plan) (run : Run ω) (turns : List (Turn ω))
    (after : Run ω) : Prop where
  inTurn : InTurn run turns after
  attempted : ∀ turn ∈ turns, turn.Attempted backing
  applied : ∀ turn ∈ turns, ((executeChange backing turn.change).run turn.before).1.outcome = .ok true
  changes : (turns.map Turn.change).Perm plan.changes

theorem applyPlan_fulfils (backing : Backing ω) {approve : ChangeGroup → List PlannedChange → Bool}
    {failFast : Bool} {plan : Plan} {run : Run ω}
    (happlied : ∀ result ∈ (applyPlan backing approve failFast plan run).1.results,
      result.status = .applied) :
    ∃ turns, Fulfils backing plan run turns (applyPlan backing approve failFast plan run).2 := by
  obtain ⟨parts, hparts, hinTurn, hresults, -⟩ :=
    applyPlan_turns backing approve failFast plan run
  have hdone : ∀ turn ∈ parts.flatten, turn.Attempted backing ∧
      ((executeChange backing turn.change).run turn.before).1.outcome = .ok true := by
    intro turn hturn
    have hstatus : turn.result.status = .applied :=
      happlied turn.result (hresults ▸ List.mem_map_of_mem hturn)
    obtain ⟨group, part, hpart, hmem⟩ := exists_part hparts hturn
    rcases hpart.idle_or_attempted hmem with ⟨status, hidle, hleft⟩ | hattempted
    · rw [hleft.result] at hstatus
      rcases hidle with rfl | rfl <;> cases hstatus
    · exact ⟨hattempted, Executed.result_applied_iff.1 (hattempted.result ▸ hstatus)⟩
  refine ⟨parts.flatten, hinTurn, fun turn hturn => (hdone turn hturn).1,
    fun turn hturn => (hdone turn hturn).2, ?_⟩
  rw [changes_of_parts hparts]
  exact groups_perm plan.changes

namespace Fulfils

variable {plan : Plan} {failures : RefreshFailures} {change : PlannedChange}

theorem exists_turn (h : Fulfils backing plan run turns after) (hchange : change ∈ plan.changes) :
    ∃ turn ∈ turns, turn.change = change :=
  List.mem_map.1 (h.changes.mem_iff.2 hchange)

/-- Each key has one turn. -/
theorem once (h : Fulfils backing plan run turns after) (htidy : run.Tidy)
    (hplan : diff run.pending run.state failures = .ok plan) :
    (turns.map fun turn => turn.change.key).Nodup := by
  have hkeys := (h.changes.map PlannedChange.key).nodup_iff.2
    (planned_once htidy.pending htidy.state hplan)
  rwa [List.map_map] at hkeys

/-- Both inventories hold the same under a key that was created, updated or replaced. -/
theorem agrees (h : Fulfils backing plan run turns after) (htidy : run.Tidy)
    (hplan : diff run.pending run.state failures = .ok plan) (hchange : change ∈ plan.changes)
    (hkind : change.kind ≠ .delete)
    (hworkflows : change.kind = .replace → ∀ workflow,
      run.pending.workflowFor? change.key.type = some workflow → workflow.EndsWithCreate) :
    after.Agrees backing.provider change.key := by
  obtain ⟨turn, hturn, rfl⟩ := h.exists_turn hchange
  obtain ⟨hbefore, -, hsame⟩ := h.inTurn.around h.attempted htidy (h.once htidy hplan) hturn
  have hworkflowFor := h.inTurn.before_eq (fun run => run.pending.workflowFor?)
    (fun other hother => (h.attempted other hother).course.workflowFor?_eq) hturn
  have hagrees := executeChange_agrees hbefore hkind
    (fun hreplace workflow hfound => hworkflows hreplace workflow (hworkflowFor ▸ hfound))
    (h.applied turn hturn)
  rw [← (h.attempted turn hturn).after] at hagrees
  exact hagrees.of_sameAt hsame

/-- Neither inventory holds anything under a key that was deleted. -/
theorem deleted (h : Fulfils backing plan run turns after) (htidy : run.Tidy)
    (hplan : diff run.pending run.state failures = .ok plan) (hchange : change ∈ plan.changes)
    (hkind : change.kind = .delete) :
    after.pending.has change.key = false ∧ after.state.has change.key = false := by
  obtain ⟨hafter, -⟩ := h.inTurn.sameAt h.attempted htidy
  obtain ⟨turn, hturn, rfl⟩ := h.exists_turn hchange
  obtain ⟨hbefore, hsameBefore, hsame⟩ :=
    h.inTurn.around h.attempted htidy (h.once htidy hplan) hturn
  obtain ⟨hkept, hgone⟩ := executeChange_deletes hbefore.state hkind (h.applied turn hturn)
  have htouches := (h.attempted turn hturn).touches hbefore
  rw [← (h.attempted turn hturn).after] at hkept hgone
  have habsent := (planned_delete_iff htidy.pending htidy.state hplan hchange).1 hkind
  unfold Inventory.has at habsent hgone ⊢
  constructor
  · rw [resource?_of_same hafter.pending htouches.tidy.pending hsame.pending, hkept,
      resource?_of_same hbefore.pending htidy.pending hsameBefore.pending]
    exact habsent
  · rw [resource?_of_same hafter.state htouches.tidy.state hsame.state]
    exact hgone

/-- Both inventories hold what they held before under a key that was not planned for. -/
theorem kept (h : Fulfils backing plan run turns after) (htidy : run.Tidy)
    (hnone : ∀ change ∈ plan.changes, change.key ≠ key) :
    after.SameAt key run :=
  (h.inTurn.sameAt h.attempted htidy).2 key fun _ hturn =>
    hnone _ (h.changes.mem_iff.1 (List.mem_map_of_mem hturn))

end Fulfils

theorem Run.Agrees.resources (h : after.Agrees backing.provider key) (htidy : after.Tidy) :
    ∃ resource, after.pending.resource? key = some resource ∧
      after.state.resource? key = some resource := by
  obtain ⟨file, resource, hheld, hrecorded, -⟩ := h
  exact ⟨resource, hheld.resource? htidy.pending, hrecorded.resource? htidy.state⟩

/-- There is nothing left to do when each key has the same definite resource in both inventories, or
nothing, or what it had when no change was planned for it. -/
theorem diff_nothing_of_fulfilled {plan : Plan} {failures : RefreshFailures} (htidy : run.Tidy)
    (hafter : after.Tidy) (hplan : diff run.pending run.state failures = .ok plan)
    (hsplit : ∀ key,
      (∃ resource, (after.pending.resource? key = some resource ∧
        after.state.resource? key = some resource) ∧ ∀ field ∈ resource.fields, field.2.Definite) ∨
      (after.pending.has key = false ∧ after.state.has key = false) ∨
      ((∀ change ∈ plan.changes, change.key ≠ key) ∧ after.SameAt key run)) :
    ∃ next, diff after.pending after.state [] = .ok next ∧ next.changes = [] := by
  rw [diff_nothing_iff hafter.pending hafter.state]
  constructor
  · intro key
    rcases hsplit key with ⟨resource, ⟨hheld, hrecorded⟩, -⟩ | ⟨hheld, hrecorded⟩ | ⟨hnone, hsame⟩
    · unfold Inventory.has
      rw [hheld, hrecorded]
    · rw [hheld, hrecorded]
    · unfold Inventory.has
      rw [resource?_of_same hafter.pending htidy.pending hsame.pending,
        resource?_of_same hafter.state htidy.state hsame.state]
      exact (unplanned_has htidy.pending htidy.state hplan hnone).symm
  · intro key p c hp hc
    rcases hsplit key with ⟨resource, ⟨hheld, hrecorded⟩, hdefinite⟩ | ⟨hheld, -⟩ | ⟨hnone, hsame⟩
    · obtain rfl : resource = p := Option.some.inj (hheld.symm.trans hp)
      obtain rfl : resource = c := Option.some.inj (hrecorded.symm.trans hc)
      exact changedFields_self hdefinite
    · rw [(Inventory.has_eq_false_iff _ _).1 hheld] at hp
      cases hp
    · rw [resource?_of_same hafter.pending htidy.pending hsame.pending] at hp
      rw [resource?_of_same hafter.state htidy.state hsame.state] at hc
      exact unplanned_same htidy.pending htidy.state hplan hnone hp hc

/-- A plan that is fully applied leaves the two inventories with the same under every key that it
created, updated or replaced, with nothing under those that it deleted, and with what they held
before under all others.  Unless it recorded something indefinite there is nothing left to do. -/
theorem applyPlan_agrees (backing : Backing ω)
    (approve : ChangeGroup → List PlannedChange → Bool) (failFast : Bool) (plan : Plan)
    (run : Run ω) (failures : RefreshFailures)
    (hpending : run.pending.OneHome) (hstate : run.state.OneHome)
    (hblockless : run.pending.Blockless)
    (hplan : diff run.pending run.state failures = .ok plan)
    (hworkflows : ∀ change ∈ plan.changes, change.kind = .replace → ∀ workflow,
      run.pending.workflowFor? change.key.type = some workflow → workflow.EndsWithCreate)
    (happlied : ∀ result ∈ (applyPlan backing approve failFast plan run).1.results,
      result.status = .applied) :
    let after := (applyPlan backing approve failFast plan run).2
    (∀ change ∈ plan.changes, change.kind ≠ .delete → after.Agrees backing.provider change.key) ∧
      (∀ change ∈ plan.changes, change.kind = .delete →
        after.pending.has change.key = false ∧ after.state.has change.key = false) ∧
      (∀ key, (∀ change ∈ plan.changes, change.key ≠ key) → after.SameAt key run) ∧
      ((∀ change ∈ plan.changes, ∀ resource, after.state.resource? change.key = some resource →
          ∀ field ∈ resource.fields, field.2.Definite) →
        ∃ next, diff after.pending after.state [] = .ok next ∧ next.changes = []) := by
  have htidy : run.Tidy := ⟨hpending, hstate, hblockless⟩
  obtain ⟨turns, hfulfils⟩ := applyPlan_fulfils backing happlied
  generalize (applyPlan backing approve failFast plan run).2 = after at hfulfils
  obtain ⟨hafter, -⟩ := hfulfils.inTurn.sameAt hfulfils.attempted htidy
  have hagrees : ∀ change ∈ plan.changes, change.kind ≠ .delete →
      after.Agrees backing.provider change.key := fun change hchange hkind =>
    hfulfils.agrees htidy hplan hchange hkind (hworkflows change hchange)
  have hdeleted : ∀ change ∈ plan.changes, change.kind = .delete →
      after.pending.has change.key = false ∧ after.state.has change.key = false :=
    fun change hchange hkind => hfulfils.deleted htidy hplan hchange hkind
  have hkept : ∀ key, (∀ change ∈ plan.changes, change.key ≠ key) → after.SameAt key run :=
    fun key hnone => hfulfils.kept htidy hnone
  refine ⟨hagrees, hdeleted, hkept, fun hdefinite => ?_⟩
  refine diff_nothing_of_fulfilled htidy hafter hplan fun key => ?_
  by_cases hchanged : ∃ change ∈ plan.changes, change.key = key
  · obtain ⟨change, hchange, rfl⟩ := hchanged
    by_cases hkind : change.kind = .delete
    · exact Or.inr (Or.inl (hdeleted change hchange hkind))
    · obtain ⟨resource, hheld, hrecorded⟩ := (hagrees change hchange hkind).resources hafter
      exact Or.inl ⟨resource, ⟨hheld, hrecorded⟩, hdefinite change hchange resource hrecorded⟩
  · have hnone : ∀ change ∈ plan.changes, change.key ≠ key := fun change hchange heq =>
      hchanged ⟨change, hchange, heq⟩
    exact Or.inr (Or.inr ⟨hnone, hkept key hnone⟩)

end Plans

/-! ### Crates that are moved -/

/-- A crate is moved by taking it away and putting up another one. -/
def movingCrates : Workflow :=
  ⟨"move", crateType.name, [⟨"take", .delete, none⟩, ⟨"put", .create, none⟩]⟩

/-- The second crate goes to another place, the third is given up, and the fourth is new. -/
def rearrangedCrates : Language.SourceFile :=
  ⟨"main", [crateBlock 1 "first" (.text "dock") (.text "y"),
    crateBlock 5 "second" (.text "hall") (.text "x"),
    crateBlock 9 "fourth" (.text "dock") (.text "x")]⟩

/-- Three crates with the label `x`. -/
def threeCrates : Language.SourceFile :=
  ⟨"main", [crateRecord 1 "first" "dock" "x" "sealed x", crateRecord 7 "second" "dock" "x" "sealed x",
    crateRecord 13 "third" "dock" "x" "sealed x"]⟩

/-- A value that is a text or nothing. -/
def Value.isPlain : Value → Bool
  | .null | .text _ => true
  | _ => false

theorem Value.definite_of_isPlain {value : Value} (h : value.isPlain = true) : value.Definite := by
  cases value with
  | null => exact .null
  | text s => exact .text s
  | _ => cases h

/-- One crate is labelled anew, one is moved, one is put up and one is taken away; after that
nothing is left to do. -/
theorem applyPlan_agrees_crates :
    ∃ current pending plan,
      evaluateState (crateRegistry.addWorkflow movingCrates) [threeCrates] = .ok current ∧
      evaluateConfiguration (crateRegistry.addWorkflow movingCrates) (some current)
        [rearrangedCrates] = .ok pending ∧
      diff pending current [] = .ok plan ∧
      plan.changes.map (fun change => (change.kind, change.key.name)) =
        [(.update, "first"), (.create, "fourth"), (.replace, "second"), (.delete, "third")] ∧
      ∃ next, diff (applyPlan sealing (fun _ _ => true) true plan ⟨pending, current, ()⟩).2.pending
          (applyPlan sealing (fun _ _ => true) true plan ⟨pending, current, ()⟩).2.state [] =
            .ok next ∧ next.changes = [] := by
  have hrun : (evaluateState (crateRegistry.addWorkflow movingCrates) [threeCrates]).toOption.bind
      (fun current => (evaluateConfiguration (crateRegistry.addWorkflow movingCrates) (some current)
        [rearrangedCrates]).toOption.bind fun pending =>
          (diff pending current []).toOption.map fun plan =>
            let result := applyPlan sealing (fun _ _ => true) true plan ⟨pending, current, ()⟩
            (plan.changes.map (fun change => (change.kind, change.key.name)),
              result.1.results.map ChangeResult.status,
              decide (∀ resource ∈ pending.resources, ∀ declaration ∈ resource.declaration,
                typesInAll declaration.body = []),
              decide (∀ change ∈ plan.changes,
                pending.workflowFor? change.key.type = some movingCrates),
              result.2.state.resources.all fun resource =>
                resource.fields.all fun field => field.2.isPlain)) =
      some ([(.update, "first"), (.create, "fourth"), (.replace, "second"), (.delete, "third")],
        [.applied, .applied, .applied, .applied], true, true, true) := by decide +kernel
  obtain ⟨current, hcurrent, hrun⟩ := Option.bind_eq_some_iff.1 hrun
  obtain ⟨pending, hpending, hrun⟩ := Option.bind_eq_some_iff.1 hrun
  obtain ⟨plan, hplan, hdone⟩ := Option.map_eq_some_iff.1 hrun
  simp only [Prod.mk.injEq, decide_eq_true_eq] at hdone
  obtain ⟨hkinds, hstatuses, hblockless, hworkflows, hplain⟩ := hdone
  rw [toOption_eq_some] at hcurrent hpending hplan
  refine ⟨current, pending, plan, hcurrent, hpending, hplan, hkinds, ?_⟩
  have hhome := (evaluateState_sound hcurrent).oneHome
  obtain ⟨-, -, -, hsettled⟩ := applyPlan_agrees sealing (fun _ _ => true) true plan
    ⟨pending, current, ()⟩ [] (evaluateConfiguration_sound hpending).oneHome hhome hblockless hplan
    (fun change hchange _ workflow hfound => by
      obtain rfl : movingCrates = workflow :=
        Option.some.inj ((hworkflows change hchange).symm.trans hfound)
      rfl)
    (fun result hresult => by
      have hstatus := List.mem_map_of_mem (f := ChangeResult.status) hresult
      rw [hstatuses] at hstatus
      simpa using hstatus)
  refine hsettled fun change _ resource hresource field hfield => ?_
  obtain ⟨file, hfile, hget⟩ := List.exists_of_findSome?_eq_some hresource
  have hmem := Inventory.mem_resources.2 ⟨file, hfile, _, Table.mem_of_get? hget⟩
  exact Value.definite_of_isPlain (List.all_eq_true.1 (List.all_eq_true.1 hplain resource hmem) field hfield)

end Provision

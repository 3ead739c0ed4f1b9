import Provision.Memory
import Provision.Proofs.Apply.Ledger
import Provision.Proofs.Evaluation.Sound

/-!
# What an update changes in place

A plan calls for an update only where every changed field can change in place,
but it is made from the values known before the run.  The resource is evaluated
again right before the call, so a field that forces a replacement may be among
those an update is asked to change.  That happens in one way only: evaluating
again gave the field something else than the plan was made from.
-/

namespace Provision

open Provision.Language (Node)

variable {ω : Type}

/-! ## One key at a time -/

/-- The key that a deed books an entry for. -/
def Deed.entryKey : Deed → Option Key
  | .create _ _ resource (.ok ()) _ => some resource.key
  | .update _ _ _ resource (.ok ()) _ => some resource.key
  | .delete key _ (.ok ()) => some key
  | .absent key => some key
  | _ => none

section Keys

variable {backing : Backing ω} {run after : Run ω} {deed : Deed} {deeds : List Deed}
  {registry : Registry}

theorem Does.sound (h : Does backing run deed after) (hsound : run.pending.Sound registry) :
    after.pending.Sound registry := by
  cases h with
  | reevaluate key => exact hsound.grown (reevaluate_grown hsound.typed _ _ key)
  | created hfile hresource => exact hsound.insert _ _ hresource
  | updated hfile hresource => exact hsound.insert _ _ hresource
  | createFailed => exact hsound
  | updateFailed => exact hsound
  | deleted => exact hsound
  | deleteFailed => exact hsound
  | absent => exact hsound
  | save => exact hsound

theorem Course.sound (h : Course backing run deeds after) (hsound : run.pending.Sound registry) :
    after.pending.Sound registry := by
  induction h with
  | nil => exact hsound
  | cons hdoes _ ih => exact ih (hdoes.sound hsound)

/-- An entry is booked for the key of the change that its deed serves. -/
theorem Does.entryKey_of_serves (h : Does backing run deed after)
    (hsound : run.pending.Sound registry) {change : PlannedChange} (hserves : deed.Serves change)
    {key : Key} (hentry : deed.entryKey = some key) :
    key = change.key := by
  cases h with
  | created hfile hresource =>
    cases hentry
    exact (hsound.oneHome.keyed.key_of_resource? hresource).2.trans hserves.1
  | updated hfile hresource =>
    cases hentry
    exact (hsound.oneHome.keyed.key_of_resource? hresource).2.trans hserves.1
  | deleted =>
    cases hentry
    exact hserves.1
  | absent =>
    cases hentry
    exact hserves.1
  | reevaluate => cases hentry
  | createFailed => cases hentry
  | updateFailed => cases hentry
  | deleteFailed => cases hentry
  | save => cases hentry

theorem Contents.book_other (contents : Contents) {deed : Deed} {key : Key}
    (h : deed.entryKey ≠ some key) (path : Path) (found : Resource) :
    contents.book deed path key found ↔ contents path key found := by
  have hstore : ∀ (file : Path) (resource : Resource), resource.key ≠ key →
      (contents.store file resource path key found ↔ contents path key found) := by
    intro file resource hne
    unfold Contents.store
    rw [if_neg (Ne.symm hne)]
  have hdrop : ∀ dropped : Key, dropped ≠ key →
      (contents.drop dropped path key found ↔ contents path key found) := by
    intro dropped hne
    exact ⟨And.right, fun hheld => ⟨Ne.symm hne, hheld⟩⟩
  unfold Deed.entryKey at h
  unfold Contents.book
  split
  · exact hstore _ _ fun heq => h (congrArg some heq)
  · exact hstore _ _ fun heq => h (congrArg some heq)
  · exact hdrop _ fun heq => h (congrArg some heq)
  · exact hdrop _ fun heq => h (congrArg some heq)
  · exact Iff.rfl

/-- A course that books nothing for a key leaves its recorded resource as it is. -/
theorem Course.resource?_eq (h : Course backing run deeds after) (hhome : run.state.OneHome)
    {key : Key} (hother : ∀ deed ∈ deeds, deed.entryKey ≠ some key) :
    after.state.resource? key = run.state.resource? key := by
  have hfold : ∀ (contents : Contents) (path : Path) (found : Resource),
      deeds.foldl Contents.book contents path key found ↔ contents path key found := by
    clear h
    induction deeds with
    | nil => exact fun _ _ _ => Iff.rfl
    | cons deed rest ih =>
      intro contents path found
      have hrest := ih fun other hmem => hother other (List.mem_cons_of_mem _ hmem)
      exact (hrest _ path found).trans
        (contents.book_other (hother deed List.mem_cons_self) path found)
  obtain ⟨hafter, hcontents⟩ := h.booked hhome
  apply Option.ext
  intro resource
  rw [hafter.resource?_iff_contents, hhome.resource?_iff_contents, hcontents]
  exact exists_congr fun path => hfold _ path resource

end Keys

/-! ## Updates of a plan -/

/-- Two resources agree on a field: on its value, and on whether it is configured. -/
def Resource.AgreesOn (a b : Resource) (name : String) : Prop :=
  a.field? name = b.field? name ∧ a.isConfigured name = b.isConfigured name

/-- A change of a field is the same for resources of one type that agree on it. -/
theorem mem_changedFields_of_agreesOn {a b existing : Resource} (htype : a.type = b.type)
    {change : FieldChange} (hchange : change ∈ changedFields a existing)
    (hagree : a.AgreesOn b change.field) :
    change ∈ changedFields b existing := by
  obtain ⟨spec, hspec, hfound⟩ := List.mem_filterMap.1 hchange
  have hname : change.field = spec.name := by
    unfold fieldChange? at hfound
    split at hfound
    · cases hfound
    · dsimp only at hfound
      split at hfound
      · cases hfound
      · cases hfound
        rfl
  rw [hname] at hagree
  refine List.mem_filterMap.2 ⟨spec, htype ▸ hspec, ?_⟩
  rw [← hfound]
  unfold fieldChange?
  rw [hagree.1, hagree.2]

section Plans

variable {pending current : Inventory} {failures : RefreshFailures} {plan : Plan}

theorem kindsFor_of_mem {change : PlannedChange} (h : change ∈ plan.changes) :
    change.kind ∈ plan.kindsFor change.key :=
  List.mem_map.2 ⟨change, List.mem_filter.2 ⟨h, decide_eq_true rfl⟩, rfl⟩

/-- An update is planned where every changed field can change in place. -/
theorem planned_update (hpending : pending.OneHome) (hcurrent : current.OneHome)
    (hplan : diff pending current failures = .ok plan) {change : PlannedChange}
    (hmem : change ∈ plan.changes) (hkind : change.kind = .update) :
    ∃ planned existing, pending.resource? change.key = some planned ∧
      current.resource? change.key = some existing ∧
      ∀ field ∈ changedFields planned existing, field.updatable = true := by
  have hkinds := kindsFor_of_mem hmem
  rw [hkind] at hkinds
  cases hfound : pending.resource? change.key with
  | none =>
    rw [kindsFor_of_not_pending hpending hcurrent hplan
      ((Inventory.has_eq_false_iff pending change.key).2 hfound)] at hkinds
    split at hkinds <;> simp at hkinds
  | some planned =>
    rw [kindsFor_of_pending hpending hcurrent hplan hfound] at hkinds
    have hneeded : neededKind current failures planned = some .update :=
      Option.mem_toList.1 hkinds
    obtain ⟨-, hkey⟩ := hpending.resource?_eq_some_iff.1 hfound
    unfold neededKind at hneeded
    rw [hkey] at hneeded
    cases hexisting : current.resource? change.key with
    | none =>
      rw [hexisting] at hneeded
      cases hneeded
    | some existing =>
      rw [hexisting] at hneeded
      refine ⟨planned, existing, rfl, rfl, ?_⟩
      dsimp only at hneeded
      split at hneeded
      · cases hneeded
      · unfold classify at hneeded
        split at hneeded
        · cases hneeded
        · split at hneeded
          · next hall => exact List.all_eq_true.1 hall
          · cases hneeded

/-- A plan has at most one change for a key. -/
theorem planned_once (hpending : pending.OneHome) (hcurrent : current.OneHome)
    (hplan : diff pending current failures = .ok plan) :
    (plan.changes.map PlannedChange.key).Nodup := by
  rw [List.nodup_iff_count_le_one]
  intro key
  have hlength : (plan.kindsFor key).length ≤ 1 := by
    cases hfound : pending.resource? key with
    | none =>
      rw [kindsFor_of_not_pending hpending hcurrent hplan
        ((Inventory.has_eq_false_iff pending key).2 hfound)]
      split <;> simp
    | some planned =>
      rw [kindsFor_of_pending hpending hcurrent hplan hfound]
      exact Option.length_toList_le
  unfold Plan.kindsFor at hlength
  rw [List.length_map] at hlength
  rw [List.count_eq_countP, List.countP_map, List.countP_eq_length_filter]
  exact hlength

end Plans

/-! ## Updates of a run -/

section Runs

variable {backing : Backing ω} {run after : Run ω} {deeds : List Deed} {registry : Registry}

theorem groups_perm (changes : List PlannedChange) :
    (ChangeGroup.all.flatMap fun group => changes.filter fun change => change.kind.group = group).Perm
      changes := by
  simp only [ChangeGroup.all, List.flatMap_cons, List.flatMap_nil, List.append_nil]
  induction changes with
  | nil => exact List.Perm.nil
  | cons change rest ih =>
    simp only [List.filter_cons]
    cases change.kind.group with
    | createOrUpdate => simpa using ih
    | replace =>
      simp only [reduceCtorEq, decide_false, decide_true, Bool.false_eq_true, ↓reduceIte,
        List.cons_append]
      exact List.perm_middle.trans (ih.cons change)
    | delete =>
      simp only [reduceCtorEq, decide_false, decide_true, Bool.false_eq_true, ↓reduceIte]
      rw [← List.append_assoc] at ih ⊢
      exact List.perm_middle.trans (ih.cons change)

/-- Nothing is booked for a change before its update. -/
theorem Executes.before_update {change : PlannedChange} (h : Executes change deeds)
    (hkind : change.kind = .update) {key : Key} {file : Path} {existing resource : Resource}
    {outcome : Except String Unit} {fields : Bindings} {front back : List Deed}
    (hdeeds : deeds = front ++ .update key file existing resource outcome fields :: back) :
    ∀ deed ∈ front, deed.entryKey = none := by
  obtain ⟨calls, saves, hshape, hlength, hsaves⟩ := h.once hkind
  have hnot : Deed.update key file existing resource outcome fields ∉ saves := by
    intro hmem
    cases hsaves _ hmem
  rw [hdeeds] at hshape
  cases front with
  | nil => cases hshape
  | cons first front =>
    obtain ⟨rfl, htail⟩ := List.cons.inj hshape
    have hempty : front = [] := by
      cases calls with
      | nil =>
        rw [List.nil_append] at htail
        exact absurd (htail ▸ List.mem_append_right front List.mem_cons_self) hnot
      | cons call calls =>
        obtain rfl : calls = [] := List.length_eq_zero_iff.1 (by simpa using hlength)
        cases front with
        | nil => rfl
        | cons second front =>
          obtain ⟨-, hrest⟩ := List.cons.inj htail
          have hrest : front ++ _ = saves := hrest
          exact absurd (hrest ▸ List.mem_append_right front List.mem_cons_self) hnot
    subst hempty
    intro deed hdeed
    rw [List.mem_singleton.1 hdeed]
    rfl

theorem Course.entryKey_ne (h : Course backing run deeds after)
    (hsound : run.pending.Sound registry) {key : Key}
    (hserves : ∀ deed ∈ deeds, deed.entryKey = none ∨
      ∃ change, deed.Serves change ∧ change.key ≠ key) :
    ∀ deed ∈ deeds, deed.entryKey ≠ some key := by
  induction h with
  | nil =>
    intro deed hdeed
    cases hdeed
  | @cons run between after first rest hdoes _ ih =>
    intro deed hdeed hentry
    rcases List.mem_cons.1 hdeed with rfl | hdeed
    · rcases hserves deed List.mem_cons_self with hnone | ⟨change, hserve, hne⟩
      · rw [hnone] at hentry
        cases hentry
      · exact hne (hdoes.entryKey_of_serves hsound hserve hentry).symm
    · exact ih (hdoes.sound hsound) (fun other hother => hserves other (List.mem_cons_of_mem _ hother))
        deed hdeed hentry

/-- When a run comes to an update, nothing was booked for its key so far. -/
theorem course_before_update {schedule : Schedule} (h : Course backing run schedule.deeds after)
    (hsound : run.pending.Sound registry)
    (honce : ((schedule.map Prod.fst).map PlannedChange.key).Nodup)
    (hexecutes : ∀ part ∈ schedule, Executes part.1 part.2)
    {key : Key} {file : Path} {existing resource : Resource} {outcome : Except String Unit}
    {fields : Bindings}
    (hdeed : .update key file existing resource outcome fields ∈ schedule.deeds) :
    ∃ change between front back, change ∈ schedule.map Prod.fst ∧ change.key = key ∧
      change.kind = .update ∧ Course backing run front between ∧
      Course backing between (.update key file existing resource outcome fields :: back) after ∧
      ∀ deed ∈ front, deed.entryKey ≠ some key := by
  -- The update stands among the deeds of one change, which come after those of earlier changes.
  obtain ⟨_, hdone, hin⟩ := List.mem_flatten.1 hdeed
  obtain ⟨⟨change, done⟩, hpart, rfl⟩ := List.mem_map.1 hdone
  obtain ⟨before, behind, rfl⟩ := List.append_of_mem hin
  obtain ⟨earlier, later, rfl, hdeeds, hothers⟩ := Schedule.around honce hpart
  have hthis : Executes change
      (before ++ .update key file existing resource outcome fields :: behind) := hexecutes _ hpart
  have hserves : key = change.key ∧ change.kind = .update := hthis.serves _ hin
  obtain ⟨rfl, hkind⟩ := hserves
  rw [hdeeds, List.append_assoc, List.cons_append, ← List.append_assoc] at h
  obtain ⟨between, hfront, hback⟩ := h.split
  refine ⟨change, between, _, _, List.mem_map_of_mem hpart, rfl, hkind, hfront, hback, ?_⟩
  refine hfront.entryKey_ne hsound fun deed hdeed => ?_
  rcases List.mem_append.1 hdeed with hdeed | hdeed
  · obtain ⟨_, hdone', hin'⟩ := List.mem_flatten.1 hdeed
    obtain ⟨part, hpart', rfl⟩ := List.mem_map.1 hdone'
    exact Or.inr ⟨part.1, (hexecutes part (List.mem_append_left _ hpart')).serves deed hin',
      hothers part (List.mem_append_left _ hpart')⟩
  · exact Or.inl (hthis.before_update hkind rfl deed hdeed)

variable {pending current : Inventory} {failures : RefreshFailures} {plan : Plan}

/-- Changes scheduled from a plan are for different keys. -/
theorem scheduled_once (hpending : pending.OneHome) (hcurrent : current.OneHome)
    (hplan : diff pending current failures = .ok plan) {schedule : Schedule}
    (hsublist : (schedule.map Prod.fst).Sublist (ChangeGroup.all.flatMap plan.changesIn)) :
    ((schedule.map Prod.fst).map PlannedChange.key).Nodup :=
  (((groups_perm plan.changes).map PlannedChange.key).nodup_iff.2
    (planned_once hpending hcurrent hplan)).sublist (hsublist.map PlannedChange.key)

/-- When a run of a plan updates a resource, the recorded side is the one that the plan was made
from, and a field that is to change although it cannot change in place is one for which evaluating
again gave something else than the plan was made from. -/
theorem applyPlan_update (backing : Backing ω)
    (approve : ChangeGroup → List PlannedChange → Bool) (failFast : Bool) (world : ω)
    (hnamed : registry.Named) (hpending : pending.Sound registry) (hcurrent : current.OneHome)
    (hplan : diff pending current failures = .ok plan) :
    ∃ deeds, Course backing ⟨pending, current, world⟩ deeds
        (applyPlan backing approve failFast plan ⟨pending, current, world⟩).2 ∧
      ∀ key file existing resource outcome fields,
        Deed.update key file existing resource outcome fields ∈ deeds →
        current.resource? key = some existing ∧
        ∃ planned, pending.resource? key = some planned ∧
          ∀ change ∈ changedFields resource existing,
            change.updatable = true ∨ ¬ resource.AgreesOn planned change.field := by
  obtain ⟨schedule, hsublist, hexecutes, hcourse, -⟩ :=
    applyPlan_follows backing approve failFast plan ⟨pending, current, world⟩
  refine ⟨schedule.deeds, hcourse, ?_⟩
  intro key file existing resource outcome fields hdeed
  have honce := scheduled_once hpending.oneHome hcurrent hplan hsublist
  obtain ⟨change, between, front, back, hchange, rfl, hkind, hfront, hback, hother⟩ :=
    course_before_update hcourse hpending honce hexecutes hdeed
  have hrecorded : between.state.resource? change.key = current.resource? change.key :=
    hfront.resource?_eq hcurrent hother
  have hlater : between.pending.Sound registry := hfront.sound hpending
  obtain ⟨hresource, hexisting⟩ : between.pending.resource? change.key = some resource ∧
      between.state.resource? change.key = some existing := by
    cases hback with
    | cons hdoes _ =>
      cases hdoes with
      | updated _ hresource hexisting => exact ⟨hresource, hexisting⟩
      | updateFailed _ hresource hexisting => exact ⟨hresource, hexisting⟩
  have hmem : change ∈ plan.changes := (groups_perm plan.changes).mem_iff.1 (hsublist.subset hchange)
  obtain ⟨planned, recorded, hplanned, hfound, hupdatable⟩ :=
    planned_update hpending.oneHome hcurrent hplan hmem hkind
  rw [hrecorded, hfound] at hexisting
  cases hexisting
  refine ⟨hfound, planned, hplanned, ?_⟩
  intro field hfield
  by_cases hagree : resource.AgreesOn planned field.field
  · refine Or.inl (hupdatable field (mem_changedFields_of_agreesOn ?_ hfield hagree))
    have htype := hlater.type_eq hnamed hresource
    rw [hpending.type_eq hnamed hplanned] at htype
    exact (Option.some.inj htype).symm
  · exact Or.inr hagree

end Runs

/-! ### An update that goes beyond its plan -/

/-- A crate keeps its place, can be labelled anew, and gets a seal each time it is handled. -/
def crateType : ResourceType :=
  ⟨⟨"store::crate", rfl⟩,
    [⟨"place", false, true, false, false⟩, ⟨"label", true, true, false, false⟩,
      ⟨"seal", false, true, false, true⟩], {}⟩

/-- A registry with crates alone. -/
def crateRegistry : Registry :=
  Registry.addType {} crateType

/-- A pair of a crate at a line. -/
def cratePair (line : Nat) (field : String) (value : Node) : Node :=
  .pair ⟨field, value, ⟨"main", line, 1⟩⟩

/-- The declaration of a crate at a line. -/
def crateBlock (line : Nat) (name : String) (place label : Node) : Node :=
  .resource crateType.name.text (.text name)
    [cratePair (line + 1) "place" place, cratePair (line + 2) "label" label] ⟨"main", line, 1⟩

/-- The seal of a crate, as an expression. -/
def crateSeal (line : Nat) (name : String) : Node :=
  .ref crateType.name.text (some (.text name)) ["seal"] ⟨"main", line, 10⟩

/-- The second crate is put where the seal of the first one says. -/
def sealedCrates (label : String) : Language.SourceFile :=
  ⟨"main", [crateBlock 1 "first" (.text "dock") (.text label),
    crateBlock 5 "second" (crateSeal 6 "first") (.text label)]⟩

/-- The record of a crate, with the fields that were configured. -/
def crateRecord (line : Nat) (name place label mark : String) : Node :=
  .resource crateType.name.text (.text name)
    [cratePair (line + 1) "place" (.text place), cratePair (line + 2) "label" (.text label),
      cratePair (line + 3) "seal" (.text mark),
      cratePair (line + 4) configuredFieldsKey (.list [.text "label", .text "place"])]
    ⟨"main", line, 1⟩

/-- Two crates with the label `x`. -/
def recordedCrates : Language.SourceFile :=
  ⟨"main", [crateRecord 1 "first" "dock" "x" "s1", crateRecord 7 "second" "s1" "x" "s2"]⟩

theorem crateRegistry_named : crateRegistry.Named :=
  Registry.named_empty.addType crateType

/-- The plan for labelling both crates anew holds two updates, to which the general statement
applies. -/
theorem applyPlan_update_crates :
    ∃ current pending plan, evaluateState crateRegistry [recordedCrates] = .ok current ∧
      evaluateConfiguration crateRegistry (some current) [sealedCrates "y"] = .ok pending ∧
      diff pending current [] = .ok plan ∧
      plan.changes.map (fun change => (change.kind, change.key.name)) =
        [(.update, "first"), (.update, "second")] ∧
      ∃ deeds, Course ⟨Memory.provider, Memory.save⟩ ⟨pending, current, {}⟩ deeds
          (applyPlan ⟨Memory.provider, Memory.save⟩ (fun _ _ => true) true plan
            ⟨pending, current, {}⟩).2 ∧
        ∀ key file existing resource outcome fields,
          Deed.update key file existing resource outcome fields ∈ deeds →
          current.resource? key = some existing ∧
          ∃ planned, pending.resource? key = some planned ∧
            ∀ change ∈ changedFields resource existing,
              change.updatable = true ∨ ¬ resource.AgreesOn planned change.field := by
  have hrun : (evaluateState crateRegistry [recordedCrates]).toOption.bind (fun current =>
      (evaluateConfiguration crateRegistry (some current) [sealedCrates "y"]).toOption.bind
        fun pending => (diff pending current []).toOption.map fun plan =>
          plan.changes.map fun change => (change.kind, change.key.name)) =
      some [(.update, "first"), (.update, "second")] := by decide +kernel
  obtain ⟨current, hcurrent, hrun⟩ := Option.bind_eq_some_iff.1 hrun
  obtain ⟨pending, hpending, hrun⟩ := Option.bind_eq_some_iff.1 hrun
  obtain ⟨plan, hplan, hkinds⟩ := Option.map_eq_some_iff.1 hrun
  rw [toOption_eq_some] at hcurrent hpending hplan
  exact ⟨current, pending, plan, hcurrent, hpending, hplan, hkinds,
    applyPlan_update ⟨Memory.provider, Memory.save⟩ (fun _ _ => true) true {} crateRegistry_named
      (evaluateConfiguration_sound hpending) (evaluateState_sound hcurrent).oneHome hplan⟩

/-- Plans what brings a recorded inventory to a configuration and carries it out in memory. -/
def bringUp (registry : Registry) (file : Language.SourceFile) (state : Inventory)
    (memory : Memory) : Option (Plan × Run Memory) :=
  match evaluateConfiguration registry (some state) [file] with
  | .error _ => none
  | .ok pending =>
    match diff pending state [] with
    | .error _ => none
    | .ok plan =>
      some (plan, (applyPlan ⟨Memory.provider, Memory.save⟩ (fun _ _ => true) true plan
        ⟨pending, state, memory⟩).2)

/-- The names of the fields that the recorded updates changed. -/
def Memory.updates (memory : Memory) : List (String × List String) :=
  memory.calls.filterMap fun call => call.change.map fun change => (call.key.name, change.2)

/-- Labelling both crates anew is planned as two updates of the label, and carried out as updates
of which the second is asked to change the place as well. -/
theorem update_beyond_plan :
    (bringUp crateRegistry (sealedCrates "x") (.empty crateRegistry) {}).bind (fun first =>
      (bringUp crateRegistry (sealedCrates "y") first.2.state first.2.world).map fun second =>
        (second.1.changes.map (fun change => (change.kind, change.fields.map FieldChange.field)),
          second.2.world.updates)) =
    some ([(.update, ["label"]), (.update, ["label"])],
      [("first", ["label"]), ("second", ["place", "label"])]) := by
  decide +kernel

end Provision

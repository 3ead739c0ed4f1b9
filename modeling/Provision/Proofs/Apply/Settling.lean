import Provision.Proofs.Apply.InPlace

/-!
# What a run leaves to do

A provider that fills in outputs and leaves all else as it is given records what
it was handed.  So after a run whose changes were all applied, the next plan is
empty exactly when evaluating the configuration again gives, for every resource,
what was handed over for it last.  That need not be the case: a resource that
was planned as unchanged, or that was handed over before something it refers to,
has been compared with outputs that the run went on to replace.
-/

namespace Provision

variable {ω : Type}

/-- A provider that leaves alone, when it succeeds, every field that it does not compute. -/
structure Provider.Faithful (provider : Provider ω) : Prop where
  create : ∀ {call given world fields after},
    provider.create call given world = ((.ok (), fields), after) →
    ∀ spec ∈ call.type.schema, spec.output = false →
      Table.get? fields spec.name = Table.get? given spec.name
  update : ∀ {call existing given changed world fields after},
    provider.update call existing given changed world = ((.ok (), fields), after) →
    ∀ spec ∈ call.type.schema, spec.output = false →
      Table.get? fields spec.name = Table.get? given spec.name

/-- The record under a key of a resource that was handed over: its outputs may be others. -/
structure Registry.Records (registry : Registry) (key : Key) (recorded handed : Resource) : Prop where
  type_eq : registry.type? key.type = some handed.type
  configured_eq : recorded.configured = handed.configured
  fields : ∀ spec ∈ handed.type.schema, spec.output = false →
    recorded.field? spec.name = handed.field? spec.name

/-- What differs from a record is what differs from the resource that was handed over. -/
theorem changedFields_of_records {registry : Registry} {key : Key}
    {pending recorded handed : Resource} (h : registry.Records key recorded handed)
    (htype : pending.type = handed.type) :
    changedFields pending recorded = changedFields pending handed := by
  refine List.filterMap_congr fun spec hspec => ?_
  unfold fieldChange? Resource.isConfigured
  rw [h.configured_eq]
  cases houtput : spec.output with
  | true => rfl
  | false => rw [h.fields spec (htype ▸ hspec) houtput]

/-! ## What is recorded under one key -/

section Records

variable {backing : Backing ω} {run after : Run ω} {deed : Deed} {deeds : List Deed}
  {registry : Registry}

/-- One deed keeps what is recorded under a key in step with what was handed over for it. -/
theorem Does.records (h : Does backing run deed after) (hfaithful : backing.provider.Faithful)
    (hnamed : registry.Named) (hsound : run.pending.Sound registry) (hhome : run.state.OneHome) {key : Key}
    {before : Option Resource}
    (hbefore : Option.Rel (registry.Records key) (run.state.resource? key) before) :
    Option.Rel (registry.Records key) (after.state.resource? key) (deed.leaves key before) := by
  obtain ⟨hafter, hbooked⟩ := h.booked hhome
  have hstored {file : Path} {resource : Resource} {fields : Bindings} {other : Key}
      (hcontents : after.state.contents =
        run.state.contents.store file { resource with fields := fields })
      (hresource : run.pending.resource? other = some resource)
      (hkept : ∀ spec ∈ resource.type.schema, spec.output = false →
        Table.get? fields spec.name = Table.get? resource.fields spec.name) :
      Option.Rel (registry.Records key) (after.state.resource? key)
        (if other = key then some resource else before) := by
    obtain ⟨-, rfl⟩ := hsound.oneHome.keyed.key_of_resource? hresource
    rw [resource?_of_store hhome hafter hcontents]
    show Option.Rel _ (if resource.key = key then _ else _) _
    by_cases hkey : resource.key = key
    · rw [if_pos hkey, if_pos hkey]
      exact .some ⟨hkey ▸ hsound.type_eq hnamed hresource, rfl, hkept⟩
    · rw [if_neg hkey, if_neg hkey]
      exact hbefore
  have hdropped {other : Key}
      (hcontents : after.state.contents = run.state.contents.drop other) :
      Option.Rel (registry.Records key) (after.state.resource? key)
        (if other = key then none else before) := by
    rw [resource?_of_drop hhome hafter hcontents]
    by_cases hkey : other = key
    · rw [if_pos hkey, if_pos hkey]
      exact .none
    · rw [if_neg hkey, if_neg hkey]
      exact hbefore
  have hsame (hcontents : after.state.contents = run.state.contents) :
      Option.Rel (registry.Records key) (after.state.resource? key) before := by
    rw [resource?_of_contents hhome hafter hcontents]
    exact hbefore
  cases h with
  | created hfile hresource hcall => exact hstored hbooked hresource (hfaithful.create hcall)
  | updated hfile hresource hexisting hcall =>
    exact hstored hbooked hresource (hfaithful.update hcall)
  | deleted => exact hdropped hbooked
  | absent => exact hdropped hbooked
  | reevaluate => exact hsame hbooked
  | createFailed => exact hsame hbooked
  | updateFailed => exact hsame hbooked
  | deleteFailed => exact hsame hbooked
  | save => exact hsame hbooked

/-- After some deeds, what is recorded under a key is what was handed over for it last. -/
theorem Course.records (h : Course backing run deeds after)
    (hfaithful : backing.provider.Faithful) (hnamed : registry.Named)
    (hsound : run.pending.Sound registry) (hhome : run.state.OneHome) {key : Key}
    {before : Option Resource}
    (hbefore : Option.Rel (registry.Records key) (run.state.resource? key) before) :
    Option.Rel (registry.Records key) (after.state.resource? key) (leftBy deeds key before) := by
  induction h generalizing before with
  | nil => exact hbefore
  | cons hdoes _ ih =>
    exact ih (hdoes.sound hsound) (hdoes.booked hhome).1
      (hdoes.records hfaithful hnamed hsound hhome hbefore)

end Records

/-! ## What an applied plan leaves recorded -/

theorem Deed.leaves_of_serves {change : PlannedChange} {deed : Deed} (h : deed.Serves change)
    {key : Key} (hne : change.key ≠ key) (before : Option Resource) :
    deed.leaves key before = before := by
  unfold Deed.leaves
  split
  · exact if_neg (h.1 ▸ hne)
  · exact if_neg (h.1 ▸ hne)
  · exact if_neg (h.1 ▸ hne)
  · exact if_neg (h.1 ▸ hne)
  · rfl

/-- Changes for other keys leave what is recorded under a key as it is. -/
theorem leftBy_others {schedule : Schedule} {key : Key}
    (hexecutes : ∀ part ∈ schedule, Executes part.1 part.2)
    (hothers : ∀ part ∈ schedule, part.1.key ≠ key) (before : Option Resource) :
    leftBy schedule.deeds key before = before := by
  have hkeeps (deeds : List Deed) (h : ∀ deed ∈ deeds, ∀ found, deed.leaves key found = found) :
      leftBy deeds key before = before := by
    induction deeds with
    | nil => rfl
    | cons deed rest ih =>
      show leftBy rest key (deed.leaves key before) = before
      rw [h deed List.mem_cons_self]
      exact ih fun other hother => h other (List.mem_cons_of_mem _ hother)
  refine hkeeps _ fun deed hdeed found => ?_
  obtain ⟨_, hdone, hin⟩ := List.mem_flatten.1 hdeed
  obtain ⟨part, hpart, rfl⟩ := List.mem_map.1 hdone
  exact Deed.leaves_of_serves ((hexecutes part hpart).serves deed hin) (hothers part hpart) found

section Plans

variable {pending current : Inventory} {failures : RefreshFailures} {plan : Plan}
  {schedule : Schedule}

/-- A deletion is planned for recorded keys alone that are no longer pending. -/
theorem planned_delete_iff (hpending : pending.OneHome) (hcurrent : current.OneHome)
    (hplan : diff pending current failures = .ok plan) {change : PlannedChange}
    (hmem : change ∈ plan.changes) :
    change.kind = .delete ↔ pending.has change.key = false := by
  have hkinds := kindsFor_of_mem hmem
  cases hhas : pending.has change.key with
  | true =>
    obtain ⟨p, hp⟩ := (Inventory.has_iff pending change.key).1 hhas
    rw [kindsFor_of_pending hpending hcurrent hplan hp, Option.mem_toList] at hkinds
    constructor
    · intro hdelete
      exact absurd (hdelete ▸ hkinds) (neededKind_ne_delete p)
    · intro hfalse
      cases hfalse
  | false =>
    rw [kindsFor_of_not_pending hpending hcurrent hplan hhas] at hkinds
    split at hkinds
    · exact ⟨fun _ => rfl, fun _ => List.mem_singleton.1 hkinds⟩
    · cases hkinds

/-- A key without a planned change is as pending as it is recorded. -/
theorem unplanned_has (hpending : pending.OneHome) (hcurrent : current.OneHome)
    (hplan : diff pending current failures = .ok plan) {key : Key}
    (hnone : ∀ change ∈ plan.changes, change.key ≠ key) :
    current.has key = pending.has key := by
  have hkinds : plan.kindsFor key = [] := by
    unfold Plan.kindsFor
    rw [List.map_eq_nil_iff, List.filter_eq_nil_iff]
    exact fun change hmem => by simpa using hnone change hmem
  cases hhas : pending.has key with
  | true =>
    obtain ⟨p, hp⟩ := (Inventory.has_iff pending key).1 hhas
    obtain ⟨-, rfl⟩ := hpending.resource?_eq_some_iff.1 hp
    rw [kindsFor_of_pending hpending hcurrent hplan hp, Option.toList_eq_nil_iff] at hkinds
    obtain ⟨c, hc, -⟩ := neededKind_eq_none_iff.1 hkinds
    exact (Inventory.has_iff current p.key).2 ⟨c, hc⟩
  | false =>
    rw [kindsFor_of_not_pending hpending hcurrent hplan hhas] at hkinds
    cases hcurrentHas : current.has key with
    | true =>
      rw [hcurrentHas] at hkinds
      cases hkinds
    | false => rfl

/-- When all changes of a plan have done what they are there for, what is recorded has the keys of
what was pending. -/
theorem leftBy_planned (hpending : pending.OneHome) (hcurrent : current.OneHome)
    (hplan : diff pending current failures = .ok plan)
    (hworkflows : ∀ change ∈ plan.changes, change.kind = .replace →
      ∀ workflow, pending.workflowFor? change.key.type = some workflow → workflow.EndsWithCreate)
    (hall : schedule.map Prod.fst = ChangeGroup.all.flatMap plan.changesIn)
    (hexecutes : ∀ part ∈ schedule, Executes part.1 part.2)
    (haccomplished : ∀ part ∈ schedule, Accomplishes pending.workflowFor? part.1 part.2)
    (key : Key) :
    (leftBy schedule.deeds key (current.resource? key)).isSome = pending.has key := by
  have hperm : (schedule.map Prod.fst).Perm plan.changes := hall ▸ groups_perm plan.changes
  have hsublist : (schedule.map Prod.fst).Sublist (ChangeGroup.all.flatMap plan.changesIn) := by
    rw [hall]
  have honce := scheduled_once hpending hcurrent hplan hsublist
  by_cases hplanned : ∃ part ∈ schedule, part.1.key = key
  · obtain ⟨⟨change, done⟩, hpart, rfl⟩ := hplanned
    have hmem : change ∈ plan.changes := hperm.mem_iff.1 (List.mem_map_of_mem hpart)
    have hdone : Accomplishes pending.workflowFor? change done := haccomplished _ hpart
    obtain ⟨earlier, later, rfl, hdeeds, hothers⟩ := Schedule.around honce hpart
    have hsplit (before : Option Resource) :
        leftBy (Schedule.deeds (earlier ++ (change, done) :: later)) change.key before =
          leftBy done change.key (leftBy earlier.deeds change.key before) := by
      rw [hdeeds, leftBy_append, leftBy_append]
      refine leftBy_others (fun part hmem => hexecutes part ?_) (fun part hmem => hothers part ?_) _
      · exact List.mem_append_right _ (List.mem_cons_of_mem _ hmem)
      · exact List.mem_append_right _ hmem
    rw [hsplit]
    have hdelete := planned_delete_iff hpending hcurrent hplan hmem
    have hstored (hstores : Stores change.key done) (hkind : change.kind ≠ .delete) :
        (leftBy done change.key (leftBy earlier.deeds change.key
          (current.resource? change.key))).isSome = pending.has change.key := by
      obtain ⟨resource, hleft⟩ := hstores
      rw [hleft]
      exact (Bool.of_not_eq_false fun hnot => hkind (hdelete.2 hnot)).symm
    unfold Accomplishes at hdone
    cases hkind : change.kind with
    | create =>
      rw [hkind] at hdone
      exact hstored hdone (by simp [hkind])
    | update =>
      rw [hkind] at hdone
      exact hstored hdone (by simp [hkind])
    | replace =>
      rw [hkind] at hdone
      exact hstored (hdone (hworkflows change hmem hkind)) (by simp [hkind])
    | delete =>
      rw [hkind] at hdone
      have hdone : Drops change.key done := hdone
      rw [hdone, hdelete.1 hkind]
      rfl
  · have hothers : ∀ part ∈ schedule, part.1.key ≠ key := fun part hpart heq =>
      hplanned ⟨part, hpart, heq⟩
    rw [leftBy_others hexecutes hothers]
    refine unplanned_has hpending hcurrent hplan fun change hmem heq => ?_
    obtain ⟨part, hpart, rfl⟩ := List.mem_map.1 (hperm.mem_iff.2 hmem)
    exact hothers part hpart heq

end Plans

/-- Planning for an evaluation of the pending keys finds nothing left to do exactly when it gives for
each of them what was handed over last. -/
def SettlesOn (registry : Registry) (pending current state : Inventory) (deeds : List Deed) : Prop :=
  ∀ again : Inventory, again.Sound registry → (∀ key, again.has key = pending.has key) →
    ((∃ next, diff again state [] = .ok next ∧ next.changes = []) ↔
      ∀ key resource handed, again.resource? key = some resource →
        leftBy deeds key (current.resource? key) = some handed →
        changedFields resource handed = [])

/-- A run of a plan whose changes were all applied settles on what it handed over. -/
theorem applyPlan_settles {registry : Registry} {pending current : Inventory}
    {failures : RefreshFailures} {plan : Plan} (backing : Backing ω)
    (approve : ChangeGroup → List PlannedChange → Bool) (failFast : Bool) (world : ω)
    (hfaithful : backing.provider.Faithful) (hnamed : registry.Named)
    (hpending : pending.Sound registry) (hcurrent : current.Sound registry)
    (hplan : diff pending current failures = .ok plan)
    (hworkflows : ∀ change ∈ plan.changes, change.kind = .replace →
      ∀ workflow, pending.workflowFor? change.key.type = some workflow → workflow.EndsWithCreate)
    (happlied : ∀ result ∈
      (applyPlan backing approve failFast plan ⟨pending, current, world⟩).1.results,
      result.status = .applied) :
    ∃ deeds, Course backing ⟨pending, current, world⟩ deeds
        (applyPlan backing approve failFast plan ⟨pending, current, world⟩).2 ∧
      SettlesOn registry pending current
        (applyPlan backing approve failFast plan ⟨pending, current, world⟩).2.state deeds := by
  obtain ⟨schedule, -, hexecutes, hcourse, hdone⟩ :=
    applyPlan_follows backing approve failFast plan ⟨pending, current, world⟩
  obtain ⟨hall, haccomplished⟩ := hdone happlied
  refine ⟨schedule.deeds, hcourse, ?_⟩
  generalize (applyPlan backing approve failFast plan ⟨pending, current, world⟩).2 = after
    at hcourse ⊢
  intro again hagain hkeys
  have hafter : after.state.OneHome := (hcourse.booked hcurrent.oneHome).1
  have hrecords (key : Key) : Option.Rel (registry.Records key) (after.state.resource? key)
      (leftBy schedule.deeds key (current.resource? key)) := by
    refine hcourse.records hfaithful hnamed hpending hcurrent.oneHome ?_
    show Option.Rel _ (current.resource? key) (current.resource? key)
    cases hfound : current.resource? key with
    | none => exact .none
    | some found => exact .some ⟨hcurrent.type_eq hnamed hfound, rfl, fun _ _ _ => rfl⟩
  have hleft := leftBy_planned hpending.oneHome hcurrent.oneHome hplan hworkflows hall hexecutes
    haccomplished
  -- So what is recorded after the run has the keys that were pending.
  have hrecorded (key : Key) : again.has key = after.state.has key := by
    rw [hkeys, ← hleft]
    have hrecord := hrecords key
    unfold Inventory.has
    generalize after.state.resource? key = recorded, leftBy _ _ _ = handed at hrecord ⊢
    cases hrecord with
    | none => rfl
    | some => rfl
  have hchanged {key : Key} {resource recorded handed : Resource}
      (hresource : again.resource? key = some resource)
      (hrecord : registry.Records key recorded handed) :
      changedFields resource recorded = changedFields resource handed := by
    refine changedFields_of_records hrecord ?_
    have htype := hagain.type_eq hnamed hresource
    rw [hrecord.type_eq] at htype
    exact (Option.some.inj htype).symm
  rw [diff_nothing_iff hagain.oneHome hafter, and_iff_right hrecorded]
  refine forall_congr' fun key => forall_congr' fun resource => ?_
  have hrecord := hrecords key
  generalize after.state.resource? key = recorded, leftBy _ _ _ = handed at hrecord ⊢
  cases hrecord with
  | none => simp
  | some hrecord =>
    constructor
    · rintro hnothing _ hresource ⟨⟩
      rw [← hchanged hresource hrecord]
      exact hnothing _ hresource rfl
    · rintro hgiven _ hresource ⟨⟩
      rw [hchanged hresource hrecord]
      exact hgiven _ hresource rfl

/-! ### Crates that take two runs -/

/-- The fields of a crate with the seal that goes with its label. -/
def sealedFields (call : Call) (fields : Bindings) : Bindings :=
  if call.type = crateType then
    match Table.get? fields "label" with
    | some (.text label) => Table.set fields "seal" (.text ("sealed " ++ label))
    | _ => Table.set fields "seal" .null
  else fields

/-- A backing that always succeeds, and seals the crates that it handles. -/
def sealing : Backing Unit where
  provider :=
    { refresh := fun _ fields world => ((.ok true, fields), world)
      create := fun call fields world => ((.ok (), sealedFields call fields), world)
      update := fun call _ pending _ world => ((.ok (), sealedFields call pending), world)
      delete := fun _ _ world => (.ok (), world) }
  save := fun _ world => (.ok (), world)

theorem get?_sealedFields {call : Call} {fields : Bindings} {spec : FieldSpec}
    (hspec : spec ∈ call.type.schema) (houtput : spec.output = false) :
    Table.get? (sealedFields call fields) spec.name = Table.get? fields spec.name := by
  unfold sealedFields
  split
  · next htype =>
    have hplain : ∀ spec ∈ crateType.schema, spec.output = false → "seal" ≠ spec.name := by decide
    have hne := hplain spec (htype ▸ hspec) houtput
    split <;> rw [Table.get?_set, if_neg hne]
  · rfl

theorem sealing_faithful : sealing.provider.Faithful where
  create := by
    rintro call given world fields after ⟨⟩ spec hspec houtput
    exact get?_sealedFields hspec houtput
  update := by
    rintro call existing given changed world fields after ⟨⟩ spec hspec houtput
    exact get?_sealedFields hspec houtput

/-- The label of the second crate is the seal of the first one. -/
def chainedCrates (label : String) : Language.SourceFile :=
  ⟨"main", [crateBlock 1 "first" (.text "dock") (.text label),
    crateBlock 5 "second" (.text "hall") (crateSeal 7 "first")]⟩

/-- Plans what gives the recorded crates a label, and carries it out. -/
def relabel (label : String) (state : Inventory) : Option (Plan × ApplyReport × Inventory) :=
  (evaluateConfiguration crateRegistry (some state) [chainedCrates label]).toOption.bind
    fun pending => (diff pending state []).toOption.map fun plan =>
      let result := applyPlan sealing (fun _ _ => true) true plan ⟨pending, state, ()⟩
      (plan, result.1, result.2.state)

/-- Two crates with the label `x`. -/
def chainedRecord : Language.SourceFile :=
  ⟨"main", [crateRecord 1 "first" "dock" "x" "sealed x",
    crateRecord 7 "second" "hall" "sealed x" "sealed sealed x"]⟩

/-- The plan for the label `y` is carried out in full, and settles on what was handed over. -/
theorem applyPlan_settles_crates :
    ∃ current pending plan, evaluateState crateRegistry [chainedRecord] = .ok current ∧
      evaluateConfiguration crateRegistry (some current) [chainedCrates "y"] = .ok pending ∧
      diff pending current [] = .ok plan ∧
      plan.changes.map (fun change => (change.kind, change.key.name)) = [(.update, "first")] ∧
      ∃ deeds, Course sealing ⟨pending, current, ()⟩ deeds
          (applyPlan sealing (fun _ _ => true) true plan ⟨pending, current, ()⟩).2 ∧
        SettlesOn crateRegistry pending current
          (applyPlan sealing (fun _ _ => true) true plan ⟨pending, current, ()⟩).2.state deeds := by
  have hrun : (evaluateState crateRegistry [chainedRecord]).toOption.bind (fun current =>
      (evaluateConfiguration crateRegistry (some current) [chainedCrates "y"]).toOption.bind
        fun pending => (diff pending current []).toOption.map fun plan =>
          (plan.changes.map (fun change => (change.kind, change.key.name)),
            (applyPlan sealing (fun _ _ => true) true plan ⟨pending, current, ()⟩).1.results.map
              ChangeResult.status)) =
      some ([(.update, "first")], [.applied]) := by decide +kernel
  obtain ⟨current, hcurrent, hrun⟩ := Option.bind_eq_some_iff.1 hrun
  obtain ⟨pending, hpending, hrun⟩ := Option.bind_eq_some_iff.1 hrun
  obtain ⟨plan, hplan, hdone⟩ := Option.map_eq_some_iff.1 hrun
  obtain ⟨hkinds, hstatuses⟩ := Prod.mk.inj hdone
  rw [toOption_eq_some] at hcurrent hpending hplan
  refine ⟨current, pending, plan, hcurrent, hpending, hplan, hkinds,
    applyPlan_settles sealing (fun _ _ => true) true () sealing_faithful crateRegistry_named
      (evaluateConfiguration_sound hpending) (evaluateState_sound hcurrent) hplan ?_ ?_⟩
  · intro change hmem hreplace
    have hpair := List.mem_map_of_mem (f := fun change => (change.kind, change.key.name)) hmem
    rw [hkinds, List.mem_singleton, hreplace] at hpair
    cases hpair
  · intro result hmem
    have hstatus := List.mem_map_of_mem (f := ChangeResult.status) hmem
    rw [hstatuses] at hstatus
    exact List.mem_singleton.1 hstatus

/-- Giving crates that carry the label `x` the label `y` is planned as one update, which is applied;
the same configuration then calls for an update of the second crate. -/
theorem relabel_twice :
    (relabel "x" (.empty crateRegistry)).bind (fun first =>
      (relabel "y" first.2.2).bind fun second => (relabel "y" second.2.2).map fun third =>
        (second.2.1.results.map (fun result => (result.kind, result.key.name, result.status)),
          third.1.changes.map fun change => (change.kind, change.key.name))) =
    some ([(.update, "first", .applied)], [(.update, "second")]) := by
  decide +kernel

end Provision

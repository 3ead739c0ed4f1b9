import Provision.Plan.Refresh
import Provision.Proofs.Inventory.Sifting
import Provision.Proofs.Plan.Exact
import Provision.Proofs.Sorted

/-!
# What a refresh keeps

A refresh asks the provider about one recorded resource after the other.  Each answer touches the
resource that it is about and no other one, so the whole refresh puts every resource through the
same sieve: it is dropped when it is gone, takes the fields that its provider reports, or stays as
it was recorded.  A failure is noted under its key, and the plan that is made of the outcome
replaces or deletes every resource whose state is unknown.
-/

namespace Provision

/-! ## Failures in key order -/

namespace RefreshFailures

variable {key other : Key} {message : String}

theorem get?_note (key : Key) (message : String) (failures : RefreshFailures) (other : Key) :
    Table.get? (note key message failures) other =
      if key = other then some message else Table.get? failures other := by
  induction failures with
  | nil => rfl
  | cons entry rest ih =>
    obtain ⟨first, text⟩ := entry
    unfold note
    by_cases hfirst : key = first
    · subst hfirst
      rw [if_pos rfl, Table.get?, Table.get?]
      by_cases hkey : key = other
      · rw [if_pos hkey, if_pos hkey]
      · rw [if_neg hkey, if_neg hkey, if_neg hkey]
    · rw [if_neg hfirst]
      split
      · rw [Table.get?]
      · rw [Table.get?, Table.get?, ih]
        by_cases hkey : first = other
        · subst hkey
          rw [if_pos rfl, if_pos rfl, if_neg hfirst]
        · rw [if_neg hkey, if_neg hkey]

theorem keys_note (key : Key) (message : String) (failures : RefreshFailures) :
    Table.keys (note key message failures) = Sorted.insert key (Table.keys failures) := by
  induction failures with
  | nil => rfl
  | cons entry rest ih =>
    obtain ⟨first, text⟩ := entry
    have hkeys : Table.keys ((first, text) :: rest) = first :: Table.keys rest := rfl
    rw [hkeys]
    unfold note Sorted.insert
    by_cases hfirst : key = first
    · rw [if_pos hfirst, if_pos hfirst, hfirst]
      rfl
    · rw [if_neg hfirst, if_neg hfirst]
      split
      · rfl
      · exact congrArg (first :: ·) ih

end RefreshFailures

/-! ## One resource after the other -/

/-- What a provider says to a refresh: whether the resource is still there, and its fields. -/
abbrev RefreshAnswers := Call → Bindings → Except String Bool × Bindings

/-- The provider goes by the call and the fields alone. -/
def Provider.RefreshesBy {ω : Type} (provider : Provider ω) (answers : RefreshAnswers) : Prop :=
  ∀ call fields world, (provider.refresh call fields world).1 = answers call fields

/-- Whether a resource is of a type that can be refreshed. -/
def Resource.Refreshable (resource : Resource) : Prop :=
  resource.type.capabilities.refresh = true

/-- What the provider says to the refresh of a resource. -/
def Resource.answer (answers : RefreshAnswers) (resource : Resource) : Except String Bool × Bindings :=
  answers resource.call resource.fields

/-- What is left of a resource after its refresh. -/
def Resource.refreshed (answers : RefreshAnswers) (resource : Resource) : Option Resource :=
  if resource.type.capabilities.refresh then
    match resource.answer answers with
    | (.ok true, fields) => some { resource with fields := fields }
    | (.ok false, _) => none
    | (.error _, _) => some resource
  else some resource

/-- The message of the refresh, when it fails. -/
def Resource.refreshFailure? (answers : RefreshAnswers) (resource : Resource) : Option String :=
  if resource.type.capabilities.refresh then
    match (resource.answer answers).1 with
    | .ok _ => none
    | .error message => some message
  else none

section Refreshing

variable {ω : Type} {provider : Provider ω} {answers : RefreshAnswers} {resource : Resource}
variable {progress : Refreshed ω} {key : Key} {current : Inventory}

theorem keepsKeys_refreshed (answers : RefreshAnswers) : KeepsKeys (Resource.refreshed answers) := by
  intro resource kept hkept
  unfold Resource.refreshed at hkept
  split at hkept
  · split at hkept
    · cases hkept
      rfl
    · cases hkept
    · cases hkept
      rfl
  · cases hkept
    rfl

/-- Refreshing one resource puts the inventory through the sieve for its key, and notes the message
when it fails. -/
theorem refreshOne_eq (hanswers : provider.RefreshesBy answers) (h : progress.inventory.OneHome)
    (key : Key) :
    (refreshOne provider progress key).inventory =
        progress.inventory.sifted (onlyAt key (Resource.refreshed answers)) ∧
      (refreshOne provider progress key).failures =
        match (progress.inventory.resource? key).bind (Resource.refreshFailure? answers) with
        | some message => progress.failures.note key message
        | none => progress.failures := by
  unfold refreshOne
  cases hfound : progress.inventory.resource? key with
  | none =>
    refine ⟨(Inventory.sifted_onlyAt_of_same h fun found hsome => ?_).symm, rfl⟩
    rw [hfound] at hsome
    cases hsome
  | some resource =>
    have hsame (hkept : resource.refreshed answers = some resource) :
        progress.inventory =
          progress.inventory.sifted (onlyAt key (Resource.refreshed answers)) := by
      refine (Inventory.sifted_onlyAt_of_same h fun found hsome => ?_).symm
      cases hfound.symm.trans hsome
      exact hkept
    have hanswer := hanswers resource.call resource.fields progress.world
    dsimp only [Option.bind_some]
    cases hrefresh : resource.type.capabilities.refresh with
    | false =>
      have hkept : resource.refreshed answers = some resource := by
        unfold Resource.refreshed
        rw [hrefresh]
        rfl
      have hnone : resource.refreshFailure? answers = none := by
        unfold Resource.refreshFailure?
        rw [hrefresh]
        rfl
      rw [hnone]
      exact ⟨hsame hkept, rfl⟩
    | true =>
      have hkept : resource.refreshed answers =
          match answers resource.call resource.fields with
          | (.ok true, fields) => some { resource with fields := fields }
          | (.ok false, _) => none
          | (.error _, _) => some resource := by
        unfold Resource.refreshed
        rw [hrefresh, if_pos rfl]
        rfl
      have hmessage : resource.refreshFailure? answers =
          match (answers resource.call resource.fields).1 with
          | .ok _ => none
          | .error message => some message := by
        unfold Resource.refreshFailure?
        rw [hrefresh, if_pos rfl]
        rfl
      rw [← hanswer] at hkept hmessage
      rw [if_neg (by simp)]
      generalize provider.refresh resource.call resource.fields progress.world = result
        at hkept hmessage ⊢
      rw [hmessage]
      match result, hkept with
      | ((.ok true, fields), world), hkept =>
        exact ⟨Inventory.update_eq_sifted h hfound hkept, rfl⟩
      | ((.ok false, fields), world), hkept =>
        exact ⟨Inventory.remove_eq_sifted h hfound hkept, rfl⟩
      | ((.error message, fields), world), hkept => exact ⟨hsame hkept, rfl⟩

/-- Refreshing some resources puts the inventory through the sieve for their keys. -/
theorem inventory_foldl_refreshOne (hanswers : provider.RefreshesBy answers) {keys : List Key}
    (hkeys : keys.Nodup) (h : progress.inventory.OneHome) :
    (keys.foldl (refreshOne provider) progress).inventory =
      progress.inventory.sifted fun resource =>
        if resource.key ∈ keys then resource.refreshed answers else some resource := by
  induction keys generalizing progress with
  | nil =>
    refine (Inventory.sifted_of_same fun resource _ => ?_).symm
    exact if_neg List.not_mem_nil
  | cons key rest ih =>
    obtain ⟨hkey, hrest⟩ := List.nodup_cons.1 hkeys
    obtain ⟨hinventory, -⟩ := refreshOne_eq hanswers h key
    have hafter : (refreshOne provider progress key).inventory.OneHome :=
      hinventory ▸ Inventory.oneHome_sifted h ((keepsKeys_refreshed answers).onlyAt key)
    rw [List.foldl_cons, ih hrest hafter, hinventory, Inventory.sifted_sifted]
    refine Inventory.sifted_congr fun resource _ => ?_
    unfold onlyAt
    by_cases hhere : resource.key = key
    · subst hhere
      rw [if_pos rfl, if_pos List.mem_cons_self]
      cases hkept : resource.refreshed answers with
      | none => rfl
      | some kept =>
        have hsame : kept.key = resource.key := keepsKeys_refreshed answers resource kept hkept
        exact if_neg (hsame ▸ hkey)
    · rw [if_neg hhere, Option.bind_some]
      simp only [List.mem_cons, hhere, false_or]

/-- The failures after some refreshes are those of the resources that were refreshed, on top of the
earlier ones. -/
theorem failures_foldl_refreshOne (hanswers : provider.RefreshesBy answers) {keys : List Key}
    (hkeys : keys.Nodup) (h : progress.inventory.OneHome) (key : Key) :
    Table.get? (keys.foldl (refreshOne provider) progress).failures key =
      (if key ∈ keys then
        (progress.inventory.resource? key).bind (Resource.refreshFailure? answers) else none).or
        (Table.get? progress.failures key) := by
  induction keys generalizing progress with
  | nil =>
    rw [if_neg List.not_mem_nil]
    rfl
  | cons first rest ih =>
    obtain ⟨hfirst, hrest⟩ := List.nodup_cons.1 hkeys
    obtain ⟨hinventory, hfailures⟩ := refreshOne_eq hanswers h first
    have hafter : (refreshOne provider progress first).inventory.OneHome :=
      hinventory ▸ Inventory.oneHome_sifted h ((keepsKeys_refreshed answers).onlyAt first)
    have hnoted : Table.get? (refreshOne provider progress first).failures key =
        (if first = key then
          (progress.inventory.resource? key).bind (Resource.refreshFailure? answers) else none).or
          (Table.get? progress.failures key) := by
      rw [hfailures]
      by_cases hkey : first = key
      · subst hkey
        rw [if_pos rfl]
        cases (progress.inventory.resource? first).bind (Resource.refreshFailure? answers) with
        | none => rfl
        | some message => exact (RefreshFailures.get?_note _ _ _ _).trans (if_pos rfl)
      · rw [if_neg hkey]
        cases (progress.inventory.resource? first).bind (Resource.refreshFailure? answers) with
        | none => rfl
        | some message => exact (RefreshFailures.get?_note _ _ _ _).trans (if_neg hkey)
    rw [List.foldl_cons, ih hrest hafter, hnoted]
    by_cases hkey : first = key
    · subst hkey
      rw [if_neg hfirst, if_pos rfl, if_pos List.mem_cons_self, Option.none_or]
    · have hlook : (refreshOne provider progress first).inventory.resource? key =
          progress.inventory.resource? key := by
        rw [hinventory, Inventory.resource?_sifted h ((keepsKeys_refreshed answers).onlyAt first)]
        cases hfound : progress.inventory.resource? key with
        | none => rfl
        | some resource =>
          obtain ⟨-, hresource⟩ := h.resource?_eq_some_iff.1 hfound
          exact if_neg fun heq => hkey (heq.symm.trans hresource)
      have hmem : key ∈ first :: rest ↔ key ∈ rest := by
        rw [List.mem_cons]
        exact or_iff_right (Ne.symm hkey)
      rw [hlook, if_neg hkey, Option.none_or]
      simp only [hmem]

/-- Failures are noted in key order, whatever the provider does. -/
theorem strict_foldl_refreshOne (provider : Provider ω) (keys : List Key)
    (h : Sorted.Strict (Table.keys progress.failures)) :
    Sorted.Strict (Table.keys (keys.foldl (refreshOne provider) progress).failures) := by
  refine List.foldlRecOn
    (motive := fun after : Refreshed ω => Sorted.Strict (Table.keys after.failures)) keys _ h
    fun after hafter key _ => ?_
  unfold refreshOne
  split
  · exact hafter
  · split
    · exact hafter
    · split
      · exact hafter
      · exact hafter
      · show Sorted.Strict (Table.keys (RefreshFailures.note _ _ _))
        rw [RefreshFailures.keys_note]
        exact Sorted.strict_insert key hafter

/-- A refresh puts the recorded inventory through the sieve of its provider's answers. -/
theorem inventory_refresh (hanswers : provider.RefreshesBy answers) (h : current.OneHome) (world : ω) :
    (refresh provider current world).inventory = current.sifted (Resource.refreshed answers) := by
  refine (inventory_foldl_refreshOne hanswers h.once h).trans
    (Inventory.sifted_congr fun resource hresource => if_pos ?_)
  exact List.mem_map_of_mem hresource

theorem get?_failures_refresh (hanswers : provider.RefreshesBy answers) (h : current.OneHome)
    (world : ω) (key : Key) :
    Table.get? (refresh provider current world).failures key =
      (current.resource? key).bind (Resource.refreshFailure? answers) := by
  refine (failures_foldl_refreshOne hanswers h.once h key).trans ?_
  show (if _ then (current.resource? key).bind _ else none).or none = _
  rw [Option.or_none]
  cases hfound : current.resource? key with
  | none => exact ite_self _
  | some resource =>
    obtain ⟨hmem, rfl⟩ := h.resource?_eq_some_iff.1 hfound
    exact if_pos (List.mem_map_of_mem hmem)

end Refreshing

/-! ## The plan after a refresh -/

section Planned

variable {pending current : Inventory} {failures : RefreshFailures} {plan : Plan}

/-- What is said of a type that no workflow can replace. -/
def missingWorkflow (pending : Inventory) (key : Key) : String :=
  match pending.workflowFor? key.type with
  | some _ => ""
  | none => "; " ++ ("no workflow replaces `" ++ key.type.text ++ "`; skipped")

/-- A pending resource whose refresh failed has the message in its hint. -/
theorem candidate?_of_failure {p c : Resource} {message : String} {candidate : Candidate}
    (hc : current.resource? p.key = some c)
    (hfailed : Table.get? failures p.key = some message)
    (h : candidate? pending current failures p = some candidate) :
    candidate.hint =
      some ("state unknown, refresh failed: " ++ message ++ missingWorkflow pending p.key) := by
  unfold candidate? at h
  rw [hc] at h
  dsimp only at h
  rw [hfailed, Option.isSome_some, if_pos rfl, Option.map_some, if_pos rfl] at h
  unfold missingWorkflow
  cases hworkflow : pending.workflowFor? p.key.type with
  | some workflow =>
    rw [hworkflow] at h
    cases h
    exact congrArg some String.append_empty.symm
  | none =>
    rw [hworkflow] at h
    cases h
    refine congrArg some ?_
    simp only [String.append_assoc]

theorem mem_numberChanges {candidates : List Candidate} {change : PlannedChange}
    (h : change ∈ numberChanges candidates) :
    ∃ candidate ∈ candidates, change.kind = candidate.kind ∧ change.key = candidate.key ∧
      change.hint = candidate.hint := by
  obtain ⟨⟨candidate, index⟩, hentry, rfl⟩ := List.mem_map.1 h
  exact ⟨candidate, List.fst_mem_of_mem_zipIdx hentry, rfl, rfl, rfl⟩

/-- A change that is no deletion comes from a pending resource. -/
theorem exists_candidate_of_change (h : diff pending current failures = .ok plan)
    {change : PlannedChange} (hmem : change ∈ plan.changes) (hkind : change.kind ≠ .delete) :
    ∃ p ∈ pending.resources, ∃ candidate, candidate? pending current failures p = some candidate ∧
      change.key = p.key ∧ change.hint = candidate.hint := by
  obtain ⟨forward, replaces, deletes, hparts, hchanges, -⟩ := diff_parts h
  rw [hchanges] at hmem
  obtain ⟨candidate, hcandidate, hkind', hkey, hhint⟩ := mem_numberChanges hmem
  rcases List.mem_append.1 (hparts.perm.subset hcandidate) with hneeded | hgone
  · obtain ⟨p, hp, hsome⟩ := List.mem_filterMap.1 hneeded
    exact ⟨p, hp, candidate, hsome, hkey.trans (candidate?_of_resource hsome).1, hhint⟩
  · obtain ⟨resource, -, rfl⟩ := List.mem_map.1 hgone
    exact absurd hkind' hkind

theorem warnings_of_diff (h : diff pending current failures = .ok plan) :
    plan.warnings =
      failures.map fun entry => "could not refresh " ++ entry.1.text ++ ": " ++ entry.2 := by
  unfold diff at h
  obtain ⟨forward, -, h⟩ := bind_eq_ok.1 h
  obtain ⟨replaces, -, h⟩ := bind_eq_ok.1 h
  obtain ⟨deletes, -, h⟩ := bind_eq_ok.1 h
  cases h
  rfl

/-- A plan that deals with every resource whose state is unknown. -/
structure Plan.Reflects (plan : Plan) (pending : Inventory) (failures : RefreshFailures) : Prop where
  /-- What is pending is replaced, and the message is in the hint. -/
  replaces : ∀ key message, Table.get? failures key = some message → pending.has key = true →
    ∃ change, plan.changes.filter (fun change => change.key = key) = [change] ∧
      change.kind = .replace ∧
      change.hint =
        some ("state unknown, refresh failed: " ++ message ++ missingWorkflow pending key)
  /-- What is no longer pending is deleted. -/
  deletes : ∀ key message, Table.get? failures key = some message → pending.has key = false →
    ∃ change, plan.changes.filter (fun change => change.key = key) = [change] ∧
      change.kind = .delete
  /-- There is one warning for each failure, in their order. -/
  warnings : plan.warnings =
    failures.map fun entry => "could not refresh " ++ entry.1.text ++ ": " ++ entry.2

theorem reflects_of_diff (hpending : pending.OneHome) (hcurrent : current.OneHome)
    (hfailures : ∀ key message, Table.get? failures key = some message → current.has key = true)
    (h : diff pending current failures = .ok plan) :
    plan.Reflects pending failures := by
  have hone : ∀ {key : Key} {kind : ChangeKind}, plan.kindsFor key = [kind] →
      ∃ change, plan.changes.filter (fun change => change.key = key) = [change] ∧
        change.kind = kind :=
    fun hkinds => List.map_eq_singleton_iff.1 hkinds
  constructor
  case replaces =>
    intro key message hfailed hhas
    obtain ⟨p, hp⟩ := (Inventory.has_iff pending key).1 hhas
    obtain ⟨c, hc⟩ := (Inventory.has_iff current key).1 (hfailures key message hfailed)
    obtain ⟨-, rfl⟩ := hpending.resource?_eq_some_iff.1 hp
    have hkinds := kindsFor_of_pending hpending hcurrent h hp
    rw [neededKind_of_replacement hc (Or.inl (Option.isSome_of_eq_some hfailed))] at hkinds
    obtain ⟨change, hchange, hkind⟩ := hone hkinds
    refine ⟨change, hchange, hkind, ?_⟩
    have hmem : change ∈ plan.changes.filter fun change => change.key = p.key := by
      rw [hchange]
      exact List.mem_singleton_self change
    obtain ⟨hmem, hkey⟩ := List.mem_filter.1 hmem
    obtain ⟨source, hsource, candidate, hcandidate, hfrom, hhint⟩ :=
      exists_candidate_of_change h hmem (by simp [hkind])
    have heq : source.key = p.key := hfrom.symm.trans (of_decide_eq_true hkey)
    rw [hhint, ← heq]
    exact candidate?_of_failure (heq ▸ hc) (heq ▸ hfailed) hcandidate
  case deletes =>
    intro key message hfailed hhas
    have hkinds := kindsFor_of_not_pending hpending hcurrent h hhas
    rw [if_pos (hfailures key message hfailed)] at hkinds
    exact hone hkinds
  case warnings => exact warnings_of_diff h

end Planned

/-! ## What is kept -/

/-- What a refresh makes of a recorded inventory, in terms of the provider's answers. -/
structure Refreshed.Faithful {ω : Type} (after : Refreshed ω) (before : Inventory)
    (answers : RefreshAnswers) : Prop where
  /-- A resource is dropped only when its provider reports it gone. -/
  present : ∀ key resource, before.resource? key = some resource →
    (after.inventory.has key = true ↔
      ¬ resource.Refreshable ∨ (resource.answer answers).1 ≠ .ok false)
  nothingNew : ∀ key, before.has key = false → after.inventory.has key = false
  reloaded : ∀ key old new, before.resource? key = some old →
    after.inventory.resource? key = some new →
      old.Refreshable → (old.answer answers).1 = .ok true → new.fields = (old.answer answers).2
  recorded : ∀ key old new, before.resource? key = some old →
    after.inventory.resource? key = some new →
      ¬ old.Refreshable ∨ (∃ message, (old.answer answers).1 = .error message) →
        new.fields = old.fields
  /-- Besides the fields all stays as it was recorded. -/
  others : ∀ key old new, before.resource? key = some old →
    after.inventory.resource? key = some new → new = { old with fields := new.fields }
  file : ∀ key, after.inventory.has key = true →
    after.inventory.fileOf? key = before.fileOf? key
  /-- The files hold the keys that are left, in the order of before. -/
  order : after.inventory.files.map (fun file => (file.path, Table.keys file.resources)) =
    before.files.map fun file =>
      (file.path, (Table.keys file.resources).filter after.inventory.has)
  failures : ∀ key message, Table.get? after.failures key = some message ↔
    ∃ resource, before.resource? key = some resource ∧ resource.Refreshable ∧
      (resource.answer answers).1 = .error message
  sorted : Sorted.Strict (Table.keys after.failures)

section Faithful

variable {answers : RefreshAnswers} {old new : Resource}

theorem isSome_refreshed :
    (old.refreshed answers).isSome = true ↔
      ¬ old.Refreshable ∨ (old.answer answers).1 ≠ .ok false := by
  unfold Resource.refreshed Resource.Refreshable
  cases old.type.capabilities.refresh with
  | false => simp
  | true =>
    obtain ⟨answer, fields⟩ := old.answer answers
    match answer with
    | .ok true => simp
    | .ok false => simp
    | .error message => simp

theorem fields_refreshed (h : old.refreshed answers = some new) :
    new = { old with fields := new.fields } ∧
      (old.Refreshable → (old.answer answers).1 = .ok true →
        new.fields = (old.answer answers).2) ∧
      (¬ old.Refreshable ∨ (∃ message, (old.answer answers).1 = .error message) →
        new.fields = old.fields) := by
  unfold Resource.refreshed at h
  unfold Resource.Refreshable
  cases hrefresh : old.type.capabilities.refresh with
  | false =>
    rw [hrefresh, if_neg (by simp)] at h
    cases h
    exact ⟨rfl, fun htrue => by simp at htrue, fun _ => rfl⟩
  | true =>
    rw [hrefresh, if_pos rfl] at h
    generalize old.answer answers = result at h ⊢
    obtain ⟨answer, fields⟩ := result
    match answer with
    | .ok true =>
      cases h
      exact ⟨rfl, fun _ _ => rfl, by simp⟩
    | .ok false => cases h
    | .error message =>
      cases h
      exact ⟨rfl, fun _ herror => by simp at herror, fun _ => rfl⟩

theorem refreshFailure?_eq_some_iff {message : String} :
    old.refreshFailure? answers = some message ↔
      old.Refreshable ∧ (old.answer answers).1 = .error message := by
  unfold Resource.refreshFailure? Resource.Refreshable
  cases old.type.capabilities.refresh with
  | false => simp
  | true => cases (old.answer answers).1 <;> simp

end Faithful

/-- A refresh drops what is gone, reloads what is there and keeps the rest as it was recorded, and
any plan that is made of the outcome deals with each resource whose state is unknown. -/
theorem refresh_faithful {ω : Type} {provider : Provider ω} {answers : RefreshAnswers}
    {current : Inventory} (hanswers : provider.RefreshesBy answers) (hcurrent : current.OneHome)
    (world : ω) :
    (refresh provider current world).Faithful current answers ∧
      ∀ pending plan, pending.OneHome →
        diff pending (refresh provider current world).inventory
          (refresh provider current world).failures = .ok plan →
        plan.Reflects pending (refresh provider current world).failures := by
  have hkeep := keepsKeys_refreshed answers
  have hinventory := inventory_refresh hanswers hcurrent world
  have hlook : ∀ key, (refresh provider current world).inventory.resource? key =
      (current.resource? key).bind (Resource.refreshed answers) := by
    intro key
    rw [hinventory, Inventory.resource?_sifted hcurrent hkeep]
  have hleft : ∀ {key old new}, current.resource? key = some old →
      (refresh provider current world).inventory.resource? key = some new →
        old.refreshed answers = some new := by
    intro key old new hold hnew
    rwa [hlook, hold] at hnew
  have hfailures : ∀ key message,
      Table.get? (refresh provider current world).failures key = some message ↔
        ∃ resource, current.resource? key = some resource ∧ resource.Refreshable ∧
          (resource.answer answers).1 = .error message := by
    intro key message
    rw [get?_failures_refresh hanswers hcurrent, Option.bind_eq_some_iff]
    simp only [refreshFailure?_eq_some_iff]
  refine ⟨?_, fun pending plan hpending hplan => ?_⟩
  · constructor
    case present =>
      intro key resource hfound
      unfold Inventory.has
      rw [hlook, hfound]
      exact isSome_refreshed
    case nothingNew =>
      intro key hnone
      rw [Inventory.has_eq_false_iff] at hnone ⊢
      rw [hlook, hnone]
      rfl
    case reloaded => exact fun key old new hold hnew => (fields_refreshed (hleft hold hnew)).2.1
    case recorded => exact fun key old new hold hnew => (fields_refreshed (hleft hold hnew)).2.2
    case others => exact fun key old new hold hnew => (fields_refreshed (hleft hold hnew)).1
    case file =>
      intro key hhas
      rw [hinventory] at hhas ⊢
      exact Inventory.fileOf?_sifted hcurrent hkeep hhas
    case order =>
      rw [hinventory]
      exact Inventory.files_sifted hcurrent hkeep
    case failures => exact hfailures
    case sorted => exact strict_foldl_refreshOne provider _ List.Pairwise.nil
  · have hafter : (refresh provider current world).inventory.OneHome :=
      hinventory ▸ Inventory.oneHome_sifted hcurrent hkeep
    refine reflects_of_diff hpending hafter (fun key message hfailed => ?_) hplan
    -- a resource whose refresh failed stays where it is
    obtain ⟨resource, hfound, -, herror⟩ := (hfailures key message).1 hfailed
    unfold Inventory.has
    rw [hlook, hfound]
    exact isSome_refreshed.2 (Or.inr (by simp [herror]))

/-! ### A refresh with every kind of answer -/

/-- The shelf `gone` is not there any more, those at the harbor cannot be reached, and all others
are found where they are recorded, with a worn label. -/
def inspection : RefreshAnswers := fun call fields =>
  if call.key.name = "gone" then (.ok false, fields)
  else if Table.get? fields "place" matches some (.text "harbor") then (.error "no ferry", [])
  else (.ok true, Table.set fields "label" (.text "worn"))

/-- An inspector who counts the visits. -/
def inspector : Provider Nat where
  refresh call fields visits := (inspection call fields, visits + 1)
  create _ fields visits := ((.ok (), fields), visits)
  update _ _ pending _ visits := ((.ok (), pending), visits)
  delete _ _ visits := (.ok (), visits)

/-- The shelves as they are recorded before the inspection. -/
def shelvesInspected : Inventory :=
  shelves [shelf "quay" "harbor" "q" [], shelf "kept" "east" "k" [], shelf "gone" "west" "g" [],
    shelf "dock" "harbor" "d" []]

/-- The shelf `dock` is no longer wanted. -/
def shelvesStillWanted : Inventory :=
  shelves [shelf "quay" "harbor" "q" [], shelf "kept" "east" "k" []]

/-- The two shelves at the harbor stay as they were recorded; one of them is replaced and the other
deleted. -/
theorem shelves_inspected :
    inspector.RefreshesBy inspection ∧ shelvesInspected.OneHome ∧ shelvesStillWanted.OneHome ∧
      (refresh inspector shelvesInspected 0).inventory.resources.map
          (fun resource => (resource.key.name, (resource.fields.map Prod.snd).map Value.plainText)) =
        [("quay", ["harbor", "q"]), ("kept", ["east", "worn"]), ("dock", ["harbor", "d"])] ∧
      (refresh inspector shelvesInspected 0).Faithful shelvesInspected inspection ∧
      ∃ plan, diff shelvesStillWanted (refresh inspector shelvesInspected 0).inventory
          (refresh inspector shelvesInspected 0).failures = .ok plan ∧
        plan.changes.map (fun change => (change.kind, change.key.name)) =
          [(.update, "kept"), (.replace, "quay"), (.delete, "dock")] ∧
        plan.warnings = ["could not refresh store::shelf dock: no ferry",
          "could not refresh store::shelf quay: no ferry"] ∧
        plan.Reflects shelvesStillWanted (refresh inspector shelvesInspected 0).failures := by
  have hanswers : inspector.RefreshesBy inspection := fun _ _ _ => rfl
  have hinspected : shelvesInspected.OneHome := shelves_oneHome (by decide)
  have hwanted : shelvesStillWanted.OneHome := shelves_oneHome (by decide)
  obtain ⟨hfaithful, hreflects⟩ := refresh_faithful hanswers hinspected 0
  refine ⟨hanswers, hinspected, hwanted, by decide +kernel, hfaithful, _, rfl, ?_, ?_,
    hreflects _ _ hwanted rfl⟩
  · decide +kernel
  · decide +kernel

end Provision

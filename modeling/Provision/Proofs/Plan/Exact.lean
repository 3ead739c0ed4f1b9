import Mathlib.Data.List.Range
import Provision.Plan.Diff
import Provision.Proofs.Graph.Order
import Provision.Proofs.Inventory
import Provision.Proofs.Outcome

/-!
# What a plan holds

The comparison of two inventories loses no key and repeats none: each key gets
the one kind of change that its two sides call for, or none.  The changes of a
plan are those of three lists that are put in dependency order one by one, so
the counts are read off the lists before they are ordered and the precedence
off the order.
-/

namespace Provision

/-! ## What each key calls for -/

/-- The keys that the resource under a key depends on. -/
def Inventory.needsOf (inventory : Inventory) (key : Key) : List Key :=
  ((inventory.resource? key).map Resource.dependsOn).getD []

/-- A resource that no update can bring to its pending side. -/
def NeedsReplacement (failures : RefreshFailures) (pending current : Resource) : Prop :=
  (failures.get? pending.key).isSome = true ∨
    ∃ change ∈ changedFields pending current, change.updatable = false

/-- A resource that differs, though only in fields that change in place. -/
def NeedsUpdate (failures : RefreshFailures) (pending current : Resource) : Prop :=
  (failures.get? pending.key).isSome = false ∧ changedFields pending current ≠ [] ∧
    ∀ change ∈ changedFields pending current, change.updatable = true

/-- A resource that is as it should be, as far as is known. -/
def IsKept (failures : RefreshFailures) (pending current : Resource) : Prop :=
  (failures.get? pending.key).isSome = false ∧ changedFields pending current = []

/-- The kind of change that a pending resource calls for. -/
def neededKind (current : Inventory) (failures : RefreshFailures) (resource : Resource) :
    Option ChangeKind :=
  match current.resource? resource.key with
  | none => some .create
  | some existing =>
    if (failures.get? resource.key).isSome then some .replace
    else classify (changedFields resource existing)

/-- The kinds of the changes that a plan holds for a key. -/
def Plan.kindsFor (plan : Plan) (key : Key) : List ChangeKind :=
  (plan.changes.filter fun change => change.key = key).map PlannedChange.kind

/-- The place of a group among those that run one after another. -/
def ChangeGroup.rank : ChangeGroup → Nat
  | createOrUpdate => 0
  | replace => 1
  | delete => 2

/-- A plan that says for every key what its two sides call for, in an order that can be
executed. -/
structure Plan.Exact (plan : Plan) (pending current : Inventory) (failures : RefreshFailures) :
    Prop where
  creates : ∀ key, pending.has key = true → current.has key = false →
    plan.kindsFor key = [.create]
  replaces : ∀ key p c, pending.resource? key = some p → current.resource? key = some c →
    NeedsReplacement failures p c → plan.kindsFor key = [.replace]
  updates : ∀ key p c, pending.resource? key = some p → current.resource? key = some c →
    NeedsUpdate failures p c → plan.kindsFor key = [.update]
  keeps : ∀ key p c, pending.resource? key = some p → current.resource? key = some c →
    IsKept failures p c → plan.kindsFor key = []
  deletes : ∀ key, pending.has key = false → current.has key = true →
    plan.kindsFor key = [.delete]
  others : ∀ key, pending.has key = false → current.has key = false → plan.kindsFor key = []
  /-- The number of unchanged resources is the number of keys whose resource is kept. -/
  unchanged : ∃ kept : List Key, kept.Nodup ∧ plan.unchanged = kept.length ∧
    ∀ key, key ∈ kept ↔ ∃ p c, pending.resource? key = some p ∧ current.resource? key = some c ∧
      IsKept failures p c
  ids : plan.changes.map PlannedChange.id = List.range' 1 plan.changes.length
  grouped : plan.changes.Pairwise fun c d => c.kind.group.rank ≤ d.kind.group.rank
  /-- No change stands before another of its group that its pending resource depends on. -/
  forward : plan.changes.Pairwise fun c d =>
    c.kind ≠ .delete → c.kind.group = d.kind.group → d.key ∉ pending.needsOf c.key
  /-- No deletion stands before that of a resource which depended on it. -/
  backward : plan.changes.Pairwise fun c d =>
    c.kind = .delete → d.kind = .delete → c.key ∉ current.needsOf d.key

section Classification

variable {current : Inventory} {failures : RefreshFailures} {p c : Resource}

theorem neededKind_of_absent (h : current.has p.key = false) :
    neededKind current failures p = some .create := by
  unfold neededKind
  rw [(Inventory.has_eq_false_iff current p.key).1 h]

theorem neededKind_of_replacement (hc : current.resource? p.key = some c)
    (h : NeedsReplacement failures p c) :
    neededKind current failures p = some .replace := by
  unfold neededKind
  rw [hc]
  dsimp only
  split
  · rfl
  · next hfailed =>
    obtain ⟨change, hmem, hfixed⟩ := h.resolve_left hfailed
    have hne : changedFields p c ≠ [] := List.ne_nil_of_mem hmem
    have hall : (changedFields p c).all FieldChange.updatable = false :=
      List.all_eq_false.2 ⟨change, hmem, by simp [hfixed]⟩
    simp [classify, hne, hall]

theorem neededKind_of_update (hc : current.resource? p.key = some c)
    (h : NeedsUpdate failures p c) :
    neededKind current failures p = some .update := by
  obtain ⟨hfailed, hne, hall⟩ := h
  unfold neededKind
  rw [hc]
  simp [hfailed, classify, hne, List.all_eq_true.2 hall]

theorem neededKind_eq_none_iff :
    neededKind current failures p = none ↔
      ∃ c, current.resource? p.key = some c ∧ IsKept failures p c := by
  unfold neededKind IsKept
  cases current.resource? p.key with
  | none => simp
  | some c =>
    cases (failures.get? p.key).isSome with
    | true => simp
    | false =>
      by_cases hne : changedFields p c = []
      · simp [classify, hne]
      · by_cases hall : (changedFields p c).all FieldChange.updatable = true <;>
          simp [classify, hne, hall]

end Classification

/-! ## Candidates -/

section Candidates

variable {pending current : Inventory} {failures : RefreshFailures}

theorem candidate?_kind (pending current : Inventory) (failures : RefreshFailures)
    (resource : Resource) :
    (candidate? pending current failures resource).map Candidate.kind =
      neededKind current failures resource := by
  unfold candidate? neededKind
  cases current.resource? resource.key with
  | none => rfl
  | some existing =>
    dsimp only
    rw [Option.map_map]
    generalize (if (failures.get? resource.key).isSome = true then some ChangeKind.replace
      else classify (changedFields resource existing)) = kind
    cases kind with
    | none => rfl
    | some kind =>
      rw [Option.map_some, Function.comp_apply]
      split
      · cases pending.workflowFor? resource.key.type <;> rfl
      · rfl

theorem candidate?_of_resource {resource : Resource} {candidate : Candidate}
    (h : candidate? pending current failures resource = some candidate) :
    candidate.key = resource.key ∧ candidate.dependsOn = resource.dependsOn := by
  unfold candidate? at h
  cases hcurrent : current.resource? resource.key with
  | none =>
    rw [hcurrent] at h
    cases h
    exact ⟨rfl, rfl⟩
  | some existing =>
    rw [hcurrent] at h
    obtain ⟨kind, -, rfl⟩ := Option.map_eq_some_iff.1 h
    by_cases hkind : kind = .replace
    · rw [if_pos hkind]
      cases pending.workflowFor? resource.key.type <;> exact ⟨rfl, rfl⟩
    · rw [if_neg hkind]
      exact ⟨rfl, rfl⟩

theorem neededKind_ne_delete (resource : Resource) :
    neededKind current failures resource ≠ some .delete := by
  unfold neededKind
  cases current.resource? resource.key with
  | none => simp
  | some existing =>
    by_cases hfailed : (failures.get? resource.key).isSome = true
    · simp [hfailed]
    · by_cases hne : changedFields resource existing = []
      · simp [hfailed, classify, hne]
      · by_cases hall : (changedFields resource existing).all FieldChange.updatable = true <;>
          simp [hfailed, classify, hne, hall]

/-- The candidates of the pending side. -/
def neededCandidates (pending current : Inventory) (failures : RefreshFailures) : List Candidate :=
  pending.resources.filterMap (candidate? pending current failures)

/-- The candidates of the recorded side. -/
def goneCandidates (pending current : Inventory) : List Candidate :=
  (current.resources.filter fun resource => !pending.has resource.key).map (deletion current)

theorem kind_ne_delete_of_needed {candidate : Candidate}
    (h : candidate ∈ neededCandidates pending current failures) : candidate.kind ≠ .delete := by
  obtain ⟨resource, -, hcandidate⟩ := List.mem_filterMap.1 h
  have hkind := candidate?_kind pending current failures resource
  rw [hcandidate, Option.map_some] at hkind
  intro hdelete
  exact neededKind_ne_delete resource (hdelete ▸ hkind.symm)

theorem dependsOn_of_needed (hpending : pending.OneHome) {candidate : Candidate}
    (h : candidate ∈ neededCandidates pending current failures) :
    candidate.dependsOn = pending.needsOf candidate.key := by
  obtain ⟨resource, hmem, hcandidate⟩ := List.mem_filterMap.1 h
  obtain ⟨hkey, hdepends⟩ := candidate?_of_resource hcandidate
  unfold Inventory.needsOf
  rw [hpending.resource?_eq_some_iff.2 ⟨hmem, hkey.symm⟩, hdepends]
  rfl

theorem dependsOn_of_gone (hcurrent : current.OneHome) {candidate : Candidate}
    (h : candidate ∈ goneCandidates pending current) :
    candidate.kind = .delete ∧ candidate.dependsOn = current.needsOf candidate.key := by
  obtain ⟨resource, hmem, rfl⟩ := List.mem_map.1 h
  have hfound : current.resource? resource.key = some resource :=
    hcurrent.resource?_eq_some_iff.2 ⟨(List.mem_filter.1 hmem).1, rfl⟩
  have hneeds : current.needsOf resource.key = resource.dependsOn := by
    unfold Inventory.needsOf
    rw [hfound]
    rfl
  exact ⟨rfl, hneeds.symm⟩

theorem kinds_of_needed (hpending : pending.OneHome) (key : Key) :
    ((neededCandidates pending current failures).filter fun c => c.key = key).map Candidate.kind =
      ((pending.resource? key).bind (neededKind current failures)).toList := by
  have hfilter : (neededCandidates pending current failures).filter (fun c => c.key = key) =
      (pending.resources.filter fun resource => resource.key = key).filterMap
        (candidate? pending current failures) := by
    unfold neededCandidates
    rw [List.filter_filterMap, List.filterMap_filter]
    apply List.filterMap_congr
    intro resource _
    cases hcandidate : candidate? pending current failures resource with
    | none => simp
    | some candidate =>
      rw [Option.filter_some, (candidate?_of_resource hcandidate).1]
  rw [hfilter, hpending.filter_key]
  cases pending.resource? key with
  | none => rfl
  | some resource =>
    rw [Option.bind_some, ← candidate?_kind pending]
    cases hcandidate : candidate? pending current failures resource <;> simp [hcandidate]

theorem kinds_of_gone (hcurrent : current.OneHome) (key : Key) :
    ((goneCandidates pending current).filter fun c => c.key = key).map Candidate.kind =
      if pending.has key = false ∧ current.has key = true then [.delete] else [] := by
  have hfilter : (goneCandidates pending current).filter (fun c => c.key = key) =
      (((current.resources.filter fun resource => resource.key = key)).filter
        fun resource => !pending.has resource.key).map (deletion current) := by
    unfold goneCandidates
    rw [List.filter_map, List.filter_filter, List.filter_filter]
    congr 1
    apply List.filter_congr
    intro resource _
    exact Bool.and_comm _ _
  rw [hfilter, hcurrent.filter_key]
  cases hfound : current.resource? key with
  | none =>
    have hhas : current.has key = false := (Inventory.has_eq_false_iff current key).2 hfound
    simp [hhas]
  | some resource =>
    obtain ⟨-, rfl⟩ := hcurrent.resource?_eq_some_iff.1 hfound
    have hhas : current.has resource.key = true :=
      (Inventory.has_iff current resource.key).2 ⟨resource, hfound⟩
    cases hpending : pending.has resource.key with
    | true => simp [hpending]
    | false => simp [hpending, hhas, deletion]

end Candidates

/-! ## Candidates in order -/

section Ordered

variable {candidates ordered : List Candidate}

theorem filterMap_getElem?_range {α : Type} (items : List α) :
    (List.range items.length).filterMap (fun i => items[i]?) = items := by
  induction items with
  | nil => rfl
  | cons item rest ih =>
    rw [List.length_cons, List.range_succ_eq_map, List.filterMap_cons, List.filterMap_map]
    exact congrArg (item :: ·) ih

theorem inDependencyOrder_perm (h : inDependencyOrder candidates = .ok ordered) :
    ordered.Perm candidates := by
  obtain ⟨positions, hpositions, hok⟩ := bind_eq_ok.1 h
  cases hok
  have hperm := Graph.order_perm hpositions
  rw [List.length_map] at hperm
  have hmapped := hperm.filterMap fun position => candidates[position]?
  rwa [filterMap_getElem?_range] at hmapped

/-- No candidate stands before another that it depends on. -/
theorem inDependencyOrder_pairwise (h : inDependencyOrder candidates = .ok ordered) :
    ordered.Pairwise fun c d => d.key ∉ c.dependsOn := by
  have hperm := inDependencyOrder_perm h
  obtain ⟨positions, hpositions, hok⟩ := bind_eq_ok.1 h
  cases hok
  have hwaits : (positions.filterMap fun position => candidates[position]?).Pairwise
      fun c d => c.key ≠ d.key → d.key ∉ c.dependsOn := by
    rw [List.pairwise_filterMap]
    refine (Graph.order_pairwise hpositions).imp ?_
    intro i j hwait c hc d hd hne
    have hvertex := hwait ⟨c.key, c.dependsOn⟩ ⟨d.key, d.dependsOn⟩ (by simp [hc]) (by simp [hd])
    unfold Graph.Vertex.waitsFor at hvertex
    simpa [hne] using hvertex
  have hkeys : (candidates.map Candidate.key).Nodup := by
    simpa [Function.comp_def] using Graph.keys_nodup_of_order hpositions
  have hdistinct := List.pairwise_map.1 ((hperm.map Candidate.key).nodup_iff.2 hkeys)
  exact hwaits.imp₂ (fun c d hwait hne => hwait hne) hdistinct

end Ordered

/-! ## The plan -/

section Numbered

variable {candidates : List Candidate}

theorem map_numberChanges {α : Type} (f : Key → ChangeKind → α) (candidates : List Candidate) :
    (numberChanges candidates).map (fun change => f change.key change.kind) =
      candidates.map fun c => f c.key c.kind := by
  unfold numberChanges
  rw [List.map_map]
  calc candidates.zipIdx.map (fun entry => f entry.1.key entry.1.kind)
      = (candidates.zipIdx.map Prod.fst).map fun c => f c.key c.kind := by
        rw [List.map_map]
        rfl
    _ = candidates.map fun c => f c.key c.kind := by rw [List.zipIdx_map_fst]

theorem ids_numberChanges (candidates : List Candidate) :
    (numberChanges candidates).map PlannedChange.id = List.range' 1 candidates.length := by
  unfold numberChanges
  rw [List.map_map]
  calc candidates.zipIdx.map (fun entry => entry.2 + 1)
      = (candidates.zipIdx.map Prod.snd).map (· + 1) := by
        rw [List.map_map]
        rfl
    _ = List.range' 1 candidates.length := by
        rw [List.zipIdx_map_snd]
        simp [List.range'_eq_map_range, Nat.add_comm]

theorem length_numberChanges (candidates : List Candidate) :
    (numberChanges candidates).length = candidates.length := by
  simp [numberChanges]

theorem kinds_numberChanges (candidates : List Candidate) (key : Key) :
    ((numberChanges candidates).filter fun change => change.key = key).map PlannedChange.kind =
      (candidates.filter fun c => c.key = key).map Candidate.kind := by
  have hpairs := map_numberChanges Prod.mk candidates
  have hkinds := congrArg
    (fun pairs => (pairs.filter fun pair : Key × ChangeKind => pair.1 = key).map Prod.snd) hpairs
  simpa [List.filter_map, Function.comp_def] using hkinds

/-- A relation that looks at key and kind alone holds along the changes when it holds along the
candidates. -/
theorem pairwise_numberChanges {R : Key → ChangeKind → Key → ChangeKind → Prop}
    (h : candidates.Pairwise fun c d => R c.key c.kind d.key d.kind) :
    (numberChanges candidates).Pairwise fun c d => R c.key c.kind d.key d.kind := by
  have hpairs : (candidates.map fun c => (c.key, c.kind)).Pairwise
      fun c d => R c.1 c.2 d.1 d.2 := List.pairwise_map.2 h
  rw [← map_numberChanges Prod.mk] at hpairs
  exact List.pairwise_map.1 hpairs

end Numbered

section Plans

variable {pending current : Inventory} {failures : RefreshFailures} {plan : Plan}

/-- A successful comparison, taken apart into its three ordered lists. -/
structure OrderedParts (pending current : Inventory) (failures : RefreshFailures)
    (forward replaces deletes : List Candidate) : Prop where
  forward : inDependencyOrder
    ((neededCandidates pending current failures).filter fun c => c.kind ≠ .replace) = .ok forward
  replaces : inDependencyOrder
    ((neededCandidates pending current failures).filter fun c => c.kind = .replace) = .ok replaces
  deletes : inDependencyOrder (goneCandidates pending current) = .ok deletes

theorem diff_parts (h : diff pending current failures = .ok plan) :
    ∃ forward replaces deletes, OrderedParts pending current failures forward replaces deletes ∧
      plan.changes = numberChanges (forward ++ replaces ++ deletes.reverse) ∧
      plan.unchanged = (pending.resources.filter fun resource =>
        (candidate? pending current failures resource).isNone).length := by
  have hneeded : (pending.resources.map (candidate? pending current failures)).filterMap id =
      neededCandidates pending current failures := List.filterMap_map
  unfold diff at h
  dsimp only at h
  rw [hneeded] at h
  obtain ⟨forward, hforward, h⟩ := bind_eq_ok.1 h
  obtain ⟨replaces, hreplaces, h⟩ := bind_eq_ok.1 h
  obtain ⟨deletes, hdeletes, h⟩ := bind_eq_ok.1 h
  cases h
  refine ⟨forward, replaces, deletes, ⟨hforward, hreplaces, hdeletes⟩, rfl, ?_⟩
  rw [List.filter_map, List.length_map]
  rfl

section Parts

variable {forward replaces deletes : List Candidate}

theorem OrderedParts.perm (h : OrderedParts pending current failures forward replaces deletes) :
    (forward ++ replaces ++ deletes.reverse).Perm
      (neededCandidates pending current failures ++ goneCandidates pending current) := by
  have hsplit := List.filter_append_perm (fun c : Candidate => decide (c.kind ≠ .replace))
    (neededCandidates pending current failures)
  have hnegated : (neededCandidates pending current failures).filter
      (fun c => !decide (c.kind ≠ .replace)) =
        (neededCandidates pending current failures).filter fun c => c.kind = .replace :=
    List.filter_congr fun c _ => by simp
  rw [hnegated] at hsplit
  refine List.Perm.append ?_ ((List.reverse_perm _).trans (inDependencyOrder_perm h.deletes))
  exact ((inDependencyOrder_perm h.forward).append (inDependencyOrder_perm h.replaces)).trans hsplit

theorem OrderedParts.of_forward (h : OrderedParts pending current failures forward replaces deletes)
    {c : Candidate} (hc : c ∈ forward) :
    c ∈ neededCandidates pending current failures ∧ c.kind.group = .createOrUpdate := by
  obtain ⟨hmem, hkind⟩ := List.mem_filter.1 ((inDependencyOrder_perm h.forward).mem_iff.1 hc)
  have hreplace : c.kind ≠ .replace := of_decide_eq_true hkind
  have hdelete := kind_ne_delete_of_needed hmem
  refine ⟨hmem, ?_⟩
  revert hreplace hdelete
  cases c.kind <;> simp [ChangeKind.group]

theorem OrderedParts.of_replaces
    (h : OrderedParts pending current failures forward replaces deletes)
    {c : Candidate} (hc : c ∈ replaces) :
    c ∈ neededCandidates pending current failures ∧ c.kind = .replace := by
  obtain ⟨hmem, hkind⟩ := List.mem_filter.1 ((inDependencyOrder_perm h.replaces).mem_iff.1 hc)
  exact ⟨hmem, of_decide_eq_true hkind⟩

theorem OrderedParts.of_deletes
    (h : OrderedParts pending current failures forward replaces deletes)
    {c : Candidate} (hc : c ∈ deletes.reverse) :
    c ∈ goneCandidates pending current ∧ c.kind = .delete := by
  have hmem := (inDependencyOrder_perm h.deletes).mem_iff.1 (List.mem_reverse.1 hc)
  obtain ⟨resource, -, rfl⟩ := List.mem_map.1 hmem
  exact ⟨hmem, rfl⟩

/-- What holds along each of the three lists and between them holds along the plan. -/
theorem OrderedParts.pairwise (h : OrderedParts pending current failures forward replaces deletes)
    {R : Candidate → Candidate → Prop}
    (hforward : forward.Pairwise R) (hreplaces : replaces.Pairwise R)
    (hdeletes : deletes.reverse.Pairwise R)
    (hacross : ∀ c d : Candidate, c.kind.group.rank < d.kind.group.rank → R c d) :
    (forward ++ replaces ++ deletes.reverse).Pairwise R := by
  rw [List.pairwise_append, List.pairwise_append]
  refine ⟨⟨hforward, hreplaces, ?_⟩, hdeletes, ?_⟩
  · intro c hc d hd
    apply hacross
    rw [(h.of_forward hc).2, (h.of_replaces hd).2]
    decide
  · intro c hc d hd
    apply hacross
    rw [(h.of_deletes hd).2]
    rcases List.mem_append.1 hc with hc | hc
    · rw [(h.of_forward hc).2]
      decide
    · rw [(h.of_replaces hc).2]
      decide

end Parts

/-- The kinds for a key are the one its pending resource calls for, and a deletion for a key that
is recorded alone. -/
theorem kindsFor_perm (hpending : pending.OneHome) (hcurrent : current.OneHome)
    (h : diff pending current failures = .ok plan) (key : Key) :
    (plan.kindsFor key).Perm
      (((pending.resource? key).bind (neededKind current failures)).toList ++
        if pending.has key = false ∧ current.has key = true then [.delete] else []) := by
  obtain ⟨forward, replaces, deletes, hparts, hchanges, -⟩ := diff_parts h
  unfold Plan.kindsFor
  rw [hchanges, kinds_numberChanges, ← kinds_of_needed hpending, ← kinds_of_gone hcurrent,
    ← List.map_append, ← List.filter_append]
  exact (hparts.perm.filter _).map _

theorem kindsFor_of_pending (hpending : pending.OneHome) (hcurrent : current.OneHome)
    (h : diff pending current failures = .ok plan) {key : Key} {p : Resource}
    (hp : pending.resource? key = some p) :
    plan.kindsFor key = (neededKind current failures p).toList := by
  have hhas : pending.has key = true := (Inventory.has_iff pending key).2 ⟨p, hp⟩
  have hperm := kindsFor_perm hpending hcurrent h key
  rw [hp, hhas, if_neg (by simp), List.append_nil, Option.bind_some] at hperm
  generalize neededKind current failures p = kind at hperm ⊢
  cases kind with
  | none => exact hperm.eq_nil
  | some kind => exact List.perm_singleton.1 hperm

theorem kindsFor_of_not_pending (hpending : pending.OneHome) (hcurrent : current.OneHome)
    (h : diff pending current failures = .ok plan) {key : Key} (hp : pending.has key = false) :
    plan.kindsFor key = if current.has key = true then [.delete] else [] := by
  have hperm := kindsFor_perm hpending hcurrent h key
  rw [(Inventory.has_eq_false_iff pending key).1 hp, hp] at hperm
  cases hhas : current.has key with
  | true => exact List.perm_singleton.1 (by simpa [hhas] using hperm)
  | false => exact (show (plan.kindsFor key).Perm [] by simpa [hhas] using hperm).eq_nil

/-- There is nothing to do exactly when both sides have the same keys, and no field of a pending
resource differs from the recorded one. -/
theorem diff_nothing_iff (hpending : pending.OneHome) (hcurrent : current.OneHome) :
    (∃ plan, diff pending current [] = .ok plan ∧ plan.changes = []) ↔
      (∀ key, pending.has key = current.has key) ∧
        ∀ key p c, pending.resource? key = some p → current.resource? key = some c →
          changedFields p c = [] := by
  constructor
  · rintro ⟨plan, hplan, hnothing⟩
    have hnone (key : Key) : plan.kindsFor key = [] := by
      unfold Plan.kindsFor
      rw [hnothing]
      rfl
    have hkept (key : Key) (p : Resource) (hp : pending.resource? key = some p) :
        ∃ c, current.resource? key = some c ∧ changedFields p c = [] := by
      have hkinds := kindsFor_of_pending hpending hcurrent hplan hp
      rw [hnone, eq_comm, Option.toList_eq_nil_iff] at hkinds
      obtain ⟨c, hc, -, hsame⟩ := neededKind_eq_none_iff.1 hkinds
      obtain ⟨-, rfl⟩ := hpending.resource?_eq_some_iff.1 hp
      exact ⟨c, hc, hsame⟩
    constructor
    · intro key
      cases hhas : pending.has key with
      | true =>
        obtain ⟨p, hp⟩ := (Inventory.has_iff pending key).1 hhas
        obtain ⟨c, hc, -⟩ := hkept key p hp
        exact ((Inventory.has_iff current key).2 ⟨c, hc⟩).symm
      | false =>
        have hkinds := kindsFor_of_not_pending hpending hcurrent hplan hhas
        rw [hnone] at hkinds
        cases hcurrentHas : current.has key with
        | true =>
          rw [hcurrentHas] at hkinds
          cases hkinds
        | false => rfl
    · intro key p c hp hc
      obtain ⟨_, hc', hsame⟩ := hkept key p hp
      rw [hc] at hc'
      cases hc'
      exact hsame
  · rintro ⟨hkeys, hsame⟩
    have hneeded : neededCandidates pending current [] = [] := by
      refine List.filterMap_eq_nil_iff.2 fun p hp => ?_
      have hfound := hpending.resource?_eq_some_iff.2 ⟨hp, rfl⟩
      have hhas : current.has p.key = true :=
        (hkeys p.key).symm.trans ((Inventory.has_iff pending p.key).2 ⟨p, hfound⟩)
      obtain ⟨c, hc⟩ := (Inventory.has_iff current p.key).1 hhas
      have hkind := candidate?_kind pending current [] p
      rw [neededKind_eq_none_iff.2 ⟨c, hc, rfl, hsame p.key p c hfound hc⟩] at hkind
      exact Option.map_eq_none_iff.1 hkind
    have hgone : goneCandidates pending current = [] := by
      unfold goneCandidates
      rw [List.map_eq_nil_iff, List.filter_eq_nil_iff]
      intro c hc
      have hfound := hcurrent.resource?_eq_some_iff.2 ⟨hc, rfl⟩
      rw [hkeys c.key, (Inventory.has_iff current c.key).2 ⟨c, hfound⟩]
      simp
    have hmapped : (pending.resources.map (candidate? pending current [])).filterMap id = [] :=
      List.filterMap_map.trans hneeded
    have hdeletions : (current.resources.filter fun resource =>
        !pending.has resource.key).map (deletion current) = [] := hgone
    unfold diff
    dsimp only
    rw [hmapped, hdeletions]
    exact ⟨_, rfl, rfl⟩

theorem mem_kept_iff (hpending : pending.OneHome) (key : Key) :
    key ∈ (pending.resources.filter fun resource =>
        (candidate? pending current failures resource).isNone).map Resource.key ↔
      ∃ p c, pending.resource? key = some p ∧ current.resource? key = some c ∧
        IsKept failures p c := by
  have hnone (p : Resource) : (candidate? pending current failures p).isNone = true ↔
      ∃ c, current.resource? p.key = some c ∧ IsKept failures p c := by
    rw [← neededKind_eq_none_iff, ← candidate?_kind pending, Option.map_eq_none_iff,
      Option.isNone_iff_eq_none]
  rw [List.mem_map]
  constructor
  · rintro ⟨p, hp, rfl⟩
    obtain ⟨hmem, hkept⟩ := List.mem_filter.1 hp
    obtain ⟨c, hc, hkept⟩ := (hnone p).1 hkept
    exact ⟨p, c, hpending.resource?_eq_some_iff.2 ⟨hmem, rfl⟩, hc, hkept⟩
  · rintro ⟨p, c, hp, hc, hkept⟩
    obtain ⟨hmem, rfl⟩ := hpending.resource?_eq_some_iff.1 hp
    exact ⟨p, List.mem_filter.2 ⟨hmem, (hnone p).2 ⟨c, hc, hkept⟩⟩, rfl⟩

/-- A comparison that succeeds gives every key exactly the change that its two sides call for, and
orders the changes so that each can be executed when its turn comes. -/
theorem diff_exact (hpending : pending.OneHome) (hcurrent : current.OneHome)
    (h : diff pending current failures = .ok plan) :
    plan.Exact pending current failures := by
  have hpresent : ∀ {key : Key} {p : Resource}, pending.resource? key = some p →
      plan.kindsFor key = (neededKind current failures p).toList :=
    kindsFor_of_pending hpending hcurrent h
  have habsent : ∀ {key : Key}, pending.has key = false →
      plan.kindsFor key = if current.has key = true then [.delete] else [] :=
    kindsFor_of_not_pending hpending hcurrent h
  obtain ⟨forward, replaces, deletes, hparts, hchanges, hunchanged⟩ := diff_parts h
  constructor
  case creates =>
    intro key hp hc
    obtain ⟨p, hp⟩ := (Inventory.has_iff pending key).1 hp
    obtain ⟨-, rfl⟩ := hpending.resource?_eq_some_iff.1 hp
    rw [hpresent hp, neededKind_of_absent hc]
    rfl
  case replaces =>
    intro key p c hp hc hneeds
    obtain ⟨-, rfl⟩ := hpending.resource?_eq_some_iff.1 hp
    rw [hpresent hp, neededKind_of_replacement hc hneeds]
    rfl
  case updates =>
    intro key p c hp hc hneeds
    obtain ⟨-, rfl⟩ := hpending.resource?_eq_some_iff.1 hp
    rw [hpresent hp, neededKind_of_update hc hneeds]
    rfl
  case keeps =>
    intro key p c hp hc hkept
    obtain ⟨-, rfl⟩ := hpending.resource?_eq_some_iff.1 hp
    rw [hpresent hp, neededKind_eq_none_iff.2 ⟨c, hc, hkept⟩]
    rfl
  case deletes =>
    intro key hp hc
    rw [habsent hp, if_pos hc]
  case others =>
    intro key hp hc
    rw [habsent hp, if_neg (by simp [hc])]
  case unchanged =>
    refine ⟨_, ?_, ?_, mem_kept_iff hpending⟩
    · exact List.Nodup.sublist (List.filter_sublist.map Resource.key) hpending.once
    · rw [List.length_map, hunchanged]
  case ids =>
    rw [hchanges, ids_numberChanges, length_numberChanges]
  case grouped =>
    rw [hchanges]
    apply pairwise_numberChanges (R := fun _ kind _ kind' => kind.group.rank ≤ kind'.group.rank)
    apply hparts.pairwise
    · refine List.pairwise_of_forall_mem_list fun c hc d hd => ?_
      rw [(hparts.of_forward hc).2, (hparts.of_forward hd).2]
    · refine List.pairwise_of_forall_mem_list fun c hc d hd => ?_
      rw [(hparts.of_replaces hc).2, (hparts.of_replaces hd).2]
    · refine List.pairwise_of_forall_mem_list fun c hc d hd => ?_
      rw [(hparts.of_deletes hc).2, (hparts.of_deletes hd).2]
    · exact fun c d hlt => Nat.le_of_lt hlt
  case forward =>
    rw [hchanges]
    apply pairwise_numberChanges (R := fun key kind key' kind' =>
      kind ≠ .delete → kind.group = kind'.group → key' ∉ pending.needsOf key)
    apply hparts.pairwise
    · refine (inDependencyOrder_pairwise hparts.forward).imp_of_mem fun hc _ hneeds _ _ => ?_
      rwa [← dependsOn_of_needed hpending (hparts.of_forward hc).1]
    · refine (inDependencyOrder_pairwise hparts.replaces).imp_of_mem fun hc _ hneeds _ _ => ?_
      rwa [← dependsOn_of_needed hpending (hparts.of_replaces hc).1]
    · refine List.pairwise_of_forall_mem_list fun c hc d _ hkind _ => ?_
      exact absurd (hparts.of_deletes hc).2 hkind
    · intro c d hlt _ hgroup
      rw [hgroup] at hlt
      exact absurd hlt (Nat.lt_irrefl _)
  case backward =>
    rw [hchanges]
    apply pairwise_numberChanges (R := fun key kind key' kind' =>
      kind = .delete → kind' = .delete → key ∉ current.needsOf key')
    apply hparts.pairwise
    · refine List.pairwise_of_forall_mem_list fun c hc d _ hkind => ?_
      exact absurd hkind (kind_ne_delete_of_needed (hparts.of_forward hc).1)
    · refine List.pairwise_of_forall_mem_list fun c hc d _ hkind => ?_
      exact absurd hkind (kind_ne_delete_of_needed (hparts.of_replaces hc).1)
    · rw [List.pairwise_reverse]
      refine (inDependencyOrder_pairwise hparts.deletes).imp_of_mem fun {d c} hd _ hneeds _ _ => ?_
      rwa [← (dependsOn_of_gone hcurrent (hparts.of_deletes (List.mem_reverse.2 hd)).1).2]
    · intro c d hlt hkind hkind'
      rw [hkind, hkind'] at hlt
      exact absurd hlt (Nat.lt_irrefl _)

end Plans

/-! ### A plan with every kind of change -/

/-- A shelf can be labelled anew where it stands, and has to be built again elsewhere. -/
def shelfType : ResourceType :=
  ⟨⟨"store::shelf", rfl⟩, [⟨"place", false, false, true, false⟩, ⟨"label", true, true, false, false⟩],
    {}⟩

/-- The key of a shelf. -/
def shelfKey (name : String) : Key :=
  ⟨shelfType.name, name⟩

/-- A shelf at a place with a label, which depends on other shelves. -/
def shelf (name place label : String) (needs : List String) : Resource where
  key := shelfKey name
  type := shelfType
  fields := [("place", .text place), ("label", .text label)]
  configured := ["label", "place"]
  dependsOn := needs.map shelfKey
  origin := Span.generated

/-- The shelves of one file. -/
def shelves (resources : List Resource) : Inventory where
  registry := {}
  files := [{ path := ⟨"main"⟩, resources := resources.map fun resource => (resource.key, resource) }]

/-- The shelf `moved` changes its place, `relabelled` its label, and `fresh` is new. -/
def shelvesWanted : Inventory :=
  shelves [shelf "moved" "south" "m" [], shelf "fresh" "west" "f" ["relabelled"],
    shelf "relabelled" "east" "new" [], shelf "kept" "east" "k" []]

/-- The shelf `last` depends on `first`, and both are no longer wanted. -/
def shelvesRecorded : Inventory :=
  shelves [shelf "moved" "north" "m" [], shelf "relabelled" "east" "old" [],
    shelf "kept" "east" "k" [], shelf "first" "west" "1" [], shelf "last" "west" "2" ["first"]]

theorem shelves_oneHome {resources : List Resource} (h : (resources.map Resource.key).Nodup) :
    (shelves resources).OneHome := by
  constructor
  · intro file hfile entry hentry
    obtain rfl := List.mem_singleton.1 hfile
    obtain ⟨resource, -, rfl⟩ := List.mem_map.1 hentry
    rfl
  · simpa [Inventory.resources, shelves, Table.values, Function.comp_def] using h

/-- The plan for the shelves holds an update, a creation after it, a replacement, and two deletions
with the dependent one first. -/
theorem diff_exact_shelves :
    shelvesWanted.OneHome ∧ shelvesRecorded.OneHome ∧
      ∃ plan, diff shelvesWanted shelvesRecorded [] = .ok plan ∧
      plan.changes.map (fun change => (change.kind, change.key.name)) =
        [(.update, "relabelled"), (.create, "fresh"), (.replace, "moved"), (.delete, "last"),
          (.delete, "first")] ∧
      plan.unchanged = 1 ∧ plan.Exact shelvesWanted shelvesRecorded [] := by
  have hwanted : shelvesWanted.OneHome := shelves_oneHome (by decide)
  have hrecorded : shelvesRecorded.OneHome := shelves_oneHome (by decide)
  refine ⟨hwanted, hrecorded, _, rfl, ?_, rfl, diff_exact hwanted hrecorded rfl⟩
  decide +kernel

end Provision

import Mathlib.Algebra.Order.BigOperators.Group.List
import Mathlib.Algebra.Order.Group.Nat
import Mathlib.Logic.Relation
import Provision.Proofs.Inventory.Holding
import Provision.Proofs.Plan.Exact

/-!
# Resources in layers

When dependencies always lead to a lower layer there is no cycle among resources,
and a plan for them has an order.  A resource that is added for the first time goes
above all that it depends on.
-/

namespace Provision

namespace Inventory

variable {inventory : Inventory} {resource : Resource} {file : Nat} {key other : Key}

/-- The resource under the first key depends on the one under the second. -/
def DependsOn (inventory : Inventory) (key other : Key) : Prop :=
  other ∈ inventory.needsOf key

/-- Dependencies lead to resources of lower layers. -/
def Layered (inventory : Inventory) : Prop :=
  ∃ layer : Key → Nat, ∀ key other, inventory.DependsOn key other → layer other < layer key

theorem dependsOn_iff :
    inventory.DependsOn key other ↔
      ∃ resource, inventory.resource? key = some resource ∧ other ∈ resource.dependsOn := by
  unfold DependsOn needsOf
  cases inventory.resource? key <;> simp

/-- Resources in layers do not depend on themselves, not even through others. -/
theorem Layered.acyclic (h : inventory.Layered) (key : Key) :
    ¬ Relation.TransGen inventory.DependsOn key key := by
  obtain ⟨layer, hlayer⟩ := h
  have hless : ∀ {key other}, Relation.TransGen inventory.DependsOn key other →
      layer other < layer key := by
    intro key other hpath
    induction hpath with
    | single hedge => exact hlayer _ _ hedge
    | tail _ hedge ih => exact Nat.lt_trans (hlayer _ _ hedge) ih
  exact fun hcycle => Nat.lt_irrefl _ (hless hcycle)

/-- The dependencies after a resource was added. -/
theorem dependsOn_insertAt (hdistinct : inventory.Distinct)
    (hroom : file < inventory.files.length) :
    (inventory.insertAt file resource).DependsOn key other ↔
      if key = resource.key then other ∈ resource.dependsOn else inventory.DependsOn key other := by
  unfold DependsOn needsOf
  rw [resource?_insertAt hdistinct hroom]
  by_cases hkey : key = resource.key
  · simp [hkey]
  · simp [hkey, Ne.symm hkey]

/-- A resource that nothing depends on yet goes above all that it depends on itself. -/
theorem Layered.insertAt (h : inventory.Layered) (hdistinct : inventory.Distinct)
    (hroom : file < inventory.files.length) (hself : resource.key ∉ resource.dependsOn)
    (hfresh : ∀ key, ¬ inventory.DependsOn key resource.key) :
    (inventory.insertAt file resource).Layered := by
  obtain ⟨layer, hlayer⟩ := h
  have hbelow : ∀ other ∈ resource.dependsOn, layer other < (resource.dependsOn.map layer).sum + 1 :=
    fun other hother => Nat.lt_succ_of_le (List.le_sum_of_mem (List.mem_map_of_mem hother))
  refine ⟨fun key => if key = resource.key then (resource.dependsOn.map layer).sum + 1 else layer key,
    fun key other hedge => ?_⟩
  rw [dependsOn_insertAt hdistinct hroom] at hedge
  dsimp only
  by_cases hkey : key = resource.key
  · rw [if_pos hkey] at hedge
    rw [if_pos hkey, if_neg fun heq : other = resource.key => hself (heq ▸ hedge)]
    exact hbelow other hedge
  · rw [if_neg hkey] at hedge
    rw [if_neg hkey, if_neg fun heq : other = resource.key => hfresh key (heq ▸ hedge)]
    exact hlayer key other hedge

end Inventory

/-! ## Plans -/

section Plans

variable {pending current : Inventory} {failures : RefreshFailures}

/-- Candidates in layers have an order when no key occurs twice. -/
theorem exists_inDependencyOrder {candidates : List Candidate} (layer : Key → Nat)
    (hnodup : (candidates.map Candidate.key).Nodup)
    (hlayer : ∀ candidate ∈ candidates, ∀ key ∈ candidate.dependsOn,
      layer key < layer candidate.key) :
    ∃ ordered, inDependencyOrder candidates = .ok ordered := by
  have hkeys : (candidates.map fun c => (⟨c.key, c.dependsOn⟩ : Graph.Vertex Key)).map
      Graph.Vertex.key = candidates.map Candidate.key := by
    rw [List.map_map]
    rfl
  obtain ⟨positions, hpositions⟩ := Graph.exists_order_of_layers layer (hkeys ▸ hnodup) (by
    intro vertex hvertex key hkey _
    obtain ⟨candidate, hcandidate, rfl⟩ := List.mem_map.1 hvertex
    exact hlayer candidate hcandidate key hkey)
  exact ⟨_, bind_eq_ok.2 ⟨positions, hpositions, rfl⟩⟩

theorem neededCandidates_keys (pending current : Inventory) (failures : RefreshFailures) :
    ((neededCandidates pending current failures).map Candidate.key).Sublist
      (pending.resources.map Resource.key) := by
  unfold neededCandidates
  generalize pending.resources = resources
  induction resources with
  | nil => exact List.Sublist.refl _
  | cons resource rest ih =>
    rw [List.filterMap_cons]
    cases hcandidate : candidate? pending current failures resource with
    | none => exact ih.cons _
    | some candidate =>
      rw [List.map_cons, List.map_cons, (candidate?_of_resource hcandidate).1]
      exact ih.cons_cons _

/-- A plan between inventories whose resources lie in layers has an order. -/
theorem exists_diff_of_layered (hpending : pending.OneHome) (hcurrent : current.OneHome)
    (hup : pending.Layered) (hdown : current.Layered) (failures : RefreshFailures) :
    ∃ plan, diff pending current failures = .ok plan := by
  obtain ⟨layer, hlayer⟩ := hup
  have hneeded : (pending.resources.map (candidate? pending current failures)).filterMap id =
      neededCandidates pending current failures := List.filterMap_map
  have hpart : ∀ kind : Candidate → Bool, ∃ ordered,
      inDependencyOrder ((neededCandidates pending current failures).filter kind) = .ok ordered := by
    intro kind
    refine exists_inDependencyOrder layer ?_ fun candidate hcandidate key hkey => ?_
    · exact ((List.filter_sublist.map _).trans (neededCandidates_keys _ _ _)).nodup hpending.once
    · rw [dependsOn_of_needed hpending (List.mem_filter.1 hcandidate).1] at hkey
      exact hlayer _ _ hkey
  obtain ⟨forward, hforward⟩ := hpart fun c => c.kind ≠ .replace
  obtain ⟨replaces, hreplaces⟩ := hpart fun c => c.kind = .replace
  obtain ⟨layer', hlayer'⟩ := hdown
  obtain ⟨deletes, hdeletes⟩ : ∃ ordered,
      inDependencyOrder (goneCandidates pending current) = .ok ordered := by
    refine exists_inDependencyOrder layer' ?_ fun candidate hcandidate key hkey => ?_
    · unfold goneCandidates
      rw [List.map_map]
      exact (List.filter_sublist.map Resource.key).nodup hcurrent.once
    · rw [(dependsOn_of_gone hcurrent hcandidate).2] at hkey
      exact hlayer' _ _ hkey
  unfold goneCandidates at hdeletes
  unfold diff
  dsimp only
  rw [hneeded, hforward, ok_bind, hreplaces, ok_bind, hdeletes, ok_bind]
  exact ⟨_, rfl⟩

end Plans

end Provision

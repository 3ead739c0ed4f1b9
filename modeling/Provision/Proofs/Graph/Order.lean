import Mathlib.Data.List.Nodup
import Mathlib.Order.WellFounded
import Mathlib.Tactic.ByContra
import Provision.Graph.Order

/-!
# What an execution order guarantees

Taking the first ready vertex again and again gives every position at most once,
and no vertex is taken before one that it waits for.  When nothing is left at
the end, the positions taken are all the positions there are.
-/

namespace Provision.Graph

variable {κ : Type} [DecidableEq κ]

/-- No vertex at the first position waits for one at the second. -/
def NoWait (left : List (Nat × Vertex κ)) (i j : Nat) : Prop :=
  ∀ v w, (i, v) ∈ left → (j, w) ∈ left → v.waitsFor w = false

theorem NoWait.mono {left rest : List (Nat × Vertex κ)} {i j : Nat} (h : NoWait rest i j)
    (hmem : ∀ v w, (i, v) ∈ left → (j, w) ∈ left → (i, v) ∈ rest ∧ (j, w) ∈ rest) :
    NoWait left i j := by
  intro v w hv hw
  obtain ⟨hv', hw'⟩ := hmem v w hv hw
  exact h v w hv' hw'

omit [DecidableEq κ] in
/-- Without an entry its position is gone and the others stay. -/
theorem map_fst_filter_ne {left : List (Nat × Vertex κ)} (h : (left.map Prod.fst).Nodup) (i : Nat) :
    (left.filter fun other => decide (other.1 ≠ i)).map Prod.fst = (left.map Prod.fst).erase i := by
  rw [h.erase_eq_filter, List.filter_map]
  congr 1
  apply List.filter_congr
  intro other _
  by_cases hother : other.1 = i <;> simp [hother]

/-- What is taken and what is stuck are together all that there was. -/
theorem drain_perm (n : Nat) (left : List (Nat × Vertex κ)) (h : (left.map Prod.fst).Nodup) :
    ((drain n left).1 ++ (drain n left).2.map Prod.fst).Perm (left.map Prod.fst) := by
  induction n generalizing left with
  | zero => exact List.Perm.refl _
  | succ n ih =>
    unfold drain
    split
    · exact List.Perm.refl _
    · next entry hfind =>
      have hmem : entry ∈ left := List.mem_of_find?_eq_some hfind
      have hrest := ih (left.filter fun other => other.1 ≠ entry.1)
        (List.Nodup.sublist (List.filter_sublist.map Prod.fst) h)
      rw [map_fst_filter_ne h] at hrest
      have hposition : entry.1 ∈ left.map Prod.fst := List.mem_map_of_mem hmem
      exact (hrest.cons entry.1).trans (List.perm_cons_erase hposition).symm

/-- A vertex is taken only when it waits for none of those that are taken later. -/
theorem drain_pairwise (n : Nat) (left : List (Nat × Vertex κ)) (h : (left.map Prod.fst).Nodup) :
    (drain n left).1.Pairwise (NoWait left) := by
  induction n generalizing left with
  | zero => exact List.Pairwise.nil
  | succ n ih =>
    unfold drain
    split
    · exact List.Pairwise.nil
    · next entry hfind =>
      have hmem : entry ∈ left := List.mem_of_find?_eq_some hfind
      have hready : isReady left entry.2 = true :=
        @List.find?_some _ (fun other : Nat × Vertex κ => isReady left other.2) _ _ hfind
      have hnodup : ((left.filter fun other => decide (other.1 ≠ entry.1)).map Prod.fst).Nodup :=
        List.Nodup.sublist (List.filter_sublist.map Prod.fst) h
      refine List.Pairwise.cons ?_ ?_
      · intro j _ v w hv hw
        have hentry : (entry.1, v) = entry :=
          List.inj_on_of_nodup_map h hv hmem rfl
        have hv' : v = entry.2 := congrArg Prod.snd hentry
        rw [hv']
        have hother := List.all_eq_true.1 hready (j, w) hw
        simpa using hother
      · refine (ih _ hnodup).imp_of_mem ?_
        intro i j hi hj hwait
        have htaken : ∀ position ∈ (drain n (left.filter fun other => other.1 ≠ entry.1)).1,
            position ≠ entry.1 := by
          intro position hposition
          have hin := (drain_perm n _ hnodup).subset (List.mem_append_left _ hposition)
          obtain ⟨other, hother, rfl⟩ := List.mem_map.1 hin
          exact of_decide_eq_true (List.mem_filter.1 hother).2
        refine hwait.mono fun v w hv hw => ⟨?_, ?_⟩
        · exact List.mem_filter.2 ⟨hv, decide_eq_true (htaken i hi)⟩
        · exact List.mem_filter.2 ⟨hw, decide_eq_true (htaken j hj)⟩

/-- Vertices that wait only for those of lower layers are all taken. -/
theorem drain_of_layers (layer : κ → Nat) (n : Nat) (left : List (Nat × Vertex κ))
    (hlength : left.length ≤ n)
    (hlayer : ∀ entry ∈ left, ∀ other ∈ left, entry.2.waitsFor other.2 = true →
      layer other.2.key < layer entry.2.key) :
    (drain n left).2 = [] := by
  induction n generalizing left with
  | zero => exact List.eq_nil_of_length_eq_zero (Nat.le_zero.1 hlength)
  | succ n ih =>
    unfold drain
    split
    · next hnone =>
      -- a vertex of the lowest layer would be ready
      show left = []
      by_contra hne
      obtain ⟨first, rest, hleft⟩ := List.exists_cons_of_ne_nil hne
      obtain ⟨least, hleast, hmin⟩ :=
        (measure fun entry : Nat × Vertex κ => layer entry.2.key).wf.has_min
          { entry | entry ∈ left } ⟨first, hleft ▸ List.mem_cons_self⟩
      refine List.find?_eq_none.1 hnone least hleast (List.all_eq_true.2 fun other hother => ?_)
      rw [Bool.not_eq_true']
      by_contra hwaits
      rw [Bool.not_eq_false] at hwaits
      exact hmin other hother (hlayer least hleast other hother hwaits)
    · next entry hfind =>
      have hmem : entry ∈ left := List.mem_of_find?_eq_some hfind
      refine ih _ ?_ fun first hfirst other hother =>
        hlayer first (List.mem_filter.1 hfirst).1 other (List.mem_filter.1 hother).1
      have hless : (left.filter fun other => decide (other.1 ≠ entry.1)).length < left.length :=
        List.length_filter_lt_length_iff_exists.2 ⟨entry, hmem, by simp⟩
      omega

omit [DecidableEq κ] in
theorem map_fst_numbered (vertices : List (Vertex κ)) :
    (numbered vertices).map Prod.fst = List.range vertices.length := by
  unfold numbered
  rw [List.map_map]
  have hfst : (Prod.fst ∘ fun p : Vertex κ × Nat => (p.2, p.1)) = Prod.snd := rfl
  rw [hfst, List.zipIdx_map_snd, List.range_eq_range']

omit [DecidableEq κ] in
theorem mem_numbered {vertices : List (Vertex κ)} {i : Nat} {v : Vertex κ} :
    (i, v) ∈ numbered vertices ↔ vertices[i]? = some v := by
  unfold numbered
  rw [List.mem_map]
  constructor
  · rintro ⟨⟨w, j⟩, hw, heq⟩
    obtain ⟨rfl, rfl⟩ := Prod.mk.inj heq
    exact List.mem_zipIdx_iff_getElem?.1 hw
  · intro h
    exact ⟨(v, i), List.mem_zipIdx_iff_getElem?.2 h, rfl⟩

section Order

variable [Ranked κ] {vertices : List (Vertex κ)} {positions : List Nat}

theorem keys_nodup_of_order (h : order vertices = .ok positions) :
    (vertices.map Vertex.key).Nodup := by
  by_contra hnodup
  unfold order at h
  rw [if_pos hnodup] at h
  cases h

/-- An order holds every position once. -/
theorem order_perm (h : order vertices = .ok positions) :
    positions.Perm (List.range vertices.length) := by
  unfold order at h
  split at h
  · cases h
  · split at h
    · next drained hdrain =>
      cases h
      have hperm := drain_perm vertices.length (numbered vertices)
        (map_fst_numbered vertices ▸ List.nodup_range)
      rw [hdrain, map_fst_numbered] at hperm
      simpa using hperm
    · cases h

/-- In an order no vertex stands before one that it waits for. -/
theorem order_pairwise (h : order vertices = .ok positions) :
    positions.Pairwise fun i j =>
      ∀ v w, vertices[i]? = some v → vertices[j]? = some w → v.waitsFor w = false := by
  unfold order at h
  split at h
  · cases h
  · split at h
    · next drained hdrain =>
      cases h
      have hpairwise := drain_pairwise vertices.length (numbered vertices)
        (map_fst_numbered vertices ▸ List.nodup_range)
      rw [hdrain] at hpairwise
      refine hpairwise.imp fun hwait v w hv hw => ?_
      exact hwait v w (mem_numbered.2 hv) (mem_numbered.2 hw)
    · cases h

/-- Vertices that depend only on those of lower layers, or on themselves, have an order. -/
theorem exists_order_of_layers (layer : κ → Nat) (hnodup : (vertices.map Vertex.key).Nodup)
    (hlayer : ∀ v ∈ vertices, ∀ key ∈ v.needs, key ≠ v.key → layer key < layer v.key) :
    ∃ positions, order vertices = .ok positions := by
  have hdrain : (drain vertices.length (numbered vertices)).2 = [] := by
    apply drain_of_layers layer
    · simp [numbered]
    · rintro ⟨i, v⟩ hv other - hwaits
      have hmem := List.mem_of_getElem? (mem_numbered.1 hv)
      unfold Vertex.waitsFor at hwaits
      simp only [Bool.and_eq_true, decide_eq_true_eq, List.contains_iff_mem] at hwaits
      exact hlayer v hmem other.2.key hwaits.2 (Ne.symm hwaits.1)
  unfold order
  rw [if_neg (not_not.2 hnodup)]
  split
  · next positions _ => exact ⟨positions, rfl⟩
  · next stuck hne hresult =>
    rw [hresult] at hdrain
    exact (hne hdrain).elim

end Order

end Provision.Graph

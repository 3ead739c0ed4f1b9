import Mathlib.Data.List.Perm.Basic
import Mathlib.Data.List.Shortlex
import Mathlib.Logic.Relation

/-!
# Breadth-first order

Every node of a graph has its successors in some order.  A chain of steps from the
root is told by the number of the successor that each step takes.  Of all chains
that lead to a node the first one is the least among the shortest, and breadth-first
order is the order of these first chains.

A search that goes on from level to level keeps, with each node that it comes to,
the chain it came by.  What it lists are the nodes that can be reached, each once and
in breadth-first order, as long as there are more rounds than nodes with successors.
-/

namespace Provision.Graph

open List (Shortlex)
open Relation (ReflTransGen)

variable {α : Type} {next : α → List α} {root : α}

/-! ## Chains of steps -/

/-- The node that a chain of steps leads to. -/
def along (next : α → List α) : α → List Nat → Option α
  | a, [] => some a
  | a, i :: chain => (next a)[i]?.bind fun b => along next b chain

theorem along_append (next : α → List α) (a : α) (front back : List Nat) :
    along next a (front ++ back) = (along next a front).bind fun b => along next b back := by
  induction front generalizing a with
  | nil => rfl
  | cons i front ih =>
    rw [List.cons_append, along, along, Option.bind_assoc]
    exact congrArg _ (funext fun b => ih b)

theorem along_concat (next : α → List α) (a : α) (chain : List Nat) (i : Nat) :
    along next a (chain ++ [i]) = (along next a chain).bind fun b => (next b)[i]? := by
  rw [along_append]
  exact congrArg _ (funext fun b => Option.bind_fun_some _)

theorem reachable_iff {a : α} :
    ReflTransGen (fun a b => b ∈ next a) root a ↔ ∃ chain, along next root chain = some a := by
  constructor
  · intro h
    induction h with
    | refl => exact ⟨[], rfl⟩
    | tail _ hstep ih =>
      obtain ⟨chain, hchain⟩ := ih
      obtain ⟨i, hi⟩ := List.mem_iff_getElem?.1 hstep
      refine ⟨chain ++ [i], ?_⟩
      rw [along_concat, hchain]
      exact hi
  · rintro ⟨chain, hchain⟩
    induction chain generalizing root with
    | nil =>
      cases hchain
      exact .refl
    | cons i chain ih =>
      obtain ⟨b, hb, hrest⟩ := Option.bind_eq_some_iff.1 hchain
      exact .head (List.mem_of_getElem? hb) (ih hrest)

/-! ## The order -/

/-- A chain leads to the node, and comes before all others that do. -/
structure IsFirst (next : α → List α) (root : α) (chain : List Nat) (a : α) : Prop where
  leads : along next root chain = some a
  least : ∀ other, along next root other = some a → chain = other ∨ Shortlex (· < ·) chain other

theorem IsFirst.unique {chain other : List Nat} {a : α} (h : IsFirst next root chain a)
    (hother : IsFirst next root other a) : chain = other := by
  rcases h.least other hother.leads with heq | hless
  · exact heq
  · rcases hother.least chain h.leads with heq | hgreater
    · exact heq.symm
    · exact absurd hgreater (asymm hless)

/-- The nodes that can be reached from the root, each once, in the order of their first chains. -/
structure BreadthFirst (next : α → List α) (root : α) (order : List α) : Prop where
  nodup : order.Nodup
  mem_iff : ∀ a, a ∈ order ↔ ReflTransGen (fun a b => b ∈ next a) root a
  ordered : order.Pairwise fun a b => ∃ chain other, IsFirst next root chain a ∧
    IsFirst next root other b ∧ Shortlex (· < ·) chain other

/-- There is only one breadth-first order. -/
theorem BreadthFirst.unique {order other : List α} (h : BreadthFirst next root order)
    (hother : BreadthFirst next root other) : order = other := by
  have hperm : order.Perm other := (List.perm_ext_iff_of_nodup h.nodup hother.nodup).2 fun a =>
    (h.mem_iff a).trans (hother.mem_iff a).symm
  refine hperm.eq_of_pairwise (fun a b _ _ hab hba => ?_) h.ordered hother.ordered
  obtain ⟨chain, later, hchain, hlater, hless⟩ := hab
  obtain ⟨again, before, hagain, hbefore, hgreater⟩ := hba
  rw [hagain.unique hlater, hbefore.unique hchain] at hgreater
  exact absurd hgreater (asymm hless)

/-! ## Search by levels -/

section Search

variable [DecidableEq α]

/-- The visits to nodes that were not seen, each node at its first visit. -/
def unseen : List (List Nat × α) → List α → List (List Nat × α)
  | [], _ => []
  | visit :: rest, seen =>
    if visit.2 ∈ seen then unseen rest seen else visit :: unseen rest (seen ++ [visit.2])

/-- The visits that follow one, along each successor. -/
def onward (next : α → List α) (visit : List Nat × α) : List (List Nat × α) :=
  (next visit.2).zipIdx.map fun step => (visit.1 ++ [step.2], step.1)

/-- Visits nodes that were not seen, then their successors, and so on, for a number of rounds. -/
def explore (next : α → List α) : (rounds : Nat) → List (List Nat × α) → List α →
    List (List Nat × α)
  | 0, _, _ => []
  | rounds + 1, front, seen =>
    unseen front seen ++ explore next rounds ((unseen front seen).flatMap (onward next))
      (seen ++ (unseen front seen).map Prod.snd)

theorem explore_nil (next : α → List α) (rounds : Nat) (seen : List α) :
    explore next rounds [] seen = [] := by
  induction rounds generalizing seen with
  | zero => rfl
  | succ rounds ih =>
    rw [explore, unseen, List.nil_append]
    exact ih _

theorem unseen_sublist (front : List (List Nat × α)) (seen : List α) :
    (unseen front seen).Sublist front := by
  induction front generalizing seen with
  | nil => exact .refl _
  | cons visit rest ih =>
    rw [unseen]
    split
    · exact (ih seen).cons visit
    · exact (ih _).cons_cons visit

theorem not_mem_seen {front : List (List Nat × α)} {seen : List α} {visit : List Nat × α}
    (h : visit ∈ unseen front seen) : visit.2 ∉ seen := by
  induction front generalizing seen with
  | nil => cases h
  | cons first rest ih =>
    rw [unseen] at h
    split at h
    · exact ih h
    · next hfirst =>
      rcases List.mem_cons.1 h with rfl | h
      · exact hfirst
      · exact fun hmem => ih h (List.mem_append_left _ hmem)

/-- No node is visited twice. -/
theorem eq_of_mem_unseen {front : List (List Nat × α)} {seen : List α} {visit other : List Nat × α}
    (h : visit ∈ unseen front seen) (hother : other ∈ unseen front seen)
    (hsame : visit.2 = other.2) : visit = other := by
  induction front generalizing seen with
  | nil => cases h
  | cons first rest ih =>
    have hapart {later : List Nat × α} (hlater : later ∈ unseen rest (seen ++ [first.2])) :
        later.2 ≠ first.2 := fun heq =>
      not_mem_seen hlater (List.mem_append_right _ (List.mem_singleton.2 heq))
    rw [unseen] at h hother
    split at h
    · rw [if_pos ‹_›] at hother
      exact ih h hother
    · rw [if_neg ‹_›] at hother
      rcases List.mem_cons.1 h with rfl | h
      · rcases List.mem_cons.1 hother with rfl | hother
        · rfl
        · exact absurd hsame.symm (hapart hother)
      · rcases List.mem_cons.1 hother with rfl | hother
        · exact absurd hsame (hapart h)
        · exact ih h hother

/-- A node that was not seen has its first visit among those that are made. -/
theorem exists_unseen {r : List Nat × α → List Nat × α → Prop} {front : List (List Nat × α)}
    {seen : List α} {visit : List Nat × α} (hsorted : front.Pairwise r) (hvisit : visit ∈ front)
    (hnew : visit.2 ∉ seen) :
    ∃ first ∈ unseen front seen, first.2 = visit.2 ∧ (first = visit ∨ r first visit) := by
  induction front generalizing seen with
  | nil => cases hvisit
  | cons head rest ih =>
    obtain ⟨hhead, hrest⟩ := List.pairwise_cons.1 hsorted
    rw [unseen]
    split
    · next hseen =>
      rcases List.mem_cons.1 hvisit with rfl | hvisit
      · exact absurd hseen hnew
      · exact ih hrest hvisit hnew
    · rcases List.mem_cons.1 hvisit with rfl | hvisit
      · exact ⟨visit, List.mem_cons_self, rfl, Or.inl rfl⟩
      · by_cases hsame : head.2 = visit.2
        · exact ⟨head, List.mem_cons_self, hsame, Or.inr (hhead visit hvisit)⟩
        · have hstill : visit.2 ∉ seen ++ [head.2] := by
            rw [List.mem_append, List.mem_singleton]
            exact not_or.2 ⟨hnew, Ne.symm hsame⟩
          obtain ⟨first, hfirst, hfound⟩ := ih hrest hvisit hstill
          exact ⟨first, List.mem_cons_of_mem _ hfirst, hfound⟩

omit [DecidableEq α] in
theorem mem_onward {visit later : List Nat × α} :
    later ∈ onward next visit ↔
      ∃ i, (next visit.2)[i]? = some later.2 ∧ later.1 = visit.1 ++ [i] := by
  unfold onward
  rw [List.mem_map]
  constructor
  · rintro ⟨⟨b, i⟩, hstep, rfl⟩
    exact ⟨i, List.mem_zipIdx_iff_getElem?.1 hstep, rfl⟩
  · rintro ⟨i, hstep, hchain⟩
    exact ⟨(later.2, i), List.mem_zipIdx_iff_getElem?.2 hstep, Prod.ext hchain.symm rfl⟩

omit [DecidableEq α] in
theorem map_onward (next : α → List α) (visit : List Nat × α) :
    (onward next visit).map Prod.snd = next visit.2 := by
  unfold onward
  rw [List.map_map]
  exact List.zipIdx_map_fst 0 _

/-! ### One level -/

theorem lex_append {r : Nat → Nat → Prop} {front other : List Nat} (h : List.Lex r front other)
    (hlength : front.length = other.length) (back more : List Nat) :
    List.Lex r (front ++ back) (other ++ more) := by
  induction h with
  | nil => cases hlength
  | cons _ ih => exact .cons (ih (Nat.succ.inj hlength))
  | rel hrel => exact .rel hrel

theorem shortlex_concat {front other : List Nat} (h : Shortlex (· < ·) front other) (i j : Nat) :
    Shortlex (· < ·) (front ++ [i]) (other ++ [j]) := by
  rcases List.shortlex_def.1 h with hlength | ⟨hlength, hlex⟩
  · apply Shortlex.of_length_lt
    simpa using hlength
  · exact Shortlex.of_lex (by simp [hlength]) (lex_append hlex hlength _ _)

theorem shortlex_trans {chain other last : List Nat} (h : Shortlex (· < ·) chain other)
    (hother : Shortlex (· < ·) other last) : Shortlex (· < ·) chain last := by
  rcases List.shortlex_def.1 h with hlength | ⟨hlength, hlex⟩
  · rcases List.shortlex_def.1 hother with hlater | ⟨hlater, -⟩
    · exact Shortlex.of_length_lt (hlength.trans hlater)
    · exact Shortlex.of_length_lt (hlater ▸ hlength)
  · rcases List.shortlex_def.1 hother with hlater | ⟨hlater, hmore⟩
    · exact Shortlex.of_length_lt (hlength ▸ hlater)
    · exact Shortlex.of_lex (hlength.trans hlater) (List.lex_trans Nat.lt_trans hlex hmore)

/-- What is known of a search that has seen all nodes with a chain of fewer than `k` steps: in
front of it are chains of `k` steps in their order, at least one for each node that these chains
lead to first. -/
structure Level (next : α → List α) (root : α) (k : Nat) (front : List (List Nat × α))
    (seen : List α) : Prop where
  leads : ∀ visit ∈ front, visit.1.length = k ∧ along next root visit.1 = some visit.2
  sorted : front.Pairwise fun visit later => Shortlex (· < ·) visit.1 later.1
  seen_iff : ∀ a, a ∈ seen ↔ ∃ chain, chain.length < k ∧ along next root chain = some a
  covers : ∀ chain a, chain.length = k → along next root chain = some a → a ∉ seen →
    ∃ visit ∈ front, visit.2 = a ∧ (visit.1 = chain ∨ Shortlex (· < ·) visit.1 chain)

variable {k : Nat} {front : List (List Nat × α)} {seen : List α}

omit [DecidableEq α] in
theorem level_start (next : α → List α) (root : α) : Level next root 0 [([], root)] [] where
  leads := List.forall_mem_singleton.2 ⟨rfl, rfl⟩
  sorted := List.pairwise_singleton _ _
  seen_iff := by
    intro a
    constructor
    · exact fun h => absurd h List.not_mem_nil
    · rintro ⟨chain, hlength, -⟩
      exact absurd hlength (Nat.not_lt_zero _)
  covers := by
    intro chain a hlength hchain _
    obtain rfl := List.length_eq_zero_iff.1 hlength
    cases hchain
    exact ⟨_, List.mem_singleton_self _, rfl, Or.inl rfl⟩

/-- A node that is met on this level for the first time is visited, along its first chain. -/
theorem Level.exists_first (h : Level next root k front seen) {chain : List Nat} {a : α}
    (hlength : chain.length = k) (hchain : along next root chain = some a) (hnew : a ∉ seen) :
    ∃ visit ∈ unseen front seen, visit.2 = a ∧
      (visit.1 = chain ∨ Shortlex (· < ·) visit.1 chain) := by
  obtain ⟨visit, hvisit, rfl, hless⟩ := h.covers chain a hlength hchain hnew
  obtain ⟨first, hfirst, hsame, hbefore⟩ := exists_unseen h.sorted hvisit hnew
  refine ⟨first, hfirst, hsame, ?_⟩
  rcases hbefore with rfl | hbefore
  · exact hless
  · rcases hless with rfl | hless
    · exact Or.inr hbefore
    · exact Or.inr (shortlex_trans hbefore hless)

/-- What is visited on a level is visited along its first chain. -/
theorem Level.isFirst (h : Level next root k front seen) {visit : List Nat × α}
    (hvisit : visit ∈ unseen front seen) :
    IsFirst next root visit.1 visit.2 := by
  obtain ⟨hlength, hchain⟩ := h.leads visit ((unseen_sublist front seen).subset hvisit)
  refine ⟨hchain, fun other hother => ?_⟩
  have hnew := not_mem_seen hvisit
  rcases Nat.lt_trichotomy other.length k with hshort | heq | hlong
  · exact absurd ((h.seen_iff _).2 ⟨other, hshort, hother⟩) hnew
  · obtain ⟨first, hfirst, hsame, hless⟩ := h.exists_first heq hother hnew
    obtain rfl : first = visit := eq_of_mem_unseen hfirst hvisit hsame
    exact hless
  · exact Or.inr (Shortlex.of_length_lt (hlength.symm ▸ hlong))

theorem Level.seen_step (h : Level next root k front seen) (a : α) :
    a ∈ seen ++ (unseen front seen).map Prod.snd ↔
      ∃ chain, chain.length < k + 1 ∧ along next root chain = some a := by
  rw [List.mem_append, List.mem_map]
  constructor
  · rintro (hseen | ⟨visit, hvisit, rfl⟩)
    · obtain ⟨chain, hlength, hchain⟩ := (h.seen_iff a).1 hseen
      exact ⟨chain, Nat.lt_succ_of_lt hlength, hchain⟩
    · obtain ⟨hlength, hchain⟩ := h.leads visit ((unseen_sublist front seen).subset hvisit)
      exact ⟨visit.1, by omega, hchain⟩
  · rintro ⟨chain, hlength, hchain⟩
    by_cases hseen : a ∈ seen
    · exact Or.inl hseen
    · have hfull : chain.length = k := by
        refine Nat.le_antisymm (Nat.le_of_lt_succ hlength) (Nat.le_of_not_lt fun hless => hseen ?_)
        exact (h.seen_iff a).2 ⟨chain, hless, hchain⟩
      obtain ⟨visit, hvisit, hsame, -⟩ := h.exists_first hfull hchain hseen
      exact Or.inr ⟨visit, hvisit, hsame⟩

omit [DecidableEq α] in
/-- The visits that follow one come in the order of their chains. -/
theorem onward_sorted (next : α → List α) (visit : List Nat × α) :
    (onward next visit).Pairwise fun earlier later => Shortlex (· < ·) earlier.1 later.1 := by
  unfold onward
  rw [List.pairwise_map]
  have hpositions : (next visit.2).zipIdx.Pairwise fun step later => step.2 < later.2 := by
    rw [← List.pairwise_map (f := Prod.snd) (R := (· < ·)), List.zipIdx_map_snd]
    exact List.pairwise_lt_range'
  refine hpositions.imp fun {step later} hless => ?_
  exact Shortlex.append_left ((List.shortlex_singleton_iff step.2 later.2).2 hless) visit.1

/-- One level of the search leads to the next. -/
theorem Level.step (h : Level next root k front seen) :
    Level next root (k + 1) ((unseen front seen).flatMap (onward next))
      (seen ++ (unseen front seen).map Prod.snd) where
  leads := by
    intro visit hvisit
    obtain ⟨before, hbefore, hstep⟩ := List.mem_flatMap.1 hvisit
    obtain ⟨hlength, hchain⟩ := h.leads before ((unseen_sublist front seen).subset hbefore)
    obtain ⟨i, hi, hvisit⟩ := mem_onward.1 hstep
    rw [hvisit, along_concat, hchain]
    exact ⟨by simp [hlength], hi⟩
  sorted := by
    rw [List.pairwise_flatMap]
    refine ⟨fun visit _ => onward_sorted next visit, ?_⟩
    have hsorted := h.sorted.sublist (unseen_sublist front seen)
    refine hsorted.imp fun hless visit hvisit later hlater => ?_
    obtain ⟨i, -, hi⟩ := mem_onward.1 hvisit
    obtain ⟨j, -, hj⟩ := mem_onward.1 hlater
    rw [hi, hj]
    exact shortlex_concat hless i j
  seen_iff := h.seen_step
  covers := by
    intro chain b hlength hchain hnew
    obtain rfl | ⟨front', i, rfl⟩ := List.eq_nil_or_concat' chain
    · cases hlength
    rw [along_concat] at hchain
    obtain ⟨a, ha, hi⟩ := Option.bind_eq_some_iff.1 hchain
    rw [List.length_append, List.length_singleton, Nat.add_right_cancel_iff] at hlength
    -- had the node before the last been seen on an earlier level, this one would be seen by now
    have hfresh : a ∉ seen := by
      intro hseen
      obtain ⟨short, hshort, hleads⟩ := (h.seen_iff a).1 hseen
      refine hnew ((h.seen_step b).2 ⟨short ++ [i], by simpa using hshort, ?_⟩)
      rw [along_concat, hleads]
      exact hi
    obtain ⟨visit, hvisit, rfl, hless⟩ := h.exists_first hlength ha hfresh
    refine ⟨(visit.1 ++ [i], b), List.mem_flatMap.2 ⟨visit, hvisit, mem_onward.2 ⟨i, hi, rfl⟩⟩, rfl,
      ?_⟩
    rcases hless with rfl | hless
    · exact Or.inl rfl
    · exact Or.inr (shortlex_concat hless i i)

/-! ### The whole search -/

omit [DecidableEq α] in
/-- With nothing in front of it, a search has seen all that can be reached. -/
theorem Level.closed (h : Level next root k [] seen) {chain : List Nat} {a : α}
    (hchain : along next root chain = some a) : a ∈ seen := by
  induction hlength : chain.length using Nat.strong_induction_on generalizing chain with
  | _ length ih =>
    by_cases hshort : chain.length < k
    · exact (h.seen_iff a).2 ⟨chain, hshort, hchain⟩
    · -- what the first `k` steps lead to has a shorter chain
      rw [← List.take_append_drop k chain, along_append] at hchain
      obtain ⟨b, hb, hrest⟩ := Option.bind_eq_some_iff.1 hchain
      have htake : (chain.take k).length = k := by
        rw [List.length_take]
        omega
      have hseen : b ∈ seen := by
        by_contra hnew
        obtain ⟨visit, hvisit, -⟩ := h.covers _ b htake hb hnew
        cases hvisit
      obtain ⟨short, hless, hleads⟩ := (h.seen_iff b).1 hseen
      have hshorter : (short ++ chain.drop k).length < length := by
        rw [List.length_append, List.length_drop]
        omega
      have hreaches : along next root (short ++ chain.drop k) = some a := by
        rw [along_append, hleads]
        exact hrest
      exact ih _ hshorter hreaches rfl

/-- What a search finds from a level on: visits along first chains of no fewer steps, in the order
of their chains, to everything that can be reached and was not seen. -/
structure Finds (next : α → List α) (root : α) (k : Nat) (seen : List α)
    (visits : List (List Nat × α)) : Prop where
  first : ∀ visit ∈ visits, k ≤ visit.1.length ∧ IsFirst next root visit.1 visit.2
  sorted : visits.Pairwise fun visit later => Shortlex (· < ·) visit.1 later.1
  covers : ∀ chain a, along next root chain = some a →
    a ∈ seen ∨ ∃ visit ∈ visits, visit.2 = a

/-- The nodes with successors that were not seen. -/
def remaining (sources seen : List α) : List α :=
  sources.filter fun a => decide (a ∉ seen)

theorem length_remaining_lt {sources more : List α} {a : α} (ha : a ∈ sources) (hold : a ∉ seen)
    (hnow : a ∈ more) :
    (remaining sources (seen ++ more)).length < (remaining sources seen).length := by
  have hsplit : remaining sources (seen ++ more) =
      (remaining sources seen).filter fun a => decide (a ∉ more) := by
    unfold remaining
    rw [List.filter_filter]
    refine List.filter_congr fun b _ => ?_
    rw [← Bool.decide_and, decide_eq_decide, List.mem_append, not_or, and_comm]
  rw [hsplit]
  refine List.length_filter_lt_length_iff_exists.2 ⟨a, List.mem_filter.2 ⟨ha, ?_⟩, ?_⟩
  · exact decide_eq_true hold
  · simpa using hnow

/-- With more rounds than nodes that are left to go on from, a search finds everything. -/
theorem Level.finds {sources : List α}
    (hsources : ∀ chain a, along next root chain = some a → next a ≠ [] → a ∈ sources)
    {rounds : Nat} (h : Level next root k front seen)
    (hrounds : (remaining sources seen).length < rounds) :
    Finds next root k seen (explore next rounds front seen) := by
  induction rounds generalizing k front seen with
  | zero => exact absurd hrounds (Nat.not_lt_zero _)
  | succ rounds ih =>
    have hstep := h.step
    have hfirst : ∀ visit ∈ unseen front seen,
        k ≤ visit.1.length ∧ IsFirst next root visit.1 visit.2 := fun visit hvisit =>
      ⟨(h.leads visit ((unseen_sublist front seen).subset hvisit)).1.ge, h.isFirst hvisit⟩
    have hsorted := h.sorted.sublist (unseen_sublist front seen)
    have hcovered : ∀ a, a ∈ seen ++ (unseen front seen).map Prod.snd →
        a ∈ seen ∨ ∃ visit ∈ unseen front seen, visit.2 = a := fun a ha =>
      (List.mem_append.1 ha).imp_right List.mem_map.1
    rw [explore]
    by_cases hend : (unseen front seen).flatMap (onward next) = []
    · rw [hend] at hstep ⊢
      rw [explore_nil, List.append_nil]
      exact ⟨hfirst, hsorted, fun chain a hchain => hcovered a (hstep.closed hchain)⟩
    · -- one of the nodes just visited has successors
      obtain ⟨visit, hvisit, hgoes⟩ : ∃ visit ∈ unseen front seen, next visit.2 ≠ [] := by
        by_contra hnone
        push Not at hnone
        refine hend (List.flatMap_eq_nil_iff.2 fun visit hvisit => ?_)
        rw [onward, hnone visit hvisit]
        rfl
      have hsource := hsources visit.1 visit.2 (hfirst visit hvisit).2.leads hgoes
      have hless := length_remaining_lt hsource (not_mem_seen hvisit) (List.mem_map_of_mem hvisit)
      have hlater := ih hstep (by omega)
      refine ⟨?_, ?_, fun chain a hchain => ?_⟩
      · intro visit hvisit
        rcases List.mem_append.1 hvisit with hvisit | hvisit
        · exact hfirst visit hvisit
        · exact ⟨Nat.le_of_succ_le (hlater.first visit hvisit).1, (hlater.first visit hvisit).2⟩
      · refine List.pairwise_append.2 ⟨hsorted, hlater.sorted, fun visit hvisit later hmem => ?_⟩
        refine Shortlex.of_length_lt ?_
        rw [(h.leads visit ((unseen_sublist front seen).subset hvisit)).1]
        exact (hlater.first later hmem).1
      · rcases hlater.covers chain a hchain with hseen | ⟨visit, hvisit, rfl⟩
        · rcases hcovered a hseen with hseen | ⟨visit, hvisit, rfl⟩
          · exact Or.inl hseen
          · exact Or.inr ⟨visit, List.mem_append_left _ hvisit, rfl⟩
        · exact Or.inr ⟨visit, List.mem_append_right _ hvisit, rfl⟩

/-- With more rounds than nodes with successors, a search lists what can be reached in
breadth-first order. -/
theorem breadthFirst_explore {sources : List α}
    (hsources : ∀ a, ReflTransGen (fun a b => b ∈ next a) root a → next a ≠ [] → a ∈ sources)
    {rounds : Nat} (hrounds : sources.length < rounds) :
    BreadthFirst next root ((explore next rounds [([], root)] []).map Prod.snd) := by
  have hremaining : (remaining sources []).length < rounds :=
    Nat.lt_of_le_of_lt (List.length_filter_le _ _) hrounds
  have hfinds := (level_start next root).finds
    (fun chain a hchain => hsources a (reachable_iff.2 ⟨chain, hchain⟩)) hremaining
  have hordered : ((explore next rounds [([], root)] []).map Prod.snd).Pairwise fun a b =>
      ∃ chain other, IsFirst next root chain a ∧ IsFirst next root other b ∧
        Shortlex (· < ·) chain other := by
    refine List.pairwise_map.2 (hfinds.sorted.imp_of_mem fun hvisit hlater hless => ?_)
    exact ⟨_, _, (hfinds.first _ hvisit).2, (hfinds.first _ hlater).2, hless⟩
  refine ⟨hordered.imp ?_, fun a => ?_, hordered⟩
  · rintro a _ ⟨chain, other, hchain, hother, hless⟩ rfl
    rw [hchain.unique hother] at hless
    exact absurd hless (asymm hless)
  · rw [reachable_iff, List.mem_map]
    constructor
    · rintro ⟨visit, hvisit, rfl⟩
      exact ⟨visit.1, (hfinds.first visit hvisit).2.leads⟩
    · rintro ⟨chain, hchain⟩
      exact (hfinds.covers chain a hchain).resolve_left List.not_mem_nil

end Search

end Provision.Graph

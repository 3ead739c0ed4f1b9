/-!
# Sorted lists without repetition

Finite sets that are read in increasing order: field names, dependency edges,
missing permissions of a graph search.  The order is a Boolean `before`.
-/

namespace Provision

/-- A strict order that can be computed. -/
class Ranked (α : Type) where
  /-- Whether the first comes strictly before the second. -/
  before : α → α → Bool

instance : Ranked String where
  before a b := decide (a < b)

instance : Ranked Nat where
  before a b := decide (a < b)

/-- Lists compare by their first difference; a front part comes before the whole. -/
def Ranked.listBefore {α : Type} [Ranked α] : List α → List α → Bool
  | [], [] => false
  | [], _ :: _ => true
  | _ :: _, [] => false
  | a :: as, b :: bs =>
    if Ranked.before a b then true
    else if Ranked.before b a then false
    else Ranked.listBefore as bs

instance {α : Type} [Ranked α] : Ranked (List α) where
  before := Ranked.listBefore

namespace Sorted

variable {α : Type} [Ranked α] [DecidableEq α]

/-- Puts an element at its place; one that is there already is not repeated. -/
def insert (x : α) : List α → List α
  | [] => [x]
  | y :: rest =>
    if x = y then y :: rest
    else if Ranked.before x y then x :: y :: rest
    else y :: insert x rest

/-- The elements of a list in increasing order, each once. -/
def ofList (items : List α) : List α :=
  items.foldl (fun set x => insert x set) []

/-- The elements of both. -/
def union (left right : List α) : List α :=
  right.foldl (fun set x => insert x set) left

/-- The set without one element. -/
def erase (x : α) (set : List α) : List α :=
  set.filter (· ≠ x)

/-- Every element comes before all later ones. -/
def Strict (set : List α) : Prop :=
  set.Pairwise fun a b => Ranked.before a b = true

theorem mem_insert {x y : α} {set : List α} : y ∈ insert x set ↔ y = x ∨ y ∈ set := by
  induction set with
  | nil => simp [insert]
  | cons z rest ih =>
    simp only [insert]
    split
    · next h => subst h; simp
    · split
      · simp
      · simp only [List.mem_cons, ih]
        constructor
        · rintro (h | h | h) <;> simp [h]
        · rintro (h | h | h) <;> simp [h]

theorem mem_foldl_insert {y : α} (items set : List α) :
    y ∈ items.foldl (fun set x => insert x set) set ↔ y ∈ set ∨ y ∈ items := by
  induction items generalizing set with
  | nil => simp
  | cons x rest ih =>
    rw [List.foldl_cons, ih, mem_insert, List.mem_cons]
    constructor
    · rintro ((h | h) | h) <;> simp [h]
    · rintro (h | h | h) <;> simp [h]

theorem mem_ofList {y : α} {items : List α} : y ∈ ofList items ↔ y ∈ items := by
  simp [ofList, mem_foldl_insert]

theorem mem_union {y : α} {left right : List α} : y ∈ union left right ↔ y ∈ left ∨ y ∈ right :=
  mem_foldl_insert right left

omit [Ranked α] in
theorem mem_erase {x y : α} {set : List α} : y ∈ erase x set ↔ y ∈ set ∧ y ≠ x := by
  simp [erase]

end Sorted

end Provision

import Mathlib.Data.List.Lex
import Mathlib.Data.String.Basic
import Mathlib.Order.Defs.Unbundled
import Provision.Key

/-!
# Sorted lists are in order

A list that elements were inserted into is strictly increasing, provided that the
order of the elements is a linear one.  Texts, type names and keys are in such an
order, and so are lists of what is in one.
-/

namespace Provision

namespace Ranked

/-- The order that can be computed is a strict linear order. -/
abbrev Linear (α : Type) [Ranked α] : Prop :=
  IsStrictTotalOrder α fun a b => Ranked.before a b = true

instance : Linear String where
  trichotomous a b hab hba := by
    have hab : ¬ a < b := fun h => hab (decide_eq_true h)
    have hba : ¬ b < a := fun h => hba (decide_eq_true h)
    exact le_antisymm (not_lt.1 hba) (not_lt.1 hab)
  irrefl a h := lt_irrefl a (of_decide_eq_true h)
  trans a b c hab hbc := decide_eq_true ((of_decide_eq_true hab).trans (of_decide_eq_true hbc))

section Lists

variable {α : Type} [Ranked α] [Linear α]

theorem listBefore_iff_lex {as bs : List α} :
    listBefore as bs = true ↔ List.Lex (fun a b => before a b = true) as bs := by
  induction as generalizing bs with
  | nil =>
    cases bs with
    | nil => exact ⟨nofun, nofun⟩
    | cons b bs => exact ⟨fun _ => .nil, fun _ => rfl⟩
  | cons a as ih =>
    cases bs with
    | nil => exact ⟨nofun, nofun⟩
    | cons b bs =>
      rw [listBefore]
      by_cases hab : before a b = true
      · rw [if_pos hab]
        exact ⟨fun _ => .rel hab, fun _ => rfl⟩
      · rw [if_neg hab]
        by_cases hba : before b a = true
        · rw [if_pos hba]
          refine ⟨nofun, fun h => ?_⟩
          cases h with
          | rel h => exact absurd h hab
          | cons h => exact absurd hba (Std.Irrefl.irrefl (r := fun a b : α => before a b = true) a)
        · obtain rfl : a = b :=
            Std.Trichotomous.trichotomous (r := fun a b : α => before a b = true) a b hab hba
          rw [if_neg hba, ih]
          refine ⟨.cons, fun h => ?_⟩
          cases h with
          | rel h => exact absurd h hab
          | cons h => exact h

instance : Linear (List α) := by
  have hlex : IsStrictTotalOrder (List α) (List.Lex fun a b => before a b = true) :=
    { isStrictWeakOrder_of_isOrderConnected with }
  have hsame : (fun as bs : List α => before as bs = true) =
      List.Lex fun a b => before a b = true := by
    funext as bs
    exact propext listBefore_iff_lex
  show IsStrictTotalOrder (List α) fun as bs => before as bs = true
  rwa [hsame]

end Lists

end Ranked

theorem TypeName.text_injective : Function.Injective TypeName.text := by
  rintro ⟨text, hname⟩ ⟨other, hother⟩ rfl
  rfl

theorem Key.before_iff {key other : Key} :
    Ranked.before key other = true ↔
      key.type.text < other.type.text ∨ key.type = other.type ∧ key.name < other.name := by
  show (decide _ || (decide _ && decide _)) = true ↔ _
  rw [Bool.or_eq_true, Bool.and_eq_true, decide_eq_true_eq, decide_eq_true_eq, decide_eq_true_eq]

instance : Ranked.Linear Key where
  trichotomous key other h h' := by
    rw [Key.before_iff, not_or, not_and, not_lt, not_lt] at h h'
    have htype : key.type = other.type := TypeName.text_injective (le_antisymm h'.1 h.1)
    have hname : key.name = other.name := le_antisymm (h'.2 htype.symm) (h.2 htype)
    obtain ⟨type, name⟩ := key
    cases htype
    cases hname
    rfl
  irrefl key h := by
    rcases Key.before_iff.1 h with h | h
    · exact lt_irrefl _ h
    · exact lt_irrefl _ h.2
  trans key other third h h' := by
    rw [Key.before_iff] at h h' ⊢
    rcases h with h | ⟨htype, hname⟩
    · rcases h' with h' | ⟨htype, -⟩
      · exact Or.inl (h.trans h')
      · exact Or.inl (htype ▸ h)
    · rcases h' with h' | ⟨htype', hname'⟩
      · exact Or.inl (htype ▸ h')
      · exact Or.inr ⟨htype.trans htype', hname.trans hname'⟩

namespace Sorted

variable {α : Type} [Ranked α] [DecidableEq α] [Ranked.Linear α]

theorem strict_insert (x : α) {set : List α} (h : Strict set) : Strict (insert x set) := by
  induction set with
  | nil => exact List.pairwise_singleton _ _
  | cons y rest ih =>
    obtain ⟨hy, hrest⟩ := List.pairwise_cons.1 h
    rw [insert]
    split
    · exact h
    · next hne =>
      split
      · next hbefore =>
        refine List.pairwise_cons.2 ⟨fun z hz => ?_, h⟩
        rcases List.mem_cons.1 hz with rfl | hz
        · exact hbefore
        · exact IsTrans.trans (r := fun a b : α => Ranked.before a b = true) x y z hbefore (hy z hz)
      · next hbefore =>
        refine List.pairwise_cons.2 ⟨fun z hz => ?_, ih hrest⟩
        rcases mem_insert.1 hz with rfl | hz
        · by_contra hback
          exact hne (Std.Trichotomous.trichotomous
            (r := fun a b : α => Ranked.before a b = true) z y hbefore hback)
        · exact hy z hz

end Sorted

end Provision

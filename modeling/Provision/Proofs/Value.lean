import Provision.Proofs.Evaluation.Finishing

/-!
# Values that are the same as themselves

Numbers compare as numbers, so a value that holds a not-a-number differs from
itself.  Every other value is the same as itself.
-/

namespace Provision.Value

open Float.Model in
/-- A float compares equal to itself unless it is not a number. -/
theorem number_beq_self {x : Float} (h : x.isNaN = false) : (x == x) = true := by
  show x.toModel.unpack.beq x.toModel.unpack = true
  have hnan : x.toModel.unpack.isNaN = false := h
  generalize x.toModel.unpack = unpacked at hnan ⊢
  unfold UnpackedFloat.beq
  cases unpacked with
  | notANumber => cases hnan
  | infinity sign => cases sign <;> rfl
  | zero sign => cases sign <;> rfl
  | finite sign mantissa exponent _ =>
    have horder : (compare exponent exponent).then (compare mantissa mantissa) = .eq := by
      have hexponent : compare exponent exponent = .eq := Std.ReflOrd.compare_self
      have hmantissa : compare mantissa mantissa = .eq := Std.ReflOrd.compare_self
      rw [hexponent, hmantissa]
      rfl
    cases sign with
    | positive =>
      show (some ((compare exponent exponent).then (compare mantissa mantissa)) == some .eq) = true
      rw [horder]
      rfl
    | negative =>
      show (some ((compare exponent exponent).then (compare mantissa mantissa)).swap ==
        some .eq) = true
      rw [horder]
      rfl

/-- A value in which every number is one, and no map has a key twice. -/
inductive Definite : Value → Prop
  | null : Definite .null
  | bool (b : Bool) : Definite (.bool b)
  | number {x : Float} (hnumber : x.isNaN = false) : Definite (.number x)
  | text (s : String) : Definite (.text s)
  | list {items : List Value} (hitems : ∀ item ∈ items, Definite item) : Definite (.list items)
  | map {entries : List (String × Value)} (hkeys : Table.Distinct entries)
      (hentries : ∀ entry ∈ entries, Definite entry.2) : Definite (.map entries)
  | resource (key : Key) : Definite (.resource key)

theorem sameItems_self {items : List Value} (h : ∀ item ∈ items, item.same item = true) :
    sameItems items items = true := by
  induction items with
  | nil => rfl
  | cons item rest ih =>
    rw [sameItems, h item List.mem_cons_self,
      ih fun other hother => h other (List.mem_cons_of_mem _ hother)]
    rfl

theorem sameEntries_of_get? {entries others : List (String × Value)}
    (h : ∀ entry ∈ entries, Table.get? others entry.1 = some entry.2)
    (hsame : ∀ entry ∈ entries, entry.2.same entry.2 = true) :
    sameEntries entries others = true := by
  induction entries with
  | nil => rfl
  | cons entry rest ih =>
    obtain ⟨key, item⟩ := entry
    have hfound : Table.get? others key = some item := h (key, item) List.mem_cons_self
    have hitem : item.same item = true := hsame (key, item) List.mem_cons_self
    rw [sameEntries, hfound, ih (fun other hother => h other (List.mem_cons_of_mem _ hother))
      fun other hother => hsame other (List.mem_cons_of_mem _ hother)]
    simp only [hitem, Bool.and_self]

/-- A definite value is the same as itself. -/
theorem Definite.same_self {value : Value} (h : value.Definite) : value.same value = true := by
  induction h with
  | null => rfl
  | bool b => exact beq_self_eq_true b
  | number hnumber => exact number_beq_self hnumber
  | text s => exact beq_self_eq_true s
  | list _ ih => exact sameItems_self ih
  | @map entries hkeys _ ih =>
    rw [same, beq_self_eq_true, Bool.true_and]
    exact sameEntries_of_get? (fun entry hentry => Table.get?_of_mem hkeys hentry) ih
  | resource key => exact beq_self_eq_true key

end Provision.Value

import Provision.Language.Parser
import Provision.Value
import Provision.Proofs.Decimal.Shortest

/-!
# Written numbers read back

A finite number is written as digits with a point among them.  Whatever the
place of the point, the digits and the length of the fraction give back the
decimal that was written, and so the number.
-/

namespace Provision.Decimal

open Provision.Language

theorem isDigit_of_mem_natDigits {n : Nat} {c : Char} (h : c ∈ natDigits n) :
    c.isDigit = true :=
  Nat.isDigit_of_mem_toDigits (by decide) (by decide) h

theorem natDigits_ne_nil (n : Nat) : natDigits n ≠ [] :=
  Nat.toDigits_ne_nil

theorem natOfDigits_eq (digits : List Char) :
    natOfDigits digits = Nat.ofDigitChars 10 digits 0 := rfl

theorem natOfDigits_natDigits (n : Nat) : natOfDigits (natDigits n) = n :=
  Nat.ofDigitChars_ten_toDigits

/-- Digits before and behind a point.  Without a fraction there is no point. -/
structure Numeral where
  whole : List Char
  fraction : List Char
  whole_ne : whole ≠ []
  whole_digits : ∀ c ∈ whole, c.isDigit = true
  fraction_digits : ∀ c ∈ fraction, c.isDigit = true

namespace Numeral

/-- The characters of a numeral. -/
def text (numeral : Numeral) : List Char :=
  numeral.whole ++ if numeral.fraction.isEmpty then [] else '.' :: numeral.fraction

theorem head_isDigit (numeral : Numeral) (tail : List Char) :
    ∃ c rest, numeral.text ++ tail = c :: rest ∧ c.isDigit = true := by
  have hne := numeral.whole_ne
  have hdigits := numeral.whole_digits
  unfold text
  cases hwhole : numeral.whole with
  | nil => exact absurd hwhole hne
  | cons c rest =>
    rw [hwhole] at hdigits
    exact ⟨c, _, rfl, hdigits c List.mem_cons_self⟩

end Numeral

/-- Text written positionally is a numeral that denotes the decimal it was written for. -/
theorem positionalText_numeral (digits : Digits) :
    ∃ numeral : Numeral, positionalText false digits = numeral.text ∧
      ∀ negative, ofDigits negative numeral.whole numeral.fraction 0 =
        ofDecimal negative digits.significand digits.exponent := by
  obtain ⟨d, k⟩ := digits
  have hne := natDigits_ne_nil d
  have hdigits : ∀ c ∈ natDigits d, c.isDigit = true := fun c => isDigit_of_mem_natDigits
  have hzeros : ∀ n, ∀ c ∈ List.replicate n '0', c.isDigit = true := by
    intro n c hc
    rw [List.eq_of_mem_replicate hc]
    rfl
  unfold positionalText
  dsimp only
  split
  · rename_i hk
    refine ⟨⟨natDigits d ++ List.replicate k.toNat '0', [], by simp [hne], ?_, by simp⟩, ?_, ?_⟩
    · intro c hc
      rcases List.mem_append.1 hc with hc | hc
      · exact hdigits c hc
      · exact hzeros _ c hc
    · simp [Numeral.text]
    · intro negative
      have hneg : (-k).toNat = 0 := by omega
      simp only [ofDigits, ofDecimal, List.append_nil, List.length_nil, natOfDigits_eq,
        Nat.ofDigitChars_append, Nat.ofDigitChars_replicate_zero, hneg]
      rw [← natOfDigits_eq, natOfDigits_natDigits, Nat.mul_comm (10 ^ k.toNat)]
      simp
  · rename_i hk
    have hplaces : ((-k).toNat : Int) = -k := by omega
    split
    · rename_i hfew
      have hsplit := List.take_append_drop ((natDigits d).length - (-k).toNat) (natDigits d)
      refine ⟨⟨(natDigits d).take ((natDigits d).length - (-k).toNat),
        (natDigits d).drop ((natDigits d).length - (-k).toNat), ?_, ?_, ?_⟩, ?_, ?_⟩
      · simp only [ne_eq, List.take_eq_nil_iff, hne, or_false]
        omega
      · intro c hc
        exact hdigits c (List.mem_of_mem_take hc)
      · intro c hc
        exact hdigits c (List.mem_of_mem_drop hc)
      · have hfraction : ((natDigits d).drop ((natDigits d).length - (-k).toNat)).isEmpty =
            false := by
          rw [List.isEmpty_eq_false_iff, ne_eq, List.drop_eq_nil_iff]
          omega
        simp [Numeral.text, hfraction]
      · intro negative
        simp only [ofDigits, hsplit, natOfDigits_natDigits, List.length_drop]
        congr 1
        omega
    · rename_i hmany
      refine ⟨⟨['0'], List.replicate ((-k).toNat - (natDigits d).length) '0' ++ natDigits d,
        by simp, by simp, ?_⟩, ?_, ?_⟩
      · intro c hc
        rcases List.mem_append.1 hc with hc | hc
        · exact hzeros _ c hc
        · exact hdigits c hc
      · simp [Numeral.text, hne]
      · intro negative
        have hvalue : natOfDigits (['0'] ++ (List.replicate
            ((-k).toNat - (natDigits d).length) '0' ++ natDigits d)) = d := by
          rw [natOfDigits_eq, Nat.ofDigitChars_append, Nat.ofDigitChars_append]
          simp only [Nat.ofDigitChars_cons, Nat.ofDigitChars_nil,
            Nat.ofDigitChars_replicate_zero]
          exact natOfDigits_natDigits d
        simp only [ofDigits, hvalue, List.length_append, List.length_replicate]
        congr 1
        omega

/-- A digit run ends where no digit follows. -/
theorem digitRun_append {digits tail : List Char}
    (hdigits : ∀ c ∈ digits, c.isDigit = true)
    (htail : ∀ c ∈ tail.head?, c.isDigit = false) :
    digitRun (digits ++ tail) = digits := by
  unfold digitRun
  rw [List.takeWhile_append_of_pos hdigits]
  cases tail with
  | nil => simp
  | cons c rest =>
    have hc : c.isDigit = false := htail c rfl
    simp [hc]

/-- A numeral is read with its sign up to where neither a digit nor a point follows. -/
theorem number_numeral (negative : Bool) (numeral : Numeral) {tail : List Char}
    (htail : ∀ c ∈ tail.head?, c.isDigit = false ∧ c ≠ '.') :
    number ((if negative then ['-'] else []) ++ (numeral.text ++ tail)) =
      (ofDigits negative numeral.whole numeral.fraction 0,
        ((if negative then ['-'] else []) ++ numeral.text).length) := by
  obtain ⟨c, rest, hhead, hc⟩ := numeral.head_isDigit tail
  have hminus : (numeral.text ++ tail).head? ≠ some '-' := by
    rw [hhead]
    intro heq
    cases heq
    exact absurd hc (by decide)
  have hsign : ((numeral.text ++ tail).head? == some '-') = false := beq_eq_false_iff_ne.2 hminus
  have hminusFirst : (((if negative then ['-'] else []) ++ (numeral.text ++ tail)).head? ==
      some '-') = negative := by
    cases negative with
    | true => rfl
    | false => exact hsign
  have hbody : (if negative then ((if negative then ['-'] else []) ++ (numeral.text ++ tail)).tail
      else (if negative then ['-'] else []) ++ (numeral.text ++ tail)) = numeral.text ++ tail := by
    cases negative <;> rfl
  unfold number
  dsimp only
  rw [hminusFirst, hbody]
  unfold Numeral.text
  by_cases hfraction : numeral.fraction = []
  · have hwhole : digitRun (numeral.whole ++ tail) = numeral.whole :=
      digitRun_append numeral.whole_digits fun c hc => (htail c hc).1
    simp only [hfraction, List.isEmpty_nil, if_true, List.append_nil, hwhole, List.drop_left]
    split
    · exact absurd rfl (htail '.' rfl).2
    · cases negative <;> simp [Nat.add_comm]
  · have hempty : numeral.fraction.isEmpty = false := List.isEmpty_eq_false_iff.2 hfraction
    have hwhole : digitRun (numeral.whole ++ '.' :: (numeral.fraction ++ tail)) =
        numeral.whole := by
      apply digitRun_append numeral.whole_digits
      intro c hc
      cases hc
      rfl
    have hfrac : digitRun (numeral.fraction ++ tail) = numeral.fraction :=
      digitRun_append numeral.fraction_digits fun c hc => (htail c hc).1
    simp only [hempty, Bool.false_eq_true, if_false, List.append_assoc, List.cons_append,
      hwhole, List.drop_left, hfrac]
    cases negative with
    | true => simp [Nat.add_assoc, Nat.add_comm 1]
    | false => simp

/-! ## Numbers as configuration files spell them -/

theorem write_plain {x : Float} (hx : isFinite x = true) :
    ∃ numeral : Numeral,
      write plain x = (if isNegative x then ['-'] else []) ++ numeral.text ∧
        ofDigits (isNegative x) numeral.whole numeral.fraction 0 = x := by
  obtain ⟨numeral, htext, hvalue⟩ := positionalText_numeral (shortest plain.tie (magnitude x))
  refine ⟨numeral, ?_, ?_⟩
  · simp only [write, hx, if_true]
    have hplain : ∀ e, plain.positional e = true := fun _ => rfl
    have hpoint : plain.pointZero = false := rfl
    simp only [hplain, if_true, hpoint, htext]
    cases isNegative x <;> rfl
  · rw [hvalue]
    exact ofDecimal_shortest plain.tie hx

/-- A finite number is written with digits, a sign and a point. -/
theorem isDigit_or_of_mem_write {x : Float} (hx : isFinite x = true) {c : Char}
    (h : c ∈ write plain x) :
    c.isDigit = true ∨ c = '-' ∨ c = '.' := by
  obtain ⟨numeral, htext, -⟩ := write_plain hx
  rw [htext, Numeral.text, List.mem_append, List.mem_append] at h
  rcases h with h | h | h
  · split at h
    · exact Or.inr (Or.inl (List.mem_singleton.1 h))
    · cases h
  · exact Or.inl (numeral.whole_digits c h)
  · split at h
    · cases h
    · rcases List.mem_cons.1 h with h | h
      · exact Or.inr (Or.inr h)
      · exact Or.inl (numeral.fraction_digits c h)

/-- A finite number is read back from its text, up to where no digit or point goes on. -/
theorem number_write {x : Float} {tail : List Char}
    (hx : isFinite x = true)
    (htail : ∀ c ∈ tail.head?, c.isDigit = false ∧ c ≠ '.') :
    number (write plain x ++ tail) = (x, (write plain x).length) := by
  obtain ⟨numeral, htext, hvalue⟩ := write_plain hx
  rw [htext, List.append_assoc, number_numeral _ _ htail, hvalue]

theorem startsNumber_write {x : Float} (hx : isFinite x = true) (tail : List Char) :
    startsNumber (write plain x ++ tail) = true := by
  obtain ⟨numeral, htext, -⟩ := write_plain hx
  obtain ⟨c, rest, hhead, hc⟩ := numeral.head_isDigit tail
  rw [htext, List.append_assoc, hhead]
  cases isNegative x with
  | true => exact hc
  | false =>
    have hminus : c ≠ '-' := by
      rintro rfl
      exact absurd hc (by decide)
    simp [startsNumber, hminus, hc]

end Provision.Decimal

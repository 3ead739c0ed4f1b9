import Mathlib.Algebra.Order.Field.Power
import Mathlib.Data.Rat.Cast.Order
import Mathlib.Tactic.FieldSimp
import Mathlib.Tactic.Linarith
import Mathlib.Tactic.NormNum
import Mathlib.Tactic.Ring
import Provision.Proofs.Decimal.Encoding

/-!
# Rounding to the nearest number

A decimal that lies in the rounding interval of a number is read as that number.
Both the interval and the reader work on naturals with a common denominator;
here they are put on one scale of rationals, where the argument is about the
binade in which the decimal lies.
-/

namespace Provision.Decimal

/-- The rational `d · 10 ^ k`. -/
def decimalValue (d : Nat) (k : Int) : ℚ :=
  d * (10 : ℚ) ^ k

theorem zpow_eq_div (a : ℚ) (e : Int) :
    a ^ e = a ^ e.toNat / a ^ (-e).toNat := by
  rcases Int.le_total 0 e with he | he
  · obtain ⟨n, rfl⟩ := Int.eq_ofNat_of_zero_le he
    simp
  · obtain ⟨n, hn⟩ := Int.eq_ofNat_of_zero_le (Int.neg_nonneg_of_nonpos he)
    have he' : e = -(n : Int) := by omega
    subst he'
    simp

/-! ## Quotients -/

theorem roundQuotient_eq_of_between {num den m : Nat}
    (hden : 0 < den)
    (hlow : 2 * m * den ≤ 2 * num + den)
    (hhigh : 2 * num ≤ 2 * m * den + den)
    (heven : m % 2 = 0 ∨ (2 * m * den < 2 * num + den ∧ 2 * num < 2 * m * den + den)) :
    roundQuotient num den = m := by
  have hdiv := Nat.div_add_mod num den
  have hrest := Nat.mod_lt num hden
  unfold roundQuotient
  generalize num / den = q at hdiv ⊢
  generalize num % den = rest at hdiv hrest ⊢
  have hle : q ≤ m := by
    by_contra hlt
    have : den * (m + 1) ≤ den * q := Nat.mul_le_mul_left den (by omega)
    nlinarith
  have hge : m ≤ q + 1 := by
    by_contra hlt
    have : den * (q + 2) ≤ den * m := Nat.mul_le_mul_left den (by omega)
    nlinarith
  rcases Nat.lt_or_ge q m with hq | hq
  · have hm : m = q + 1 := by omega
    subst hm
    have hhalf : den ≤ 2 * rest := by nlinarith
    have htie : (q + 1) % 2 = 0 ∨ den < 2 * rest := by
      rcases heven with h | ⟨h, -⟩
      · exact Or.inl h
      · exact Or.inr (by nlinarith)
    dsimp only
    split <;> try omega
    split <;> try omega
    split <;> omega
  · have hm : m = q := by omega
    subst hm
    have hhalf : 2 * rest ≤ den := by nlinarith
    have htie : m % 2 = 0 ∨ 2 * rest < den := by
      rcases heven with h | ⟨-, h⟩
      · exact Or.inl h
      · exact Or.inr (by nlinarith)
    dsimp only
    split <;> try omega
    split <;> try omega
    split <;> omega

theorem inUnits_div (num den : Nat) (e : Int) :
    ((inUnits num den e).1 : ℚ) / (inUnits num den e).2 = (num : ℚ) / den / 2 ^ e := by
  rw [zpow_eq_div 2 e]
  simp only [inUnits, Nat.pow_eq]
  push_cast
  field_simp

/-- Rounding a quotient, with the half-way points told apart on the scale of rationals. -/
theorem roundQuotient_eq {num den m : Nat}
    (hden : 0 < den)
    (hlow : (m : ℚ) - 1 / 2 ≤ num / den)
    (hhigh : (num : ℚ) / den ≤ m + 1 / 2)
    (heven : m % 2 = 0 ∨ ((m : ℚ) - 1 / 2 < num / den ∧ (num : ℚ) / den < m + 1 / 2)) :
    roundQuotient num den = m := by
  have hpos : (0 : ℚ) < den := by exact_mod_cast hden
  rw [le_div_iff₀ hpos] at hlow
  rw [div_le_iff₀ hpos] at hhigh
  rw [lt_div_iff₀ hpos, div_lt_iff₀ hpos] at heven
  apply roundQuotient_eq_of_between hden
  · have h : 2 * (m : ℚ) * den ≤ 2 * num + den := by linarith
    exact_mod_cast h
  · have h : 2 * (num : ℚ) ≤ 2 * m * den + den := by linarith
    exact_mod_cast h
  · rcases heven with heven | ⟨hl, hh⟩
    · exact Or.inl heven
    · right
      constructor
      · have h : 2 * (m : ℚ) * den < 2 * num + den := by linarith
        exact_mod_cast h
      · have h : 2 * (num : ℚ) < 2 * m * den + den := by linarith
        exact_mod_cast h

/-! ## The unit of the significand -/

theorem inUnits_pos {den : Nat} (hden : 0 < den) (num : Nat) (e : Int) :
    0 < (inUnits num den e).2 :=
  Nat.mul_pos hden (Nat.pow_pos (by decide))

theorem log2_bounds {n : Nat} (hn : 0 < n) :
    (2 : ℚ) ^ (n.log2 : Int) ≤ n ∧ (n : ℚ) < 2 ^ ((n.log2 : Int) + 1) := by
  constructor
  · have h : 2 ^ n.log2 ≤ n := Nat.log2_self_le (by omega)
    rw [zpow_natCast]
    exact_mod_cast h
  · have h : n < 2 ^ (n.log2 + 1) := Nat.lt_log2_self
    have hcast : (n.log2 : Int) + 1 = ((n.log2 + 1 : Nat) : Int) := by omega
    rw [hcast, zpow_natCast]
    exact_mod_cast h

theorem quotient_bounds {num den : Nat} (hnum : 0 < num) (hden : 0 < den) :
    (2 : ℚ) ^ ((num.log2 : Int) - den.log2 - 1) < num / den ∧
      (num : ℚ) / den < 2 ^ ((num.log2 : Int) - den.log2 + 1) := by
  obtain ⟨hnl, hnh⟩ := log2_bounds hnum
  obtain ⟨hdl, hdh⟩ := log2_bounds hden
  have hpos : (0 : ℚ) < den := by exact_mod_cast hden
  have hpow : ∀ e : Int, (0 : ℚ) < 2 ^ e := fun e => zpow_pos (by norm_num) e
  constructor
  · rw [lt_div_iff₀ hpos]
    calc (2 : ℚ) ^ ((num.log2 : Int) - den.log2 - 1) * den
        < 2 ^ ((num.log2 : Int) - den.log2 - 1) * 2 ^ ((den.log2 : Int) + 1) :=
          mul_lt_mul_of_pos_left hdh (hpow _)
      _ = 2 ^ (num.log2 : Int) := by
          rw [← zpow_add₀ (by norm_num)]
          congr 1
          ring
      _ ≤ num := hnl
  · rw [div_lt_iff₀ hpos]
    calc (num : ℚ) < 2 ^ ((num.log2 : Int) + 1) := hnh
      _ = 2 ^ ((num.log2 : Int) - den.log2 + 1) * 2 ^ (den.log2 : Int) := by
          rw [← zpow_add₀ (by norm_num)]
          congr 1
          ring
      _ ≤ 2 ^ ((num.log2 : Int) - den.log2 + 1) * den :=
          mul_le_mul_of_nonneg_left hdl (hpow _).le

theorem two_zpow_add_nat (n : Nat) (e : Int) : (2 : ℚ) ^ n * 2 ^ e = 2 ^ ((n : Int) + e) := by
  rw [zpow_add₀ (by norm_num), zpow_natCast]

/-- The unit leaves less than 54 bits before the point, and 53 of them unless it is the least. -/
theorem unitExponent_spec {num den : Nat} (hnum : 0 < num) (hden : 0 < den) :
    -1074 ≤ unitExponent num den ∧
      (num : ℚ) / den < 2 ^ 53 * 2 ^ unitExponent num den ∧
      (2 ^ 52 * 2 ^ unitExponent num den ≤ (num : ℚ) / den ∨ unitExponent num den = -1074) := by
  obtain ⟨hlow, hhigh⟩ := quotient_bounds hnum hden
  have hmono : ∀ {a b : Int}, a ≤ b → (2 : ℚ) ^ a ≤ 2 ^ b := fun h =>
    zpow_le_zpow_right₀ (by norm_num) h
  set e : Int := (num.log2 : Int) - den.log2 - 52 with he
  set q : ℚ := (num : ℚ) / den with hq
  have hunits : ((inUnits num den e).1 : ℚ) / (inUnits num den e).2 = q / 2 ^ e :=
    inUnits_div num den e
  have hpos : (0 : ℚ) < (inUnits num den e).2 := by
    exact_mod_cast inUnits_pos hden num e
  have hpow : (0 : ℚ) < 2 ^ e := zpow_pos (by norm_num) e
  have htest : (inUnits num den e).1 / (inUnits num den e).2 < 2 ^ 52 ↔ q < 2 ^ 52 * 2 ^ e := by
    rw [Nat.div_lt_iff_lt_mul (inUnits_pos hden num e), ← div_lt_iff₀ hpow, ← hunits,
      div_lt_iff₀ hpos]
    exact_mod_cast Iff.rfl
  -- the exponent before it is cut off at the least one
  obtain ⟨f, hf, hfl, hfh⟩ : ∃ f : Int, unitExponent num den = max f (-1074) ∧
      2 ^ 52 * 2 ^ f ≤ q ∧ q < 2 ^ 53 * 2 ^ f := by
    by_cases hsmall : q < 2 ^ 52 * 2 ^ e
    · refine ⟨e - 1, ?_, ?_, ?_⟩
      · simp only [unitExponent, Nat.pow_eq, ← he]
        rw [if_pos (htest.2 hsmall)]
      · rw [two_zpow_add_nat]
        refine le_of_eq_of_le ?_ hlow.le
        congr 1
        omega
      · rw [two_zpow_add_nat] at hsmall ⊢
        refine lt_of_lt_of_le hsmall (hmono ?_)
        omega
    · refine ⟨e, ?_, not_lt.1 hsmall, ?_⟩
      · simp only [unitExponent, Nat.pow_eq, ← he]
        rw [if_neg (fun h => hsmall (htest.1 h))]
      · rw [two_zpow_add_nat]
        refine lt_of_lt_of_eq hhigh ?_
        congr 1
        omega
  rw [hf]
  refine ⟨le_max_right _ _, ?_, ?_⟩
  · refine lt_of_lt_of_le hfh ?_
    rw [two_zpow_add_nat, two_zpow_add_nat]
    exact hmono (by omega)
  · rcases Int.le_total (-1074) f with h | h
    · left
      rw [max_eq_left h]
      exact hfl
    · right
      exact max_eq_right h

/-! ## Rounding intervals -/

/-- How many quarters of the spacing above a number the interval reaches below it. -/
def Magnitude.quartersBelow (b : Magnitude) : Nat :=
  if b.narrowBelow then 1 else 2

/-- The rationals that round to a number.  An end of the interval belongs to it when the
significand is even. -/
structure Magnitude.Rounds (b : Magnitude) (q : ℚ) : Prop where
  low : ((b.significand : ℚ) - b.quartersBelow / 4) * 2 ^ b.exponent ≤ q
  high : q ≤ ((b.significand : ℚ) + 1 / 2) * 2 ^ b.exponent
  inside : b.significand % 2 = 0 ∨
    (((b.significand : ℚ) - b.quartersBelow / 4) * 2 ^ b.exponent < q ∧
      q < ((b.significand : ℚ) + 1 / 2) * 2 ^ b.exponent)

theorem quartersBelow_le (b : Magnitude) : b.quartersBelow ≤ 2 := by
  unfold Magnitude.quartersBelow
  split <;> omega

theorem quarter_pos (b : Magnitude) (k : Int) : 0 < quarter b k :=
  Nat.mul_pos (Nat.pow_pos (by decide)) (Nat.pow_pos (by decide))

/-- `quarter` and `gridUnit` count a quarter of the spacing and a step of the grid in one unit. -/
theorem gridUnit_scale (b : Magnitude) (k : Int) :
    (gridUnit b k : ℚ) * 2 ^ (b.exponent - 2) = quarter b k * 10 ^ k := by
  rw [zpow_eq_div 2 (b.exponent - 2), zpow_eq_div 10 k, Int.neg_sub]
  simp only [gridUnit, quarter, Nat.pow_eq]
  push_cast
  field_simp

theorem decimalValue_mul_quarter (b : Magnitude) (k : Int) (d : Nat) :
    decimalValue d k * quarter b k = d * gridUnit b k * (2 ^ b.exponent / 4) := by
  have hscale := gridUnit_scale b k
  have hsplit : (2 : ℚ) ^ (b.exponent - 2) = 2 ^ b.exponent / 4 := by
    rw [zpow_sub₀ (by norm_num)]
    norm_num
  rw [hsplit] at hscale
  unfold decimalValue
  calc (d : ℚ) * 10 ^ k * quarter b k = d * (quarter b k * 10 ^ k) := by ring
    _ = d * gridUnit b k * (2 ^ b.exponent / 4) := by rw [← hscale]; ring

theorem rounds_of_roundsTo {b : Magnitude} {k : Int} {d : Nat}
    (hpos : 0 < b.significand)
    (h : roundsTo b k d = true) :
    b.Rounds (decimalValue d k) := by
  have hq : (0 : ℚ) < quarter b k := by exact_mod_cast quarter_pos b k
  have hu : (0 : ℚ) < 2 ^ b.exponent / 4 :=
    div_pos (zpow_pos (by norm_num) _) (by norm_num)
  have hval := decimalValue_mul_quarter b k d
  have hbelow := quartersBelow_le b
  -- the two comparisons of the test, on the rational scale
  have hlow : ∀ {r : ℚ → ℚ → Prop}, (∀ x y c : ℚ, 0 < c → (r (x * c) (y * c) ↔ r x y)) →
      r ((4 * b.significand - b.quartersBelow : Nat) * quarter b k : ℚ) (d * gridUnit b k) →
      r (((b.significand : ℚ) - b.quartersBelow / 4) * 2 ^ b.exponent) (decimalValue d k) := by
    intro r hr h
    rw [← hr _ _ _ hu, ← hval] at h
    rw [← hr _ _ _ hq]
    have hcast : ((4 * b.significand - b.quartersBelow : Nat) : ℚ) =
        4 * b.significand - b.quartersBelow := by
      rw [Nat.cast_sub (by omega)]
      push_cast
      ring
    rw [hcast] at h
    convert h using 1
    ring
  have hhigh : ∀ {r : ℚ → ℚ → Prop}, (∀ x y c : ℚ, 0 < c → (r (x * c) (y * c) ↔ r x y)) →
      r (d * gridUnit b k) ((4 * b.significand + 2 : Nat) * quarter b k : ℚ) →
      r (decimalValue d k) (((b.significand : ℚ) + 1 / 2) * 2 ^ b.exponent) := by
    intro r hr h
    rw [← hr _ _ _ hu, ← hval] at h
    rw [← hr _ _ _ hq]
    convert h using 1
    push_cast
    ring
  have hle : ∀ x y c : ℚ, 0 < c → (x * c ≤ y * c ↔ x ≤ y) := fun x y c hc =>
    mul_le_mul_iff_left₀ hc
  have hlt : ∀ x y c : ℚ, 0 < c → (x * c < y * c ↔ x < y) := fun x y c hc =>
    mul_lt_mul_iff_left₀ hc
  have hdef : (4 * b.significand - if b.narrowBelow then 1 else 2) =
      4 * b.significand - b.quartersBelow := rfl
  simp only [roundsTo, hdef] at h
  split at h
  · rename_i heven
    simp only [Bool.and_eq_true, decide_eq_true_eq] at h
    refine ⟨hlow hle ?_, hhigh hle ?_, Or.inl heven⟩
    · exact_mod_cast h.1
    · exact_mod_cast h.2
  · simp only [Bool.and_eq_true, decide_eq_true_eq] at h
    have hl : ((b.significand : ℚ) - b.quartersBelow / 4) * 2 ^ b.exponent < decimalValue d k :=
      hlow hlt (by exact_mod_cast h.1)
    have hh : decimalValue d k < ((b.significand : ℚ) + 1 / 2) * 2 ^ b.exponent :=
      hhigh hlt (by exact_mod_cast h.2)
    exact ⟨hl.le, hh.le, Or.inr ⟨hl, hh⟩⟩

/-! ## Reading a decimal of the interval -/

/-- A significand rounded up to `2 ^ 53` encodes the first number of the next binade. -/
theorem encode_carry {e : Int} (he : -1074 ≤ e) :
    encode (2 ^ 53) e = encode (2 ^ 52) (e + 1) := by
  have hsucc : (e + 1 + 1074).toNat = (e + 1074).toNat + 1 := by omega
  simp only [encode, Nat.pow_eq, hsucc]
  omega

theorem roundQuotient_inUnits {num den m : Nat} {e : Int} {q : ℚ}
    (hden : 0 < den)
    (hq : (num : ℚ) / den = q)
    (hlow : ((m : ℚ) - 1 / 2) * 2 ^ e ≤ q)
    (hhigh : q ≤ ((m : ℚ) + 1 / 2) * 2 ^ e)
    (heven : m % 2 = 0 ∨ (((m : ℚ) - 1 / 2) * 2 ^ e < q ∧ q < ((m : ℚ) + 1 / 2) * 2 ^ e)) :
    roundQuotient (inUnits num den e).1 (inUnits num den e).2 = m := by
  have hpow : (0 : ℚ) < 2 ^ e := zpow_pos (by norm_num) e
  have hunits := inUnits_div num den e
  rw [hq] at hunits
  apply roundQuotient_eq (inUnits_pos hden num e)
  · rw [hunits, le_div_iff₀ hpow]
    exact hlow
  · rw [hunits, div_le_iff₀ hpow]
    exact hhigh
  · rw [hunits, lt_div_iff₀ hpow, div_lt_iff₀ hpow]
    exact heven

/-- Every rational in the rounding interval of a number is read as that number. -/
theorem nearestBits_of_rounds {b : Magnitude} {num den : Nat}
    (hb : b.Canonical)
    (hnum : 0 < num)
    (hden : 0 < den)
    (h : b.Rounds ((num : ℚ) / den)) :
    nearestBits num den = min (encode b.significand b.exponent) infinityBits := by
  obtain ⟨hE, hEhigh, hElow⟩ := unitExponent_spec hnum hden
  obtain ⟨hlow, hhigh, hinside⟩ := h
  have hbelow : (b.quartersBelow : ℚ) ≤ 2 := by exact_mod_cast quartersBelow_le b
  have hsig : ((b.significand : ℚ) + 1) ≤ 2 ^ 53 := by exact_mod_cast hb.significand_lt
  have hpow : ∀ e : Int, (0 : ℚ) < 2 ^ e := fun e => zpow_pos (by norm_num) e
  have hmono : ∀ {a b : Int}, a ≤ b → (2 : ℚ) ^ a ≤ 2 ^ b := fun h =>
    zpow_le_zpow_right₀ (by norm_num) h
  suffices hround : encode (roundQuotient (inUnits num den (unitExponent num den)).1
      (inUnits num den (unitExponent num den)).2) (unitExponent num den) =
      encode b.significand b.exponent by
    unfold nearestBits
    rw [if_neg (by omega)]
    exact congrArg (min · infinityBits) hround
  generalize unitExponent num den = e at hE hEhigh hElow ⊢
  generalize hq : (num : ℚ) / den = q at hlow hhigh hinside hEhigh hElow
  rcases lt_trichotomy e b.exponent with hlt | heq | hgt
  · -- only the lower end of a binade has an interval that reaches below the binade
    have hup : q < 2 ^ 52 * 2 ^ b.exponent := by
      calc q < 2 ^ 53 * 2 ^ e := hEhigh
        _ = 2 ^ 52 * 2 ^ (e + 1) := by rw [two_zpow_add_nat, two_zpow_add_nat]; congr 1; omega
        _ ≤ 2 ^ 52 * 2 ^ b.exponent :=
          mul_le_mul_of_nonneg_left (hmono (by omega)) (by norm_num)
    have hnormal : 2 ^ 52 ≤ b.significand := by
      rcases hb.normal with h | h
      · exact h
      · omega
    have hsmall : (b.significand : ℚ) - b.quartersBelow / 4 < 2 ^ 52 :=
      lt_of_mul_lt_mul_right (lt_of_le_of_lt hlow hup) (hpow _).le
    have hedge : b.significand = 2 ^ 52 := by
      have hlt : (b.significand : ℚ) < 2 ^ 52 + 1 := by linarith
      have : b.significand < 2 ^ 52 + 1 := by exact_mod_cast hlt
      omega
    have hnarrow : b.quartersBelow = 1 := by
      unfold Magnitude.quartersBelow
      rw [if_pos (hb.narrow_iff.2 ⟨hedge, by omega⟩)]
    rw [hnarrow, hedge] at hlow
    have hhalf : ((2 : ℚ) ^ 53 - 1 / 2) * 2 ^ (b.exponent - 1) ≤ q := by
      have hsplit : (2 : ℚ) ^ b.exponent = 2 * 2 ^ (b.exponent - 1) := by
        rw [← zpow_one_add₀ (by norm_num)]
        congr 1
        omega
      rw [hsplit] at hlow
      push_cast at hlow
      linarith
    have hprev : e = b.exponent - 1 := by
      by_contra hne
      have hle : (2 : ℚ) ^ e * 2 ≤ 2 ^ (b.exponent - 1) := by
        rw [← zpow_add_one₀ (by norm_num)]
        exact hmono (by omega)
      have := hpow e
      linarith
    subst hprev
    have hround : roundQuotient (inUnits num den (b.exponent - 1)).1
        (inUnits num den (b.exponent - 1)).2 = 2 ^ 53 := by
      apply roundQuotient_inUnits hden hq
      · push_cast
        exact hhalf
      · have := hpow (b.exponent - 1)
        push_cast
        linarith
      · exact Or.inl (by decide)
    rw [hround, encode_carry hE, hedge, Int.sub_add_cancel]
  · subst heq
    have := hpow b.exponent
    have hhalf : ((b.significand : ℚ) - 1 / 2) * 2 ^ b.exponent ≤
        ((b.significand : ℚ) - b.quartersBelow / 4) * 2 ^ b.exponent :=
      mul_le_mul_of_nonneg_right (by linarith) this.le
    congr 1
    apply roundQuotient_inUnits hden hq (hhalf.trans hlow) hhigh
    rcases hinside with h | ⟨hl, hh⟩
    · exact Or.inl h
    · exact Or.inr ⟨lt_of_le_of_lt hhalf hl, hh⟩
  · -- the interval ends below the next binade
    exfalso
    have hnext : (2 : ℚ) ^ 53 * 2 ^ b.exponent ≤ q := by
      rcases hElow with h | h
      · calc (2 : ℚ) ^ 53 * 2 ^ b.exponent = 2 ^ 52 * 2 ^ (b.exponent + 1) := by
              rw [two_zpow_add_nat, two_zpow_add_nat]; congr 1; omega
          _ ≤ 2 ^ 52 * 2 ^ e := mul_le_mul_of_nonneg_left (hmono (by omega)) (by norm_num)
          _ ≤ q := h
      · have := hb.exponent_ge
        omega
    have := hpow b.exponent
    have : (2 : ℚ) ^ 53 ≤ (b.significand : ℚ) + 1 / 2 :=
      le_of_mul_le_mul_right (hnext.trans hhigh) this
    linarith

end Provision.Decimal

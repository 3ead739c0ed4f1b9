import Provision.Proofs.Decimal.Rounding

/-!
# The shortest decimal reads back

The search for the shortest decimal goes to finer grids until one has a point in
the rounding interval.  After twenty-three refinements the step of the grid is
below a quarter of the spacing of the numbers, so the search never runs out, and
what it finds is read as the number it was found for.
-/

namespace Provision.Decimal

theorem roundsTo_of_onGrid? {tie : Tie} {b : Magnitude} {k : Int} {d : Nat}
    (h : onGrid? tie b k = some d) :
    roundsTo b k d = true := by
  simp only [onGrid?] at h
  split at h
  · cases h
  · cases h
    assumption
  · cases h
    assumption
  · rename_i hbelow habove
    split at h
    · cases h
      exact hbelow
    · split at h
      · cases h
        exact habove
      · cases tie with
        | up =>
          cases h
          exact habove
        | even =>
          cases h
          split
          · exact hbelow
          · exact habove

/-- A grid whose step is at most a quarter of the spacing has a point in the interval. -/
theorem onGrid?_ne_none {tie : Tie} {b : Magnitude} {k : Int}
    (hpos : 0 < b.significand)
    (hfine : gridUnit b k ≤ quarter b k) :
    onGrid? tie b k ≠ none := by
  have hunit : 0 < gridUnit b k :=
    Nat.mul_pos (Nat.pow_pos (by decide)) (Nat.pow_pos (by decide))
  have hround : roundsTo b k (4 * b.significand * quarter b k / gridUnit b k) = true := by
    have hdiv := Nat.div_add_mod (4 * b.significand * quarter b k) (gridUnit b k)
    have hmod := Nat.mod_lt (4 * b.significand * quarter b k) hunit
    have hlow : (4 * b.significand - if b.narrowBelow then 1 else 2) * quarter b k +
        quarter b k ≤ 4 * b.significand * quarter b k := by
      rw [← Nat.succ_mul]
      apply Nat.mul_le_mul_right
      split <;> omega
    have hhigh : (4 * b.significand + 2) * quarter b k =
        4 * b.significand * quarter b k + 2 * quarter b k := Nat.add_mul _ _ _
    have hq := quarter_pos b k
    have hcomm := Nat.mul_comm (gridUnit b k) (4 * b.significand * quarter b k / gridUnit b k)
    simp only [roundsTo]
    split
    · simp only [Bool.and_eq_true, decide_eq_true_eq]
      omega
    · simp only [Bool.and_eq_true, decide_eq_true_eq]
      omega
  intro hnone
  simp only [onGrid?, hround] at hnone
  cases hnext : roundsTo b k (4 * b.significand * quarter b k / gridUnit b k + 1) with
  | false => simp [hnext] at hnone
  | true =>
    simp only [hnext] at hnone
    split at hnone
    · cases hnone
    · split at hnone
      · cases hnone
      · cases tie <;> cases hnone

theorem roundsTo_searchGrids {tie : Tie} {b : Magnitude}
    (hpos : 0 < b.significand)
    (steps : Nat) (k : Int) (i : Nat)
    (hi : i < steps)
    (hfine : gridUnit b (k - i) ≤ quarter b (k - i)) :
    roundsTo b (searchGrids tie b steps k).exponent (searchGrids tie b steps k).significand =
      true := by
  induction steps generalizing k i with
  | zero => omega
  | succ steps ih =>
    unfold searchGrids
    split
    · rename_i d hd
      exact roundsTo_of_onGrid? hd
    · rename_i hnone
      cases i with
      | zero =>
        rw [Int.natCast_zero, Int.sub_zero] at hfine
        exact absurd hnone (onGrid?_ne_none hpos hfine)
      | succ i =>
        apply ih (k - 1) i (by omega)
        have hplace : k - 1 - (i : Int) = k - ((i + 1 : Nat) : Int) := by omega
        rw [hplace]
        exact hfine

/-! ## The last grid is fine enough -/

theorem ten_pow_le_two_pow {k g : Nat} (h : 10 * k ≤ 3 * g) : 10 ^ k ≤ 2 ^ g := by
  rw [← Nat.pow_le_pow_iff_left (n := 10) (by decide)]
  calc (10 ^ k) ^ 10 = 10 ^ (10 * k) := by rw [← Nat.pow_mul, Nat.mul_comm]
    _ ≤ 10 ^ (3 * g) := Nat.pow_le_pow_right (by decide) h
    _ = (10 ^ 3) ^ g := Nat.pow_mul _ _ _
    _ ≤ (2 ^ 10) ^ g := Nat.pow_le_pow_left (by decide) g
    _ = (2 ^ g) ^ 10 := by rw [← Nat.pow_mul, ← Nat.pow_mul, Nat.mul_comm]

theorem two_pow_le_ten_pow {f j : Nat} (h : 28 * f ≤ 93 * j) : 2 ^ f ≤ 10 ^ j := by
  rw [← Nat.pow_le_pow_iff_left (n := 93) (by decide)]
  calc (2 ^ f) ^ 93 = (2 ^ 93) ^ f := by rw [← Nat.pow_mul, ← Nat.pow_mul, Nat.mul_comm]
    _ ≤ (10 ^ 28) ^ f := Nat.pow_le_pow_left (by decide) f
    _ = 10 ^ (28 * f) := (Nat.pow_mul _ _ _).symm
    _ ≤ 10 ^ (93 * j) := Nat.pow_le_pow_right (by decide) h
    _ = (10 ^ j) ^ 93 := by rw [← Nat.pow_mul, Nat.mul_comm]

theorem gridUnit_le_quarter {b : Magnitude} (hb : b.Canonical) (hpos : 0 < b.significand) :
    gridUnit b (coarseGrid b - 23) ≤ quarter b (coarseGrid b - 23) := by
  have hlog : b.significand.log2 < 53 := (Nat.log2_lt (by omega)).2 hb.significand_lt
  have hge := hb.exponent_ge
  have hle := hb.exponent_le
  have hk : coarseGrid b - 23 ≤ (b.exponent + 54) * 30103 / 100000 - 22 := by
    unfold coarseGrid
    omega
  generalize coarseGrid b - 23 = k at hk ⊢
  simp only [gridUnit, quarter, Nat.pow_eq]
  rcases Int.le_total 0 k with h | h
  · have hneg : (-k).toNat = 0 := by omega
    have htwo : (2 - b.exponent).toNat = 0 := by omega
    rw [hneg, htwo, pow_zero, pow_zero, Nat.one_mul, Nat.mul_one]
    exact ten_pow_le_two_pow (by omega)
  · have hten : k.toNat = 0 := by omega
    rw [hten, pow_zero, Nat.mul_one]
    calc 2 ^ (2 - b.exponent).toNat ≤ 10 ^ (-k).toNat := two_pow_le_ten_pow (by omega)
      _ ≤ 2 ^ (b.exponent - 2).toNat * 10 ^ (-k).toNat :=
        Nat.le_mul_of_pos_left _ (Nat.pow_pos (by decide))

theorem roundsTo_shortest (tie : Tie) {b : Magnitude}
    (hb : b.Canonical)
    (hpos : 0 < b.significand) :
    roundsTo b (shortest tie b).exponent (shortest tie b).significand = true := by
  unfold shortest
  rw [if_neg (by omega)]
  exact roundsTo_searchGrids hpos 24 (coarseGrid b) 23 (by decide) (gridUnit_le_quarter hb hpos)

/-! ## Reading it back -/

theorem decimalValue_eq_div (d : Nat) (k : Int) :
    ((d * 10 ^ k.toNat : Nat) : ℚ) / (10 ^ (-k).toNat : Nat) = decimalValue d k := by
  unfold decimalValue
  rw [zpow_eq_div 10 k]
  push_cast
  ring

theorem significand_pos_of_rounds {b : Magnitude} {d : Nat} {k : Int}
    (hpos : 0 < b.significand)
    (h : b.Rounds (decimalValue d k)) :
    0 < d := by
  rcases Nat.eq_zero_or_pos d with hd | hd
  · exfalso
    have hlow := h.low
    have hbelow : (b.quartersBelow : ℚ) ≤ 2 := by exact_mod_cast quartersBelow_le b
    have hone : (1 : ℚ) ≤ b.significand := by exact_mod_cast hpos
    have hpow : (0 : ℚ) < 2 ^ b.exponent := zpow_pos (by norm_num) _
    have hprod : (0 : ℚ) < ((b.significand : ℚ) - b.quartersBelow / 4) * 2 ^ b.exponent :=
      mul_pos (by linarith) hpow
    rw [hd, decimalValue, Nat.cast_zero, zero_mul] at hlow
    linarith
  · exact hd

theorem nearestBits_shortest {x : Float} (tie : Tie) (hx : isFinite x = true) :
    nearestBits
        ((shortest tie (magnitude x)).significand *
          10 ^ (shortest tie (magnitude x)).exponent.toNat)
        (10 ^ (-(shortest tie (magnitude x)).exponent).toNat) =
      encode (magnitude x).significand (magnitude x).exponent := by
  have hb := magnitude_canonical hx
  rcases Nat.eq_zero_or_pos (magnitude x).significand with hzero | hpos
  · have hleast : (magnitude x).exponent = -1074 := by
      rcases hb.normal with h | h
      · omega
      · exact h
    simp [shortest, hzero, hleast, nearestBits, encode]
  · have hrounds := rounds_of_roundsTo hpos (roundsTo_shortest tie hb hpos)
    generalize shortest tie (magnitude x) = digits at hrounds ⊢
    have hd := significand_pos_of_rounds hpos hrounds
    rw [← decimalValue_eq_div] at hrounds
    rw [nearestBits_of_rounds hb (Nat.mul_pos hd (Nat.pow_pos (by decide)))
      (Nat.pow_pos (by decide)) hrounds]
    exact min_eq_left (encode_magnitude_lt hx).le

/-- Every finite number is the nearest one to its shortest decimal. -/
theorem ofDecimal_shortest {x : Float} (tie : Tie) (hx : isFinite x = true) :
    ofDecimal (isNegative x) (shortest tie (magnitude x)).significand
      (shortest tie (magnitude x)).exponent = x := by
  have hbits := toNat_toBits x
  simp only [ofDecimal, Nat.pow_eq]
  rw [nearestBits_shortest tie hx]
  have hsum : (if isNegative x = true then
      2 ^ 63 + encode (magnitude x).significand (magnitude x).exponent
      else encode (magnitude x).significand (magnitude x).exponent) = x.toBits.toNat := by
    rw [hbits]
    split
    · rfl
    · omega
  rw [hsum, UInt64.ofNat_toNat, ofBits_toBits]

end Provision.Decimal

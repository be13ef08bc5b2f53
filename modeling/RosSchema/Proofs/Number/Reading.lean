import RosSchema.Proofs.Number.Nearest

/-!
# Reading decimals

A decimal in the interval of a finite number is read as the number, whatever its mantissa and exponent
are: the two sizes at which the reader stops early lie outside of all intervals.
-/

namespace RosSchema

/-- Every finite number is too large to be read as zero for its size alone. -/
theorem ten_pow_lt_two_pow : (10 : ℚ) ^ (-324 : Int) < 2 ^ (-1075 : Int) := by
  have h : (2 : Nat) ^ 1075 < 10 ^ 324 := by decide +kernel
  have hq : (2 : ℚ) ^ 1075 < 10 ^ 324 := by exact_mod_cast h
  have hten : (10 : ℚ) ^ (-324 : Int) = (10 ^ 324)⁻¹ := by rw [zpow_neg]; rfl
  have htwo : (2 : ℚ) ^ (-1075 : Int) = (2 ^ 1075)⁻¹ := by rw [zpow_neg]; rfl
  rw [hten, htwo]
  exact inv_strictAnti₀ (by positivity) hq

/-- No finite number is so large that it is read as infinity for its size alone. -/
theorem two_pow_lt_ten_pow : (2 : ℚ) ^ (1024 : Int) < 10 ^ (309 : Int) := by
  have h : (2 : Nat) ^ 1024 < 10 ^ 309 := by decide +kernel
  have hq : (2 : ℚ) ^ 1024 < 10 ^ 309 := by exact_mod_cast h
  exact_mod_cast hq

namespace Interval

/-- The interval of a finite number lies between the sizes at which reading stops early. -/
theorem Contains.bounds {x : Binary64} (hfinite : x.isFinite = true) (hzero : x.isZero = false) {r : ℚ}
    (h : (ofBinary x.significand x.exponent).Contains r) :
    (10 : ℚ) ^ (-324 : Int) < r ∧ r < 10 ^ (309 : Int) := by
  have hcode : x.code.val ≠ 0 := by simpa [Binary64.isZero] using hzero
  have hlt : x.code.val < Binary64.infinityCode := by simpa [Binary64.isFinite] using hfinite
  have hparts := x.parts
  have hpow : Nat.pow 2 52 = 4503599627370496 := rfl
  have hpow' : Nat.pow 2 53 = 9007199254740992 := rfl
  rw [hpow, hpow'] at hparts
  rw [Binary64.infinityCode, hpow] at hlt
  have hpos : 0 < x.significand := by omega
  have hq : -1074 ≤ x.exponent ∧ x.exponent ≤ 971 := by omega
  have hm : x.significand < 9007199254740992 := by omega
  obtain ⟨hlow, hhigh, -⟩ := h.scaled hpos
  have hp : (0 : ℚ) < 2 ^ x.exponent := by positivity
  rw [le_div_iff₀ hp] at hlow
  rw [div_le_iff₀ hp] at hhigh
  constructor
  · calc (10 : ℚ) ^ (-324 : Int) < 2 ^ (-1075 : Int) := ten_pow_lt_two_pow
      _ = 1 / 2 * 2 ^ (-1074 : Int) := by
        rw [show (-1075 : Int) = -1 + -1074 by norm_num, zpow_add₀ (by norm_num)]
        norm_num
      _ ≤ 1 / 2 * 2 ^ x.exponent := by
        have : (2 : ℚ) ^ (-1074 : Int) ≤ 2 ^ x.exponent := zpow_le_zpow_right₀ (by norm_num) hq.1
        linarith
      _ ≤ (x.significand - quartersBelow x.significand x.exponent / 4) * 2 ^ x.exponent := by
        have hone : (1 : ℚ) ≤ x.significand := by exact_mod_cast hpos
        have hquarters : (quartersBelow x.significand x.exponent : ℚ) ≤ 2 := by
          unfold quartersBelow
          split <;> norm_num
        gcongr
        linarith
      _ ≤ r := hlow
  · calc r ≤ (x.significand + 1 / 2) * 2 ^ x.exponent := hhigh
      _ < 9007199254740992 * 2 ^ x.exponent := by
        have : (x.significand : ℚ) + 1 ≤ 9007199254740992 := by exact_mod_cast hm
        gcongr
        linarith
      _ ≤ 9007199254740992 * 2 ^ (971 : Int) := by
        have : (2 : ℚ) ^ x.exponent ≤ 2 ^ (971 : Int) := zpow_le_zpow_right₀ (by norm_num) hq.2
        gcongr
      _ = 2 ^ (1024 : Int) := by
        rw [show (1024 : Int) = 53 + 971 by norm_num, zpow_add₀ (by norm_num)]
        norm_num
      _ < 10 ^ (309 : Int) := two_pow_lt_ten_pow

end Interval

namespace Decimal

def magnitude (x : Decimal) : ℚ := x.mantissa * 10 ^ x.exponent

/-- The number of digits before the point bounds a magnitude from both sides. -/
theorem magnitude_bounds {x : Decimal} (h : 0 < x.mantissa) :
    (10 : ℚ) ^ ((Nat.toDigits 10 x.mantissa).length + x.exponent - 1) ≤ x.magnitude ∧
      x.magnitude < 10 ^ ((Nat.toDigits 10 x.mantissa).length + x.exponent) := by
  obtain ⟨h1, h2⟩ := pow_length_toDigits (b := 10) (by decide) h
  rw [Nat.cast_ofNat] at h1 h2
  have hp : (0 : ℚ) < 10 ^ x.exponent := by positivity
  constructor
  · calc (10 : ℚ) ^ ((Nat.toDigits 10 x.mantissa).length + x.exponent - 1)
        = 10 ^ (((Nat.toDigits 10 x.mantissa).length : Int) - 1) * 10 ^ x.exponent := by
          rw [← zpow_add₀ (by norm_num)]
          congr 1
          omega
      _ ≤ x.magnitude := mul_le_mul_of_nonneg_right h1 hp.le
  · calc x.magnitude < 10 ^ ((Nat.toDigits 10 x.mantissa).length : Int) * 10 ^ x.exponent :=
          mul_lt_mul_of_pos_right h2 hp
      _ = 10 ^ ((Nat.toDigits 10 x.mantissa).length + x.exponent) := by
          rw [← zpow_add₀ (by norm_num)]

/-- The quotient that is rounded has the magnitude of the decimal. -/
theorem div_scaleDown_mantissa (d : Decimal) :
    ((scaleDown 10 (-d.exponent) d.mantissa 1).1 : ℚ) / (scaleDown 10 (-d.exponent) d.mantissa 1).2 =
      d.magnitude := by
  rw [div_scaleDown (by decide), magnitude]
  simp

/-- A decimal in the interval of a finite number is read as the number. -/
theorem toBinary64_of_contains {x : Binary64} (hfinite : x.isFinite = true) (hzero : x.isZero = false)
    {d : Decimal} (h : (Interval.ofBinary x.significand x.exponent).Contains d.magnitude) :
    d.toBinary64 = ⟨d.negative, x.code⟩ := by
  obtain ⟨hlow, hhigh⟩ := h.bounds hfinite hzero
  have hmantissa : 0 < d.mantissa := by
    by_contra hm
    have hm : d.mantissa = 0 := by omega
    have hpos : (0 : ℚ) < 10 ^ (-324 : Int) := by positivity
    rw [magnitude, hm, Nat.cast_zero, zero_mul] at hlow
    exact absurd hlow hpos.le.not_gt
  obtain ⟨h1, h2⟩ := magnitude_bounds hmantissa
  obtain ⟨size, hsize⟩ : ∃ s : Int, s = (Nat.toDigits 10 d.mantissa).length + d.exponent := ⟨_, rfl⟩
  rw [← hsize] at h1 h2
  have hten : (1 : ℚ) < 10 := by norm_num
  have hleast : -324 < size := (zpow_lt_zpow_iff_right₀ hten).1 (hlow.trans h2)
  have hgreatest : size < 310 := by
    have := (zpow_lt_zpow_iff_right₀ hten).1 (h1.trans_lt hhigh)
    omega
  have hpos := scaleDown_pos (b := 10) (by decide) hmantissa Nat.one_pos (-d.exponent)
  rw [← d.div_scaleDown_mantissa] at h
  rw [toBinary64, ← hsize, if_neg (by simp; omega), if_neg (by omega)]
  exact Binary64.nearest_of_contains hfinite hzero hpos.1 hpos.2 h d.negative

/-- Zero is read as zero. -/
theorem toBinary64_of_mantissa_eq_zero {d : Decimal} (h : d.mantissa = 0) :
    d.toBinary64 = .zero d.negative := by
  simp [toBinary64, h]

/-- Taking zeros off the end keeps the magnitude. -/
theorem magnitude_dropZeros (limit mantissa : Nat) (exponent : Int) (negative : Bool) :
    magnitude ⟨negative, (dropZeros limit mantissa exponent).1, (dropZeros limit mantissa exponent).2⟩ =
      mantissa * 10 ^ exponent := by
  induction limit generalizing mantissa exponent with
  | zero => rfl
  | succ limit ih =>
    rw [dropZeros]
    split
    · next h =>
      simp only [Bool.and_eq_true, decide_eq_true_eq] at h
      obtain ⟨k, rfl⟩ : 10 ∣ mantissa := Nat.dvd_of_mod_eq_zero h.1
      rw [ih, Nat.mul_div_cancel_left k (by decide), zpow_add₀ (by norm_num)]
      push_cast
      ring
    · rfl

end Decimal

end RosSchema

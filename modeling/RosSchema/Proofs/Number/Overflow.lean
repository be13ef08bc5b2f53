import RosSchema.Proofs.Number.Reading

/-!
# Magnitudes that are read as infinite

A magnitude is read as a finite number below the middle between the greatest finite number and the power of
two after that, and as infinity from there on: in the middle the even neighbour is the power of two, for
which there is no finite number.
-/

namespace RosSchema

/-- An even integer is above the rounded quotient when it is more than a half above the quotient. -/
theorem roundHalfEven_lt_iff {num den k : Nat} (hden : 0 < den) (heven : k % 2 = 0) :
    roundHalfEven num den < k ↔ (num : ℚ) / den < k - 1 / 2 := by
  have hd : (0 : ℚ) < den := by exact_mod_cast hden
  have hcast : (num : ℚ) / den < k - 1 / 2 ↔ 2 * num + den < 2 * k * den := by
    rw [div_lt_iff₀ hd, ← Nat.cast_lt (α := ℚ)]
    push_cast
    constructor <;> intro h <;> linarith
  obtain ⟨whole, hwhole⟩ : ∃ w, w = num / den := ⟨_, rfl⟩
  obtain ⟨part, hpart⟩ : ∃ r, r = num % den := ⟨_, rfl⟩
  have hnum : num = den * whole + part := by rw [hwhole, hpart, Nat.div_add_mod]
  have hlt : part < den := hpart ▸ Nat.mod_lt _ hden
  rw [hcast, roundHalfEven, ← hwhole, ← hpart, hnum]
  simp only [Bool.or_eq_true, decide_eq_true_eq, Bool.and_eq_true, beq_iff_eq]
  split
  · next hup =>
    constructor
    · intro h
      have : (whole + 2) * den ≤ k * den := Nat.mul_le_mul_right den h
      nlinarith
    · intro h
      by_contra hle
      have : k * den ≤ (whole + 1) * den := Nat.mul_le_mul_right den (by omega)
      have : den ≤ 2 * part := by omega
      nlinarith
  · next hdown =>
    constructor
    · intro h
      rcases Nat.lt_or_ge (2 * part) den with hless | hhalf
      · have : (whole + 1) * den ≤ k * den := Nat.mul_le_mul_right den h
        nlinarith
      · -- a half is left over, and the integer below is even
        have : (whole + 2) * den ≤ k * den := Nat.mul_le_mul_right den (by omega)
        nlinarith
    · intro h
      by_contra hle
      have : k * den ≤ whole * den := Nat.mul_le_mul_right den (by omega)
      nlinarith

namespace Binary64

/-- The middle between the greatest finite number, `(2 ^ 53 - 1) * 2 ^ 971`, and the power of two after it. -/
def overflow : ℚ := (2 ^ 53 - 1 / 2) * 2 ^ (971 : Int)

theorem overflow_bounds : (2 : ℚ) ^ (1023 : Int) < overflow ∧ overflow < 2 ^ (1024 : Int) := by
  have hunit : (0 : ℚ) < 2 ^ (971 : Int) := by positivity
  have hsplit (k : Int) : (2 : ℚ) ^ (k + 971) = 2 ^ k * 2 ^ (971 : Int) := zpow_add₀ (by norm_num) k 971
  have hbelow := hsplit 52
  have habove := hsplit 53
  norm_num only at hbelow habove
  rw [hbelow, habove, overflow]
  exact ⟨mul_lt_mul_of_pos_right (by norm_num) hunit, mul_lt_mul_of_pos_right (by norm_num) hunit⟩

theorem overflow_pos : 0 < overflow := lt_trans (by positivity) overflow_bounds.1

theorem isFinite_ofCode_iff (negative : Bool) (code : Nat) :
    (ofCode negative code).isFinite = true ↔ code < infinityCode := by
  rw [isFinite, ofCode, decide_eq_true_eq]
  exact ⟨fun h => (min_lt_iff.1 h).resolve_right (lt_irrefl _), fun h => min_lt_of_left_lt h⟩

/-- A quotient is below a power of two when its leading power is. -/
theorem lt_two_pow_iff {num den : Nat} (hnum : 0 < num) (hden : 0 < den) (power : Int) :
    (num : ℚ) / den < 2 ^ power ↔ leadingPower 2 num den < power := by
  obtain ⟨hlow, hhigh⟩ := leadingPower_spec (b := 2) (by decide) hnum hden
  rw [Nat.cast_ofNat] at hlow hhigh
  constructor
  · intro h
    exact (zpow_lt_zpow_iff_right₀ (by norm_num)).1 (hlow.trans_lt h)
  · intro h
    exact hhigh.trans_le (zpow_le_zpow_right₀ (by norm_num) (by omega))

/-- The nearest number to a quotient is finite below the middle. -/
theorem isFinite_nearest_iff {num den : Nat} (hnum : 0 < num) (hden : 0 < den) (negative : Bool) :
    (nearest negative num den).isFinite = true ↔ (num : ℚ) / den < overflow := by
  obtain ⟨power, hpower⟩ : ∃ p, p = leadingPower 2 num den := ⟨_, rfl⟩
  obtain ⟨q, hq⟩ : ∃ q, q = max (power - 52) (-1074) := ⟨_, rfl⟩
  obtain ⟨r, hr⟩ : ∃ r : ℚ, r = num / den := ⟨_, rfl⟩
  have hlt (k : Int) : r < 2 ^ k ↔ power < k := by rw [hr, hpower, lt_two_pow_iff hnum hden]
  have hscaled := div_scaleDown (b := 2) (by decide) q num den
  have hpos := (scaleDown_pos (b := 2) (by decide) hnum hden q).2
  have hunit : (0 : ℚ) < 2 ^ q := by positivity
  have hround (k : Nat) (heven : k % 2 = 0) :
      roundHalfEven (scaleDown 2 q num den).1 (scaleDown 2 q num den).2 < k ↔ r / 2 ^ q < k - 1 / 2 := by
    rw [roundHalfEven_lt_iff hpos heven, hscaled, Nat.cast_ofNat, hr]
  have hnearest : nearest negative num den = ofCode negative ((q + 1074).toNat * Nat.pow 2 52 +
      roundHalfEven (scaleDown 2 q num den).1 (scaleDown 2 q num den).2) := by
    rw [nearest, if_neg hnum.ne', ← hpower, ← hq]
  rw [hnearest, isFinite_ofCode_iff, ← hr]
  have hcode : infinityCode = 2047 * Nat.pow 2 52 := rfl
  have hpow : Nat.pow 2 52 = 4503599627370496 := rfl
  rw [hcode, hpow]
  obtain ⟨hlimit', hlimit⟩ := overflow_bounds
  rcases lt_trichotomy power 1023 with hless | hequal | hgreater
  · -- the significand has at most 53 digits, in a unit that leaves room for one more
    have hbelow : r < 2 ^ (1023 : Int) := (hlt 1023).2 hless
    have hfew : r / 2 ^ q < 9007199254740992 := by
      rw [div_lt_iff₀ hunit, ← show (2 : ℚ) ^ (53 : Int) = 9007199254740992 by norm_num,
        ← zpow_add₀ (by norm_num), hlt]
      omega
    have := (hround 9007199254740994 (by decide)).2 (by push_cast; linarith)
    exact ⟨fun _ => hbelow.trans hlimit', fun _ => by omega⟩
  · obtain rfl : q = 971 := by omega
    have hmiddle : r < overflow ↔ r / 2 ^ (971 : Int) < (9007199254740992 : Nat) - 1 / 2 := by
      rw [div_lt_iff₀ hunit, overflow, show (2 : ℚ) ^ 53 = (9007199254740992 : Nat) by norm_num]
    have := hround 9007199254740992 (by decide)
    rw [hmiddle, ← this]
    omega
  · -- the significand has 53 digits, in a unit that is too large
    have habove : ¬ r < 2 ^ (1024 : Int) := by
      rw [hlt]
      omega
    have hmany : ¬ r / 2 ^ q < (4503599627370496 : Nat) - 1 / 2 := by
      have hle : ¬ r < 2 ^ (52 + q) := by
        rw [hlt]
        omega
      rw [zpow_add₀ (by norm_num), not_lt, ← le_div_iff₀ hunit] at hle
      norm_num at hle ⊢
      linarith
    rw [← hround 4503599627370496 (by decide)] at hmany
    exact ⟨fun _ => by omega, fun h => absurd (h.trans hlimit) habove⟩

end Binary64

namespace Decimal

open Binary64 (overflow overflow_bounds overflow_pos isFinite_ofCode_iff isFinite_nearest_iff)

/-- A decimal is read as a finite number when its magnitude is below the middle. -/
theorem isFinite_toBinary64_iff (d : Decimal) :
    d.toBinary64.isFinite = true ↔ d.magnitude < overflow := by
  have hzero (negative : Bool) : (Binary64.zero negative).isFinite = true := by
    rw [Binary64.zero, isFinite_ofCode_iff]
    decide
  rcases Nat.eq_zero_or_pos d.mantissa with hmantissa | hmantissa
  · rw [toBinary64_of_mantissa_eq_zero hmantissa, magnitude, hmantissa, Nat.cast_zero, zero_mul]
    exact iff_of_true (hzero _) overflow_pos
  obtain ⟨h1, h2⟩ := magnitude_bounds hmantissa
  obtain ⟨size, hsize⟩ : ∃ s : Int, s = (Nat.toDigits 10 d.mantissa).length + d.exponent := ⟨_, rfl⟩
  rw [← hsize] at h1 h2
  rw [toBinary64, ← hsize]
  have hone : (1 : ℚ) < 10 := by norm_num
  split
  · next hsmall =>
    have hle : size ≤ -324 := by simpa [hmantissa.ne'] using hsmall
    refine iff_of_true (hzero _) (h2.trans ?_)
    calc (10 : ℚ) ^ size ≤ 10 ^ (-324 : Int) := zpow_le_zpow_right₀ hone.le hle
      _ < 2 ^ (1023 : Int) := ten_pow_lt_two_pow.trans (zpow_lt_zpow_right₀ (by norm_num) (by norm_num))
      _ < overflow := overflow_bounds.1
  split
  · next hlarge =>
    refine iff_of_false ?_ (not_lt.2 (le_trans ?_ h1))
    · rw [Binary64.infinity, isFinite_ofCode_iff]
      decide
    calc overflow ≤ 2 ^ (1024 : Int) := overflow_bounds.2.le
      _ ≤ 10 ^ (309 : Int) := two_pow_lt_ten_pow.le
      _ ≤ 10 ^ (size - 1) := zpow_le_zpow_right₀ hone.le (by omega)
  · have hpos := scaleDown_pos (b := 10) (by decide) hmantissa Nat.one_pos (-d.exponent)
    rw [← d.div_scaleDown_mantissa]
    exact isFinite_nearest_iff hpos.1 hpos.2 d.negative

end Decimal

end RosSchema

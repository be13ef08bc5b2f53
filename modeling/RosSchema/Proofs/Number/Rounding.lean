import Mathlib
import RosSchema.Number.Binary64

/-!
# Rounding

The quotients that `nearest` rounds are rationals. The leading power of a quotient is the one power of
the base that has the quotient above it and below its next, and a quotient that is at most a half away
from an integer is rounded to it, where an exact half needs an even integer.
-/

namespace RosSchema

variable {b num den : Nat}

theorem scaleDown_pos (hbase : 0 < b) (hnum : 0 < num) (hden : 0 < den) (shift : Int) :
    0 < (scaleDown b shift num den).1 ∧ 0 < (scaleDown b shift num den).2 :=
  ⟨Nat.mul_pos hnum (Nat.pow_pos hbase), Nat.mul_pos hden (Nat.pow_pos hbase)⟩

/-- Scaling a quotient down divides it by a power of the base. -/
theorem div_scaleDown (hbase : 0 < b) (shift : Int) (num den : Nat) :
    ((scaleDown b shift num den).1 : ℚ) / (scaleDown b shift num den).2 =
      num / den / (b : ℚ) ^ shift := by
  have hb : (b : ℚ) ≠ 0 := by positivity
  obtain ⟨n, rfl | rfl⟩ := shift.eq_nat_or_neg
  · simp [scaleDown, Nat.pow_eq, div_div]
  · simp only [scaleDown, Nat.pow_eq, neg_neg, Int.toNat_natCast, Int.toNat_neg_natCast, pow_zero,
      mul_one, Nat.cast_mul, Nat.cast_pow, zpow_neg, zpow_natCast, div_inv_eq_mul]
    ring

/-! ## Leading powers -/

/-- The digits of a positive number bound it from both sides. -/
theorem pow_length_toDigits (hbase : 1 < b) {n : Nat} (hn : 0 < n) :
    (b : ℚ) ^ (((Nat.toDigits b n).length : Int) - 1) ≤ n ∧
      (n : ℚ) < (b : ℚ) ^ ((Nat.toDigits b n).length : Int) := by
  have hpos : 0 < (Nat.toDigits b n).length := Nat.length_toDigits_pos
  obtain ⟨k, hk⟩ := Nat.exists_eq_succ_of_ne_zero hpos.ne'
  have hlt : n < b ^ (k + 1) := (Nat.length_toDigits_le_iff hbase (by omega)).1 hk.le
  have hle : b ^ k ≤ n := by
    cases k with
    | zero => simpa using Nat.succ_le_of_lt hn
    | succ k =>
      by_contra h
      have hshort : (Nat.toDigits b n).length ≤ k + 1 :=
        (Nat.length_toDigits_le_iff hbase (by omega)).2 (by omega)
      omega
  rw [hk]
  constructor
  · have hpow : ((k + 1 : Nat) : Int) - 1 = (k : Int) := by omega
    rw [hpow, zpow_natCast]
    exact_mod_cast hle
  · rw [zpow_natCast]
    exact_mod_cast hlt

/-- A positive quotient lies between its leading power and the next power. -/
theorem leadingPower_spec (hbase : 1 < b) (hnum : 0 < num) (hden : 0 < den) :
    (b : ℚ) ^ leadingPower b num den ≤ num / den ∧
      (num : ℚ) / den < (b : ℚ) ^ (leadingPower b num den + 1) := by
  have hb : (1 : ℚ) < b := by exact_mod_cast hbase
  have hb0 : (0 : ℚ) < b := by linarith
  have hd : (0 : ℚ) < den := by exact_mod_cast hden
  obtain ⟨hn1, hn2⟩ := pow_length_toDigits hbase hnum
  obtain ⟨hd1, hd2⟩ := pow_length_toDigits hbase hden
  obtain ⟨guess, hguess⟩ :
      ∃ g : Int, g = ((Nat.toDigits b num).length : Int) - (Nat.toDigits b den).length := ⟨_, rfl⟩
  have hlow : (b : ℚ) ^ (guess - 1) ≤ num / den := by
    rw [le_div_iff₀ hd]
    calc (b : ℚ) ^ (guess - 1) * den
        ≤ (b : ℚ) ^ (guess - 1) * (b : ℚ) ^ ((Nat.toDigits b den).length : Int) := by gcongr
      _ = (b : ℚ) ^ (((Nat.toDigits b num).length : Int) - 1) := by
          rw [← zpow_add₀ hb0.ne', hguess]
          congr 1
          omega
      _ ≤ num := hn1
  have hhigh : (num : ℚ) / den < (b : ℚ) ^ (guess + 1) := by
    rw [div_lt_iff₀ hd]
    calc (num : ℚ) < (b : ℚ) ^ ((Nat.toDigits b num).length : Int) := hn2
      _ = (b : ℚ) ^ (guess + 1) * (b : ℚ) ^ (((Nat.toDigits b den).length : Int) - 1) := by
          rw [← zpow_add₀ hb0.ne', hguess]
          congr 1
          omega
      _ ≤ (b : ℚ) ^ (guess + 1) * den := by gcongr
  have hdiv := div_scaleDown (b := b) (by omega) guess num den
  have hpos := (scaleDown_pos (b := b) (by omega) hnum hden guess).2
  have hpos' : (0 : ℚ) < (scaleDown b guess num den).2 := by exact_mod_cast hpos
  have hcmp : (scaleDown b guess num den).2 ≤ (scaleDown b guess num den).1 ↔
      (b : ℚ) ^ guess ≤ num / den := by
    rw [← Nat.cast_le (α := ℚ), ← one_le_div hpos', hdiv, one_le_div (zpow_pos hb0 _)]
  have hpower : leadingPower b num den =
      if (scaleDown b guess num den).2 ≤ (scaleDown b guess num den).1 then guess
      else guess - 1 := by
    rw [leadingPower, ← hguess]
  rw [hpower]
  by_cases h : (b : ℚ) ^ guess ≤ num / den
  · rw [if_pos (hcmp.2 h)]
    exact ⟨h, hhigh⟩
  · rw [if_neg fun hc => h (hcmp.1 hc), sub_add_cancel]
    exact ⟨hlow, not_le.1 h⟩

/-! ## The nearest integer -/

/-- A quotient at most a half away from an integer is rounded to it; exactly a half away, it is if the
integer is even. -/
theorem roundHalfEven_eq {k : Nat} (hden : 0 < den) (hlow : 2 * k * den ≤ 2 * num + den)
    (hhigh : 2 * num ≤ (2 * k + 1) * den)
    (htie : k % 2 = 1 → 2 * k * den < 2 * num + den ∧ 2 * num < (2 * k + 1) * den) :
    roundHalfEven num den = k := by
  obtain ⟨whole, hwhole⟩ : ∃ w, w = num / den := ⟨_, rfl⟩
  obtain ⟨part, hpart⟩ : ∃ r, r = num % den := ⟨_, rfl⟩
  have hnum : num = den * whole + part := by rw [hwhole, hpart, Nat.div_add_mod]
  have hlt : part < den := hpart ▸ Nat.mod_lt _ hden
  have hwk : whole ≤ k := by
    by_contra h
    have : (k + 1) * den ≤ whole * den := Nat.mul_le_mul_right den (by omega)
    nlinarith
  have hkw : k ≤ whole + 1 := by
    by_contra h
    have : (whole + 2) * den ≤ k * den := Nat.mul_le_mul_right den (by omega)
    nlinarith
  rw [roundHalfEven, ← hwhole, ← hpart]
  obtain rfl | rfl : k = whole ∨ k = whole + 1 := by omega
  · -- at most a half is left over
    have hle : 2 * part ≤ den := by nlinarith
    rw [if_neg]
    simp only [Bool.or_eq_true, decide_eq_true_eq, Bool.and_eq_true, beq_iff_eq, not_or, not_and]
    refine ⟨by omega, fun heq hodd => ?_⟩
    have := (htie hodd).2
    nlinarith
  · -- at least a half is left over
    have hle : den ≤ 2 * part := by nlinarith
    rw [if_pos]
    simp only [Bool.or_eq_true, decide_eq_true_eq, Bool.and_eq_true, beq_iff_eq]
    by_cases heq : 2 * part = den
    · refine .inr ⟨heq, ?_⟩
      by_contra heven
      have := (htie (by omega)).1
      nlinarith
    · exact .inl (by omega)

end RosSchema

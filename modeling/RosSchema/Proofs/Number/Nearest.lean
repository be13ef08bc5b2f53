import RosSchema.Number.Shortest
import RosSchema.Proofs.Number.Rounding

/-!
# The rationals that are read as one number

`Interval.ofBinary` is what it promises to be: `nearest` takes every rational of the interval around a
finite binary64 number to that number. The interval is measured in the unit of the number's
significand, except just below a power of two, where the unit is half as large.
-/

namespace RosSchema

/-! ## Rationals of an interval -/

namespace Interval

/-- A rational lies in an interval, at an end only if the ends belong to it. -/
structure Contains (i : Interval) (r : ℚ) : Prop where
  low : (i.low : ℚ) / i.unit ≤ r
  high : r ≤ (i.high : ℚ) / i.unit
  inner : i.closed = false → (i.low : ℚ) / i.unit < r ∧ r < (i.high : ℚ) / i.unit

theorem contains_of_holds {i : Interval} (hunit : 0 < i.unit) {n : Nat} (h : i.holds n = true) :
    i.Contains n := by
  have hu : (0 : ℚ) < i.unit := by exact_mod_cast hunit
  unfold holds at h
  split at h
  · next hc =>
    simp only [Bool.and_eq_true, decide_eq_true_eq] at h
    refine ⟨?_, ?_, by simp [hc]⟩
    · rw [div_le_iff₀ hu]
      exact_mod_cast h.1
    · rw [le_div_iff₀ hu]
      exact_mod_cast h.2
  · simp only [Bool.and_eq_true, decide_eq_true_eq] at h
    have hlow : (i.low : ℚ) / i.unit < n := by
      rw [div_lt_iff₀ hu]
      exact_mod_cast h.1
    have hhigh : (n : ℚ) < (i.high : ℚ) / i.unit := by
      rw [lt_div_iff₀ hu]
      exact_mod_cast h.2
    exact ⟨hlow.le, hhigh.le, fun _ => ⟨hlow, hhigh⟩⟩

/-- An integer strictly between the ends lies in the interval. -/
theorem holds_of_lt {i : Interval} {n : Nat} (hlow : i.low < n * i.unit) (hhigh : n * i.unit < i.high) :
    i.holds n = true := by
  unfold holds
  split <;> simp only [Bool.and_eq_true, decide_eq_true_eq] <;> omega

/-- The interval in units of a power of ten has the same rationals. -/
theorem contains_inTens {i : Interval} {power : Int} {r : ℚ} :
    (i.inTens power).Contains r ↔ i.Contains (r * 10 ^ power) := by
  have hlow := div_scaleDown (b := 10) (by decide) power i.low i.unit
  have hhigh := div_scaleDown (b := 10) (by decide) power i.high i.unit
  simp only [scaleDown, Nat.cast_ofNat] at hlow hhigh
  have hp : (0 : ℚ) < 10 ^ power := by positivity
  constructor
  · rintro ⟨h1, h2, h3⟩
    simp only [inTens, hlow, hhigh, div_le_iff₀ hp, le_div_iff₀ hp, div_lt_iff₀ hp, lt_div_iff₀ hp]
      at h1 h2 h3
    exact ⟨h1, h2, h3⟩
  · rintro ⟨h1, h2, h3⟩
    constructor <;>
      simp only [inTens, hlow, hhigh, div_le_iff₀ hp, le_div_iff₀ hp, div_lt_iff₀ hp, lt_div_iff₀ hp]
    · exact h1
    · exact h2
    · exact h3

/-- How far below a significand its interval starts, in quarters of the unit. -/
def quartersBelow (m : Nat) (q : Int) : Nat := if m = Nat.pow 2 52 && q != -1074 then 1 else 2

theorem unit_ofBinary_pos (m : Nat) (q : Int) : 0 < (ofBinary m q).unit := Nat.pow_pos (by decide)

/-- A number of quarters of a unit. -/
theorem div_unit_ofBinary (m n : Nat) (q : Int) :
    ((n * Nat.pow 2 (q - 2).toNat : Nat) : ℚ) / (ofBinary m q).unit = n / 4 * 2 ^ q := by
  have h := div_scaleDown (b := 2) (by decide) (2 - q) n 1
  have hneg : -(2 - q) = q - 2 := by omega
  simp only [scaleDown, hneg, one_mul, Nat.cast_one, div_one] at h
  have hpow : (2 : ℚ) ^ (2 - q) = 4 / 2 ^ q := by
    rw [zpow_sub₀ (by norm_num)]
    norm_num
  rw [ofBinary, h, Nat.cast_ofNat, hpow]
  field_simp

theorem low_ofBinary {m : Nat} (hm : 0 < m) (q : Int) :
    ((ofBinary m q).low : ℚ) / (ofBinary m q).unit = (m - quartersBelow m q / 4) * 2 ^ q := by
  have hle : quartersBelow m q ≤ 4 * m := by
    unfold quartersBelow
    split <;> omega
  have h := div_unit_ofBinary m (4 * m - quartersBelow m q) q
  have hcast : ((4 * m - quartersBelow m q : Nat) : ℚ) = 4 * m - quartersBelow m q := by
    rw [Nat.cast_sub hle]
    norm_num
  rw [hcast] at h
  calc ((ofBinary m q).low : ℚ) / (ofBinary m q).unit = (4 * m - quartersBelow m q) / 4 * 2 ^ q := h
    _ = (m - quartersBelow m q / 4) * 2 ^ q := by ring

theorem high_ofBinary (m : Nat) (q : Int) :
    ((ofBinary m q).high : ℚ) / (ofBinary m q).unit = (m + 1 / 2) * 2 ^ q := by
  have h := div_unit_ofBinary m (4 * m + 2) q
  calc ((ofBinary m q).high : ℚ) / (ofBinary m q).unit = ((4 * m + 2 : Nat) : ℚ) / 4 * 2 ^ q := h
    _ = (m + 1 / 2) * 2 ^ q := by
      push_cast
      ring

theorem value_ofBinary (m : Nat) (q : Int) :
    ((ofBinary m q).value : ℚ) / (ofBinary m q).unit = m * 2 ^ q := by
  have h := div_unit_ofBinary m (4 * m) q
  calc ((ofBinary m q).value : ℚ) / (ofBinary m q).unit = ((4 * m : Nat) : ℚ) / 4 * 2 ^ q := h
    _ = m * 2 ^ q := by
      push_cast
      ring

/-- A rational of the interval of a significand, in the unit of the significand. -/
theorem Contains.scaled {m : Nat} {q : Int} {r : ℚ} (hm : 0 < m) (h : (ofBinary m q).Contains r) :
    m - quartersBelow m q / 4 ≤ r / 2 ^ q ∧ r / 2 ^ q ≤ m + 1 / 2 ∧
      (m % 2 = 1 → m - quartersBelow m q / 4 < r / 2 ^ q ∧ r / 2 ^ q < m + 1 / 2) := by
  obtain ⟨hlow, hhigh, hinner⟩ := h
  have hp : (0 : ℚ) < 2 ^ q := by positivity
  rw [low_ofBinary hm, high_ofBinary] at hinner
  rw [low_ofBinary hm] at hlow
  rw [high_ofBinary] at hhigh
  refine ⟨(le_div_iff₀ hp).2 hlow, (div_le_iff₀ hp).2 hhigh, fun hodd => ?_⟩
  obtain ⟨h1, h2⟩ := hinner (by simp [ofBinary, hodd])
  exact ⟨(lt_div_iff₀ hp).2 h1, (div_lt_iff₀ hp).2 h2⟩

end Interval

/-! ## Rounding to a number -/

/-- Rounding in terms of the quotient. -/
theorem roundHalfEven_of_near {num den k : Nat} (hden : 0 < den) (hlow : (k : ℚ) - 1 / 2 ≤ num / den)
    (hhigh : (num : ℚ) / den ≤ k + 1 / 2)
    (htie : k % 2 = 1 → (k : ℚ) - 1 / 2 < num / den ∧ (num : ℚ) / den < k + 1 / 2) :
    roundHalfEven num den = k := by
  have hd : (0 : ℚ) < den := by exact_mod_cast hden
  rw [le_div_iff₀ hd] at hlow
  rw [div_le_iff₀ hd] at hhigh
  rw [lt_div_iff₀ hd, div_lt_iff₀ hd] at htie
  refine roundHalfEven_eq hden ?_ ?_ fun hodd => ⟨?_, ?_⟩
  · have : (2 * k * den : ℚ) ≤ 2 * num + den := by linarith
    exact_mod_cast this
  · have : (2 * num : ℚ) ≤ (2 * k + 1) * den := by linarith
    exact_mod_cast this
  · have : (2 * k * den : ℚ) < 2 * num + den := by linarith [(htie hodd).1]
    exact_mod_cast this
  · have : (2 * num : ℚ) < (2 * k + 1) * den := by linarith [(htie hodd).2]
    exact_mod_cast this

namespace Binary64

/-- A quotient that has 53 binary digits in some unit, or fewer in the least one, is rounded to an
integer of that unit. -/
theorem nearest_eq_ofCode {num den k : Nat} {q : Int} (hnum : 0 < num) (hden : 0 < den)
    (hq : -1074 ≤ q) (hleast : q ≠ -1074 → 2 ^ 52 ≤ (num : ℚ) / den / 2 ^ q)
    (hdigits : (num : ℚ) / den / 2 ^ q < 2 ^ 53)
    (hlow : (k : ℚ) - 1 / 2 ≤ num / den / 2 ^ q) (hhigh : (num : ℚ) / den / 2 ^ q ≤ k + 1 / 2)
    (htie : k % 2 = 1 → (k : ℚ) - 1 / 2 < num / den / 2 ^ q ∧ (num : ℚ) / den / 2 ^ q < k + 1 / 2)
    (negative : Bool) :
    nearest negative num den = ofCode negative ((q + 1074).toNat * Nat.pow 2 52 + k) := by
  have hp : (0 : ℚ) < 2 ^ q := by positivity
  obtain ⟨hl1, hl2⟩ := leadingPower_spec (b := 2) (by decide) hnum hden
  have hlt : leadingPower 2 num den < q + 53 := by
    have : (2 : ℚ) ^ leadingPower 2 num den < 2 ^ (q + 53) :=
      calc (2 : ℚ) ^ leadingPower 2 num den ≤ num / den := by exact_mod_cast hl1
        _ < 2 ^ 53 * 2 ^ q := (div_lt_iff₀ hp).1 hdigits
        _ = 2 ^ (q + 53) := by
          rw [zpow_add₀ (by norm_num), mul_comm]
          norm_num
    exact (zpow_lt_zpow_iff_right₀ (by norm_num)).1 this
  have hpower : max (leadingPower 2 num den - 52) (-1074) = q := by
    by_cases h : q = -1074
    · omega
    · have : (2 : ℚ) ^ (q + 52) < 2 ^ (leadingPower 2 num den + 1) :=
        calc (2 : ℚ) ^ (q + 52) = 2 ^ 52 * 2 ^ q := by
              rw [zpow_add₀ (by norm_num), mul_comm]
              norm_num
          _ ≤ num / den := (le_div_iff₀ hp).1 (hleast h)
          _ < 2 ^ (leadingPower 2 num den + 1) := by exact_mod_cast hl2
      have := (zpow_lt_zpow_iff_right₀ (by norm_num : (1 : ℚ) < 2)).1 this
      omega
  have hscaled := div_scaleDown (b := 2) (by decide) q num den
  have hpos := (scaleDown_pos (b := 2) (by decide) hnum hden q).2
  rw [Nat.cast_ofNat] at hscaled
  rw [← hscaled] at hlow hhigh htie
  have hround := roundHalfEven_of_near hpos hlow hhigh htie
  rw [nearest, if_neg hnum.ne', hpower]
  change ofCode negative (_ + roundHalfEven (scaleDown 2 q num den).1 (scaleDown 2 q num den).2) = _
  rw [hround]

/-- The parts of a finite magnitude: a significand of 53 binary digits, or a smaller one in the least
unit. -/
theorem parts (x : Binary64) :
    (x.significand < Nat.pow 2 52 ∧ x.exponent = -1074 ∧ x.code.val = x.significand) ∨
      (Nat.pow 2 52 ≤ x.significand ∧ x.significand < Nat.pow 2 53 ∧ -1074 ≤ x.exponent ∧
        x.code.val = (x.exponent + 1074).toNat * Nat.pow 2 52 + x.significand) := by
  by_cases h : x.code.val < Nat.pow 2 52
  · left
    simp [significand, exponent, h]
  · right
    have hpow : Nat.pow 2 52 = 4503599627370496 := rfl
    have hpow' : Nat.pow 2 53 = 9007199254740992 := rfl
    rw [significand, exponent, if_neg h, if_neg h]
    rw [hpow] at h ⊢
    rw [hpow']
    omega

theorem ofCode_code {x : Binary64} (h : x.isFinite = true) (negative : Bool) :
    ofCode negative x.code.val = ⟨negative, x.code⟩ := by
  have hlt : x.code.val < infinityCode := by simpa [isFinite] using h
  simp only [ofCode, Nat.min_eq_left hlt.le]

/-- Just below a power of two the unit is half as large, and the quarter of a unit that is left is rounded
up to the power. -/
theorem nearest_of_below_power {num den : Nat} {q : Int} (hnum : 0 < num) (hden : 0 < den) (hq : -1074 < q)
    (hlow : (2 : ℚ) ^ 52 - 1 / 4 ≤ num / den / 2 ^ q) (hhigh : (num : ℚ) / den / 2 ^ q < 2 ^ 52)
    (negative : Bool) : nearest negative num den =
      ofCode negative ((q + 1074).toNat * Nat.pow 2 52 + Nat.pow 2 52) := by
  have hpow : Nat.pow 2 52 = 4503599627370496 := rfl
  have hhalf : (num : ℚ) / den / 2 ^ (q - 1) = num / den / 2 ^ q * 2 := by
    rw [zpow_sub₀ (by norm_num), zpow_one]
    field_simp
  have heven : 9007199254740992 % 2 ≠ 1 := by decide
  norm_num at hlow hhigh
  rw [nearest_eq_ofCode hnum hden (q := q - 1) (k := 9007199254740992) (by omega)
    (fun _ => by rw [hhalf]; norm_num; linarith) (by rw [hhalf]; norm_num; linarith)
    (by rw [hhalf]; norm_num; linarith) (by rw [hhalf]; norm_num; linarith)
    (fun hodd => absurd hodd heven), hpow]
  exact congrArg (ofCode negative) (by omega)

/-- Every rational of the interval around a number is read as the number. -/
theorem nearest_of_contains {x : Binary64} (hfinite : x.isFinite = true) (hzero : x.isZero = false)
    {num den : Nat} (hnum : 0 < num) (hden : 0 < den)
    (h : (Interval.ofBinary x.significand x.exponent).Contains (num / den)) (negative : Bool) :
    nearest negative num den = ⟨negative, x.code⟩ := by
  have hcode : x.code.val ≠ 0 := by simpa [isZero] using hzero
  obtain ⟨m, hm⟩ : ∃ m, m = x.significand := ⟨_, rfl⟩
  obtain ⟨q, hq⟩ : ∃ q, q = x.exponent := ⟨_, rfl⟩
  rw [← ofCode_code hfinite]
  have hparts := x.parts
  rw [← hm, ← hq] at h hparts
  have hpow : Nat.pow 2 52 = 4503599627370496 := rfl
  have hpow' : Nat.pow 2 53 = 9007199254740992 := rfl
  rw [hpow, hpow'] at hparts
  have hpos : 0 < m := by omega
  have hlt : m < 9007199254740992 := by omega
  have hqle : -1074 ≤ q := by omega
  have hx : x.code.val = (q + 1074).toNat * Nat.pow 2 52 + m := by
    rw [hpow]
    omega
  obtain ⟨hlow, hhigh, htie⟩ := h.scaled hpos
  rw [hx]
  by_cases hshort : Interval.quartersBelow m q = 1 ∧ (num : ℚ) / den / 2 ^ q < 2 ^ 52
  · obtain ⟨hquarter, hbelow⟩ := hshort
    obtain ⟨rfl, hqne⟩ : m = Nat.pow 2 52 ∧ q ≠ -1074 := by
      unfold Interval.quartersBelow at hquarter
      split at hquarter
      · next hc => simpa [hpow] using hc
      · cases hquarter
    rw [hquarter, hpow] at hlow
    refine nearest_of_below_power hnum hden (by omega) ?_ hbelow negative
    norm_num at hlow ⊢
    exact hlow
  · have hmq : (m : ℚ) + 1 ≤ 9007199254740992 := by exact_mod_cast hlt
    have hdigits : (num : ℚ) / den / 2 ^ q < 2 ^ 53 := by norm_num; linarith
    have hhalf : (m : ℚ) - 1 / 2 ≤ m - Interval.quartersBelow m q / 4 := by
      unfold Interval.quartersBelow
      split <;> push_cast <;> linarith
    refine nearest_eq_ofCode hnum hden hqle (fun hqne => ?_) hdigits (by linarith) hhigh
      (fun hodd => ⟨by linarith [(htie hodd).1], (htie hodd).2⟩) negative
    have hm52 : 4503599627370496 ≤ m := by omega
    by_contra hbelow
    have hne : m ≠ 4503599627370496 := by
      rintro rfl
      exact hshort ⟨by simp [Interval.quartersBelow, hqne], not_le.1 hbelow⟩
    have hmle : (4503599627370497 : ℚ) ≤ m := by exact_mod_cast (by omega : 4503599627370497 ≤ m)
    norm_num at hbelow
    linarith

end Binary64

end RosSchema

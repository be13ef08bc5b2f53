import RosSchema.Proofs.Number.Reading

/-!
# The shortest digits read back

Whatever grid the search ends on, its decimal lies in the interval of the number, and seventeen digits
make the grid finer than the interval is wide. The shortest decimal of a finite number is therefore
read as the number.
-/

namespace RosSchema

namespace Interval

theorem holds_of_neighbour? {tie : Tie} {i : Interval} {n : Nat} (h : i.neighbour? tie = some n) :
    i.holds n = true := by
  unfold neighbour? at h
  cases h1 : i.holds (i.value / i.unit) <;> cases h2 : i.holds (i.value / i.unit + 1) <;>
    simp only [h1, h2, reduceCtorEq, Option.some.injEq] at h
  · exact h ▸ h2
  · exact h ▸ h1
  · -- whichever of the two is nearer
    have hboth (upper : Bool) :
        i.holds (if upper then i.value / i.unit + 1 else i.value / i.unit) = true := by
      cases upper with
      | true => exact h2
      | false => exact h1
    exact h ▸ hboth _

/-- A grid that is finer than the interval is wide has an integer next to the value in it. -/
theorem exists_neighbour? {tie : Tie} {i : Interval} (hunit : 0 < i.unit) (hlow : i.low < i.value)
    (hhigh : i.value < i.high) (hfine : i.low + i.unit < i.high) :
    ∃ n, i.neighbour? tie = some n := by
  obtain ⟨n, hn⟩ : ∃ n, n = i.value / i.unit := ⟨_, rfl⟩
  have hle : n * i.unit ≤ i.value := hn ▸ Nat.div_mul_le_self _ _
  have hlt : i.value < (n + 1) * i.unit := by
    rw [hn, Nat.mul_comm]
    exact Nat.lt_mul_div_succ _ hunit
  have hnext : (n + 1) * i.unit = n * i.unit + i.unit := Nat.succ_mul _ _
  have hholds : i.holds n = true ∨ i.holds (n + 1) = true := by
    by_cases h : i.low < n * i.unit
    · exact .inl (holds_of_lt h (by omega))
    · exact .inr (holds_of_lt (by omega) (by omega))
  unfold neighbour?
  rw [← hn]
  cases h1 : i.holds n <;> cases h2 : i.holds (n + 1) <;> simp_all

theorem mem_of_search {tie : Tie} {i : Interval} {powers : List Int} {n : Nat} {power : Int}
    (h : i.search tie powers = some (n, power)) : (i.inTens power).neighbour? tie = some n := by
  induction powers with
  | nil => cases h
  | cons p powers ih =>
    rw [search] at h
    cases hp : (i.inTens p).neighbour? tie with
    | none => exact ih (by simpa [hp] using h)
    | some k =>
      simp only [hp, Option.some.injEq, Prod.mk.injEq] at h
      obtain ⟨rfl, rfl⟩ := h
      exact hp

theorem exists_search {tie : Tie} {i : Interval} {powers : List Int} {power : Int}
    (hmem : power ∈ powers) (h : ∃ n, (i.inTens power).neighbour? tie = some n) :
    ∃ r, i.search tie powers = some r := by
  induction powers with
  | nil => simp at hmem
  | cons p powers ih =>
    rw [search]
    cases hp : (i.inTens p).neighbour? tie with
    | some k => exact ⟨_, rfl⟩
    | none =>
      rcases List.mem_cons.1 hmem with rfl | hmem
      · simp [hp] at h
      · exact ih hmem

theorem quartersBelow_pos (m : Nat) (q : Int) : (0 : ℚ) < quartersBelow m q := by
  unfold quartersBelow
  split <;> norm_num

/-- The interval of a number goes below it and above it. -/
theorem low_lt_value {m : Nat} (hm : 0 < m) (q : Int) : (ofBinary m q).low < (ofBinary m q).value := by
  have hu : (0 : ℚ) < (ofBinary m q).unit := by exact_mod_cast unit_ofBinary_pos m q
  have hquarters := quartersBelow_pos m q
  have hlt : ((ofBinary m q).low : ℚ) / (ofBinary m q).unit < (ofBinary m q).value / (ofBinary m q).unit := by
    rw [low_ofBinary hm, value_ofBinary]
    gcongr
    linarith
  exact_mod_cast (div_lt_div_iff_of_pos_right hu).1 hlt

theorem value_lt_high (m : Nat) (q : Int) : (ofBinary m q).value < (ofBinary m q).high := by
  have hu : (0 : ℚ) < (ofBinary m q).unit := by exact_mod_cast unit_ofBinary_pos m q
  have hlt : ((ofBinary m q).value : ℚ) / (ofBinary m q).unit < (ofBinary m q).high / (ofBinary m q).unit := by
    rw [high_ofBinary, value_ofBinary]
    gcongr
    linarith
  exact_mod_cast (div_lt_div_iff_of_pos_right hu).1 hlt

/-- The interval of a significand of 53 binary digits is wider than a grid of seventeen digits. -/
theorem ten_zpow_lt_width {m : Nat} {q : Int} (hlt : m < Nat.pow 2 53) {power : Int}
    (hpower : (10 : ℚ) ^ (power + 16) ≤ m * 2 ^ q) :
    (10 : ℚ) ^ power < (1 / 2 + quartersBelow m q / 4) * 2 ^ q := by
  have hp : (0 : ℚ) < 2 ^ q := by positivity
  have hsplit : (10 : ℚ) ^ (power + 16) = 10 ^ power * 10 ^ 16 := by
    rw [zpow_add₀ (by norm_num)]
    norm_num
  have hwide : (m : ℚ) < (1 / 2 + quartersBelow m q / 4) * 10 ^ 16 := by
    unfold quartersBelow
    split
    · next h =>
      simp only [Bool.and_eq_true, decide_eq_true_eq] at h
      rw [h.1]
      norm_num
    · have hlt' : (m : ℚ) < 9007199254740992 := by exact_mod_cast hlt
      norm_num
      linarith
  have hscaled : (10 : ℚ) ^ power * 10 ^ 16 < (1 / 2 + quartersBelow m q / 4) * 2 ^ q * 10 ^ 16 :=
    calc (10 : ℚ) ^ power * 10 ^ 16 = 10 ^ (power + 16) := hsplit.symm
      _ ≤ m * 2 ^ q := hpower
      _ < (1 / 2 + quartersBelow m q / 4) * 10 ^ 16 * 2 ^ q := by gcongr
      _ = (1 / 2 + quartersBelow m q / 4) * 2 ^ q * 10 ^ 16 := by ring
  exact lt_of_mul_lt_mul_right hscaled (by norm_num)

/-- Seventeen digits of a significand of 53 binary digits leave a grid that is finer than the interval
is wide. -/
theorem exists_neighbour?_inTens {tie : Tie} {m : Nat} {q : Int} (hm : 0 < m)
    (hlt : m < Nat.pow 2 53) {power : Int} (hpower : (10 : ℚ) ^ (power + 16) ≤ m * 2 ^ q) :
    ∃ n, ((ofBinary m q).inTens power).neighbour? tie = some n := by
  have hten : (0 : ℚ) < 10 ^ power := by positivity
  have hunit : 0 < ((ofBinary m q).inTens power).unit :=
    Nat.mul_pos (unit_ofBinary_pos m q) (Nat.pow_pos (by decide))
  have hs : (0 : ℚ) < ((ofBinary m q).inTens power).unit := by exact_mod_cast hunit
  have hfine : (10 : ℚ) ^ power + (ofBinary m q).low / (ofBinary m q).unit <
      (ofBinary m q).high / (ofBinary m q).unit := by
    rw [low_ofBinary hm, high_ofBinary]
    linarith [ten_zpow_lt_width hlt hpower]
  refine exists_neighbour? hunit (Nat.mul_lt_mul_of_pos_right (low_lt_value hm q) (Nat.pow_pos (by decide)))
    (Nat.mul_lt_mul_of_pos_right (value_lt_high m q) (Nat.pow_pos (by decide))) ?_
  have hscaleLow := div_scaleDown (b := 10) (by decide) power (ofBinary m q).low (ofBinary m q).unit
  have hscaleHigh := div_scaleDown (b := 10) (by decide) power (ofBinary m q).high (ofBinary m q).unit
  have hgoal : (((ofBinary m q).inTens power).low : ℚ) / ((ofBinary m q).inTens power).unit + 1 <
      ((ofBinary m q).inTens power).high / ((ofBinary m q).inTens power).unit := by
    simp only [scaleDown, Nat.cast_ofNat] at hscaleLow hscaleHigh
    simp only [inTens]
    rw [hscaleLow, hscaleHigh, ← div_self hten.ne', ← add_div]
    gcongr
    linarith
  rw [← div_self hs.ne', ← add_div, div_lt_div_iff_of_pos_right hs] at hgoal
  exact_mod_cast hgoal

end Interval

namespace Binary64

/-- The shortest decimal of a finite number lies in its interval. -/
theorem contains_shortest {x : Binary64} (hzero : x.isZero = false) (tie : Tie) :
    (x.shortest tie).negative = x.negative ∧
      (Interval.ofBinary x.significand x.exponent).Contains (x.shortest tie).magnitude := by
  have hcode : x.code.val ≠ 0 := by simpa [isZero] using hzero
  have hpow : Nat.pow 2 52 = 4503599627370496 := rfl
  have hpow' : Nat.pow 2 53 = 9007199254740992 := rfl
  have hparts := x.parts
  obtain ⟨m, hm⟩ : ∃ m, m = x.significand := ⟨_, rfl⟩
  obtain ⟨q, hq⟩ : ∃ q, q = x.exponent := ⟨_, rfl⟩
  rw [← hm, ← hq] at hparts
  have hpos : 0 < m := by omega
  have hlt : m < Nat.pow 2 53 := by omega
  obtain ⟨i, hi⟩ : ∃ i, i = Interval.ofBinary m q := ⟨_, rfl⟩
  obtain ⟨top, htop⟩ : ∃ t, t = leadingPower 10 i.value i.unit := ⟨_, rfl⟩
  have hunit : 0 < i.unit := hi ▸ Interval.unit_ofBinary_pos m q
  have hvalue : 0 < i.value := by
    rw [hi]
    exact Nat.mul_pos (by omega) (Nat.pow_pos (by decide))
  have hleading : (10 : ℚ) ^ (top - 16 + 16) ≤ m * 2 ^ q := by
    have h := (leadingPower_spec (b := 10) (by decide) hvalue hunit).1
    rw [← htop, hi, Interval.value_ofBinary, Nat.cast_ofNat] at h
    rwa [sub_add_cancel]
  have hmem : top - 16 ∈ (List.range 17).map fun (k : Nat) => top - k :=
    List.mem_map.2 ⟨16, List.mem_range.2 (by decide), rfl⟩
  have hsome : ∃ n, (i.inTens (top - 16)).neighbour? tie = some n :=
    hi ▸ Interval.exists_neighbour?_inTens hpos hlt hleading
  obtain ⟨⟨n, power⟩, hsearch⟩ := Interval.exists_search hmem hsome
  have hshortest : x.shortest tie = ⟨x.negative, (Decimal.dropZeros 17 n power).1,
      (Decimal.dropZeros 17 n power).2⟩ := by
    simp only [shortest, hzero, Bool.false_eq_true, ↓reduceIte, ← hm, ← hq, ← hi, ← htop, hsearch]
  rw [hshortest, Decimal.magnitude_dropZeros]
  refine ⟨rfl, ?_⟩
  have hholds := Interval.holds_of_neighbour? (Interval.mem_of_search hsearch)
  have hcontains := Interval.contains_of_holds
    (Nat.mul_pos hunit (Nat.pow_pos (by decide))) hholds
  rw [← hm, ← hq, ← hi]
  exact Interval.contains_inTens.1 hcontains

/-- The shortest decimal of a finite number is read as the number. -/
theorem toBinary64_shortest {x : Binary64} (hfinite : x.isFinite = true) (hzero : x.isZero = false)
    (tie : Tie) {d : Decimal} (hnegative : d.negative = (x.shortest tie).negative)
    (hmagnitude : d.magnitude = (x.shortest tie).magnitude) : d.toBinary64 = x := by
  obtain ⟨hneg, hcontains⟩ := contains_shortest hzero tie
  rw [← hmagnitude] at hcontains
  rw [Decimal.toBinary64_of_contains hfinite hzero hcontains, hnegative, hneg]

end Binary64

end RosSchema

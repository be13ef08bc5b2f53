import RosSchema.Literal.Escape
import RosSchema.Proofs.Steps

/-!
# Digits

A run of digits in a base stands for the number whose digits they are, the greatest of them first. Escapes
and integers are read digit by digit, as the numbers that their runs stand for.
-/

namespace RosSchema.Literal

/-- A character is a digit of a base. Letters are digits in either case. -/
def IsDigit (base : Nat) (c : Char) (d : Nat) : Prop :=
  d < base ∧ (c = Nat.digitChar d ∨ c = (Nat.digitChar d).toUpper)

def Digits (base : Nat) (cs : List Char) (n : Nat) : Prop :=
  ∃ ds, List.Forall₂ (IsDigit base) cs.reverse ds ∧ n = Nat.ofDigits base ds

variable {base n : Nat} {cs : List Char}

@[simp] theorem digits_nil : Digits base [] n ↔ n = 0 := by
  simp [Digits]

/-- A digit at the end adds to the base times the number before it. -/
theorem digits_concat {c : Char} : Digits base (cs ++ [c]) n ↔
    ∃ m d, Digits base cs m ∧ IsDigit base c d ∧ n = base * m + d := by
  rw [Digits, List.reverse_concat]
  constructor
  · rintro ⟨_, hcons, rfl⟩
    obtain ⟨d, ds, hd, hds, rfl⟩ := List.forall₂_cons_left_iff.1 hcons
    exact ⟨_, d, ⟨ds, hds, rfl⟩, hd, by rw [Nat.ofDigits_cons, add_comm]⟩
  · rintro ⟨_, d, ⟨ds, hds, rfl⟩, hd, rfl⟩
    exact ⟨d :: ds, .cons hd hds, by rw [Nat.ofDigits_cons, add_comm]⟩

/-- A run of digits stands for a number below the power of the base by its length. -/
theorem Digits.lt (h : Digits base cs n) (hbase : 1 < base) : n < base ^ cs.length := by
  obtain ⟨ds, hds, rfl⟩ := h
  rw [← List.length_reverse, hds.length_eq]
  refine Nat.ofDigits_lt_base_pow_length hbase fun d hd => ?_
  obtain ⟨c, -, hc⟩ := Steps.exists_of_mem_right hds hd
  exact hc.1

theorem IsDigit.isAlphanum {c : Char} {d : Nat} (h : IsDigit base c d) (hbase : base ≤ 16) :
    c.isAlphanum = true := by
  obtain ⟨hd, hc⟩ := h
  have hd : d < 16 := hd.trans_le hbase
  rcases hc with rfl | rfl <;> interval_cases d <;> decide

theorem Digits.isAlphanum (h : Digits base cs n) (hbase : base ≤ 16) : ∀ c ∈ cs, c.isAlphanum = true := by
  obtain ⟨ds, hds, -⟩ := h
  intro c hc
  obtain ⟨d, -, hd⟩ := Steps.exists_of_mem_left hds (List.mem_reverse.2 hc)
  exact hd.isAlphanum hbase

/-! ## Decimal and octal digits -/

theorem isDigit_ten {c : Char} {d : Nat} :
    IsDigit 10 c d ↔ c.isDigit = true ∧ d = c.toNat - '0'.toNat := by
  constructor
  · rintro ⟨hd, rfl | rfl⟩ <;> interval_cases d <;> decide
  · rintro ⟨hc, rfl⟩
    have hrange : 48 ≤ c.toNat ∧ c.toNat ≤ 57 := by
      simpa [Char.isDigit, UInt32.le_iff_toNat_le] using hc
    have hd : c.toNat - 48 < 10 := by omega
    refine ⟨hd, .inl (Char.toNat_inj.1 ?_)⟩
    change c.toNat = (Nat.digitChar (c.toNat - 48)).toNat
    rw [Nat.toNat_digitChar_of_lt_ten hd]
    omega

theorem isDigit_eight {c : Char} {d : Nat} :
    IsDigit 8 c d ↔ isOctalDigit c = true ∧ d = c.toNat - '0'.toNat := by
  have hten : IsDigit 8 c d ↔ IsDigit 10 c d ∧ d < 8 := by
    constructor
    · rintro ⟨hd, hc⟩
      exact ⟨⟨by omega, hc⟩, hd⟩
    · rintro ⟨⟨-, hc⟩, hd⟩
      exact ⟨hd, hc⟩
  have hoctal : isOctalDigit c = true ↔ c.isDigit = true ∧ c.toNat - '0'.toNat < 8 := by
    simp only [isOctalDigit, Char.isDigit, Char.le_def, UInt32.le_iff_toNat_le, Bool.and_eq_true,
      decide_eq_true_eq]
    change 48 ≤ c.toNat ∧ c.toNat ≤ 55 ↔ (48 ≤ c.toNat ∧ c.toNat ≤ 57) ∧ c.toNat - 48 < 8
    omega
  rw [hten, isDigit_ten, hoctal]
  constructor
  · rintro ⟨⟨hc, rfl⟩, hd⟩
    exact ⟨⟨hc, hd⟩, rfl⟩
  · rintro ⟨⟨hc, hd⟩, rfl⟩
    exact ⟨⟨hc, rfl⟩, hd⟩

/-- Decimal and octal runs stand for the numbers that they are read as. -/
theorem digits_iff_ofDigitChars {p : Char → Bool}
    (hp : ∀ c d, IsDigit base c d ↔ p c = true ∧ d = c.toNat - '0'.toNat) :
    Digits base cs n ↔ (∀ c ∈ cs, p c = true) ∧ n = Nat.ofDigitChars base cs 0 := by
  induction cs using List.reverseRecOn generalizing n with
  | nil => simp
  | append_singleton cs c ih =>
    have hvalue : Nat.ofDigitChars base (cs ++ [c]) 0 =
        base * Nat.ofDigitChars base cs 0 + (c.toNat - '0'.toNat) := by
      rw [Nat.ofDigitChars_append, Nat.ofDigitChars_cons, Nat.ofDigitChars_nil]
    rw [digits_concat, hvalue]
    simp only [ih, hp, List.forall_mem_append, List.forall_mem_singleton]
    constructor
    · rintro ⟨_, _, ⟨hcs, rfl⟩, ⟨hc, rfl⟩, rfl⟩
      exact ⟨⟨hcs, hc⟩, rfl⟩
    · rintro ⟨⟨hcs, hc⟩, rfl⟩
      exact ⟨_, _, ⟨hcs, rfl⟩, ⟨hc, rfl⟩, rfl⟩

/-! ## Hexadecimal digits -/

theorem digitChar_of_lower {c : Char} (hlow : 97 ≤ c.toNat) (hhigh : c.toNat ≤ 102) :
    c = Nat.digitChar (c.toNat - 97 + 10) := by
  have hchar := Char.ofNat_toNat c
  generalize c.toNat = k at *
  subst hchar
  interval_cases k <;> rfl

theorem digitChar_of_upper {c : Char} (hlow : 65 ≤ c.toNat) (hhigh : c.toNat ≤ 70) :
    c = (Nat.digitChar (c.toNat - 65 + 10)).toUpper := by
  have hchar := Char.ofNat_toNat c
  generalize c.toNat = k at *
  subst hchar
  interval_cases k <;> rfl

theorem isDigit_sixteen {c : Char} {d : Nat} : IsDigit 16 c d ↔ hexDigit? c = some d := by
  constructor
  · rintro ⟨hd, rfl | rfl⟩ <;> interval_cases d <;> decide
  · intro h
    unfold hexDigit? at h
    split at h
    · next hc =>
      cases h
      obtain ⟨hd, hdigit⟩ := isDigit_ten.2 ⟨hc, rfl⟩
      exact ⟨by omega, hdigit⟩
    simp only [Char.le_def, UInt32.le_iff_toNat_le, Bool.and_eq_true, decide_eq_true_eq] at h
    split at h
    · next hc =>
      obtain ⟨hlow, hhigh⟩ : 97 ≤ c.toNat ∧ c.toNat ≤ 102 := hc
      obtain rfl : c.toNat - 97 + 10 = d := Option.some.inj h
      exact ⟨by omega, .inl (digitChar_of_lower hlow hhigh)⟩
    split at h
    · next hc =>
      obtain ⟨hlow, hhigh⟩ : 65 ≤ c.toNat ∧ c.toNat ≤ 70 := hc
      obtain rfl : c.toNat - 65 + 10 = d := Option.some.inj h
      exact ⟨by omega, .inr (digitChar_of_upper hlow hhigh)⟩
    · cases h

theorem hexNumber?_concat (cs : List Char) (c : Char) :
    hexNumber? (cs ++ [c]) = (hexNumber? cs).bind fun n => (hexDigit? c).map (16 * n + ·) := by
  rw [hexNumber?, List.foldl_append]
  rfl

theorem digits_sixteen : Digits 16 cs n ↔ hexNumber? cs = some n := by
  induction cs using List.reverseRecOn generalizing n with
  | nil => simp [hexNumber?, eq_comm]
  | append_singleton cs c ih =>
    rw [digits_concat, hexNumber?_concat, Option.bind_eq_some_iff]
    simp only [ih, isDigit_sixteen, Option.map_eq_some_iff]
    constructor
    · rintro ⟨m, d, hm, hd, rfl⟩
      exact ⟨m, hm, d, hd, rfl⟩
    · rintro ⟨m, hm, d, hd, rfl⟩
      exact ⟨m, d, hm, hd, rfl⟩

end RosSchema.Literal

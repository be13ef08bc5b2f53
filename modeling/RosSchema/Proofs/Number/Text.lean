import RosSchema.Number.Layout
import RosSchema.Proofs.Number.Reading
import RosSchema.Proofs.Text.Reading

/-!
# Numerals read back

A well-formed numeral is read back from its text. Every layout writes a decimal as such a numeral, and
the numeral stands for a decimal of the same sign and magnitude.
-/

namespace RosSchema

open Reader (Word splits_iff)

theorem Numeral.word_ofNat (n : Nat) : Word Char.isDigit (Numeral.ofNat n) :=
  ⟨Nat.toDigits_ne_nil, fun _ hc => Nat.isDigit_of_mem_toDigits (by decide) (by decide) hc⟩

namespace Numeral

structure WellFormed (n : Numeral) : Prop where
  whole : Word Char.isDigit n.whole
  fraction : ∀ digits ∈ n.fraction, ∀ c ∈ digits, c.isDigit = true
  power : ∀ p ∈ n.power, Word Char.isDigit p.digits

theorem read_sign {sign : Option Sign} {cs : List Char} (h : ∀ c ∈ cs.head?, c ≠ '+' ∧ c ≠ '-') :
    Sign.read (Sign.text sign ++ cs) = (sign, cs) := by
  rcases sign with _ | (_ | _)
  · cases cs with
    | nil => rfl
    | cons c cs =>
      obtain ⟨hplus, hminus⟩ := h c rfl
      simp only [Sign.text, Option.toList_none, List.map_nil, List.nil_append]
      unfold Sign.read
      split
      · next heq => exact absurd (List.cons.inj heq).1 hplus
      · next heq => exact absurd (List.cons.inj heq).1 hminus
      · rfl
  · rfl
  · rfl

theorem ne_sign_of_isDigit {c : Char} (h : c.isDigit = true) : c ≠ '+' ∧ c ≠ '-' :=
  ⟨fun hc => absurd (hc ▸ h) (by decide), fun hc => absurd (hc ▸ h) (by decide)⟩

/-- A run of digits is read up to a character that is none. -/
theorem run_digits {digits rest : List Char} (hdigits : ∀ c ∈ digits, c.isDigit = true)
    (hrest : ∀ c ∈ rest.head?, c.isDigit = false) :
    (digits ++ rest).takeWhile Char.isDigit = digits ∧ (digits ++ rest).dropWhile Char.isDigit = rest :=
  splits_iff.1 ⟨rfl, hdigits, hrest⟩

def fractionText : Option (List Char) → List Char
  | some digits => '.' :: digits
  | none => []

def powerText : Option TenPower → List Char
  | some power => power.text
  | none => []

def EndsNumeral (rest : List Char) : Prop :=
  ∀ c ∈ rest.head?, c.isDigit = false ∧ c ≠ '.' ∧ c ≠ 'e' ∧ c ≠ 'E'

theorem head_powerText_append {p : Option TenPower} {rest : List Char} (hrest : EndsNumeral rest) :
    ∀ c ∈ (powerText p ++ rest).head?, c.isDigit = false ∧ c ≠ '.' := by
  cases p with
  | none => exact fun c hc => ⟨(hrest c hc).1, (hrest c hc).2.1⟩
  | some p =>
    rw [powerText, TenPower.text]
    cases p.upperCase <;>
      · rintro c ⟨⟩
        decide

theorem read_fraction {fraction : Option (List Char)} {p : Option TenPower} {rest : List Char}
    (h : ∀ digits ∈ fraction, ∀ c ∈ digits, c.isDigit = true) (hrest : EndsNumeral rest) :
    fraction? (fractionText fraction ++ (powerText p ++ rest)) = (fraction, powerText p ++ rest) := by
  have hstops := head_powerText_append (p := p) hrest
  cases fraction with
  | none =>
    rw [fractionText, List.nil_append]
    unfold fraction?
    split
    · next heq => exact absurd rfl (hstops '.' (by simp [heq])).2
    · rfl
  | some digits =>
    obtain ⟨htake, hdrop⟩ := run_digits (h digits rfl) fun c hc => (hstops c hc).1
    rw [fractionText, List.cons_append, fraction?, htake, hdrop]

theorem read_power {p : Option TenPower} {rest : List Char} (h : ∀ q ∈ p, Word Char.isDigit q.digits)
    (hrest : EndsNumeral rest) : power? (powerText p ++ rest) = some (p, rest) := by
  cases p with
  | none =>
    rw [powerText, List.nil_append]
    unfold power?
    split
    · exact absurd rfl (hrest 'e' rfl).2.2.1
    · exact absurd rfl (hrest 'E' rfl).2.2.2
    · rfl
  | some p =>
    obtain ⟨upper, sign, digits⟩ := p
    obtain ⟨d, ds, rfl, hd⟩ := (h _ rfl).exists_cons
    have hrun := run_digits (h _ rfl).all fun c hc => (hrest c hc).1
    have hsign : Sign.read (Sign.text sign ++ (d :: ds ++ rest)) = (sign, d :: ds ++ rest) :=
      read_sign (by simpa using ne_sign_of_isDigit hd)
    have hread : TenPower.read? upper (Sign.text sign ++ (d :: ds ++ rest)) =
        some (⟨upper, sign, d :: ds⟩, rest) := by
      rw [TenPower.read?, hsign]
      simp only [hrun]
    cases upper <;> simpa [powerText, TenPower.text, power?] using hread

theorem text_eq (n : Numeral) :
    n.text = Sign.text n.sign ++ (n.whole ++ (fractionText n.fraction ++ powerText n.power)) := by
  obtain ⟨sign, whole, fraction, power⟩ := n
  cases fraction <;> cases power <;> simp [text, fractionText, powerText]

/-- A well-formed numeral is read off a text that does not go on with it. -/
theorem read?_text_append {n : Numeral} (h : n.WellFormed) {rest : List Char} (hrest : EndsNumeral rest) :
    read? (n.text ++ rest) = some (n, rest) := by
  obtain ⟨sign, whole, fraction, power⟩ := n
  obtain ⟨hwhole, hfraction, hpower⟩ := h
  dsimp only at hwhole hfraction hpower
  obtain ⟨d, ds, rfl, hd⟩ := hwhole.exists_cons
  have hstops : ∀ c ∈ (fractionText fraction ++ (powerText power ++ rest)).head?, c.isDigit = false := by
    cases fraction with
    | none => exact fun c hc => (head_powerText_append hrest c hc).1
    | some digits =>
      rintro c ⟨⟩
      decide
  have hsign : Sign.read (Sign.text sign ++ (d :: ds ++ (fractionText fraction ++ (powerText power ++ rest)))) =
      (sign, d :: ds ++ (fractionText fraction ++ (powerText power ++ rest))) :=
    read_sign (by simpa using ne_sign_of_isDigit hd)
  obtain ⟨htake, hdrop⟩ := run_digits hwhole.all hstops
  rw [text_eq, List.append_assoc, List.append_assoc, List.append_assoc, read?, hsign]
  simp only [htake, hdrop, read_fraction hfraction hrest, List.isEmpty_cons, Bool.false_and, Bool.false_eq_true,
    ↓reduceIte, read_power hpower hrest, Option.map_some]

/-- A well-formed numeral is read back from its text. -/
theorem ofText?_text {n : Numeral} (h : n.WellFormed) : ofText? n.text = some n := by
  have hread := @read?_text_append n h [] (by simp [EndsNumeral])
  rw [List.append_nil] at hread
  rw [ofText?, hread]

/-- A numeral is an integer when it has neither a point nor a power of ten. -/
theorem integer?_text {n : Numeral} (h : n.WellFormed) :
    integer? n.text = if n.isWhole then some (signed n.sign (natOfDigits n.whole)) else none := by
  obtain ⟨sign, whole, fraction, power⟩ := n
  have hwhole : Word Char.isDigit whole := h.whole
  obtain ⟨d, ds, rfl, hd⟩ := hwhole.exists_cons
  have hsign : Sign.read (Sign.text sign ++ (d :: ds ++ (fractionText fraction ++ powerText power))) =
      (sign, d :: ds ++ (fractionText fraction ++ powerText power)) :=
    read_sign (by simpa using ne_sign_of_isDigit hd)
  have hdigits : (d :: ds).all Char.isDigit = true := List.all_eq_true.2 hwhole.all
  have hpoint : '.'.isDigit = false := by decide
  have hmark : 'e'.isDigit = false ∧ 'E'.isDigit = false := by decide
  rw [text_eq, integer?, hsign]
  cases fraction with
  | some digits => simp [isWhole, fractionText, hpoint]
  | none =>
    cases power with
    | none => simpa [isWhole, fractionText, powerText] using hdigits
    | some p => cases hp : p.upperCase <;> simp [isWhole, fractionText, powerText, TenPower.text, hp, hmark]

/-! ## Values -/

theorem natOfDigits_append_zeros (digits : List Char) (k : Nat) :
    natOfDigits (digits ++ List.replicate k '0') = natOfDigits digits * 10 ^ k := by
  rw [natOfDigits, Nat.ofDigitChars_append, Nat.ofDigitChars_replicate_zero, Nat.mul_comm]
  rfl

theorem natOfDigits_zeros_append (k : Nat) (digits : List Char) :
    natOfDigits (List.replicate k '0' ++ digits) = natOfDigits digits := by
  rw [natOfDigits, Nat.ofDigitChars_append, Nat.ofDigitChars_replicate_zero, Nat.mul_zero]
  rfl

end Numeral

/-! ## Layouts -/

namespace Layout

def signOf (negative : Bool) : Option Sign := if negative then some .minus else none

/-- A numeral is written for a decimal when it is well-formed and of the decimal's sign and magnitude. -/
structure Writes (d : Decimal) (n : Numeral) : Prop where
  wellFormed : n.WellFormed
  negative : (Decimal.ofNumeral n).negative = d.negative
  magnitude : (Decimal.ofNumeral n).magnitude = d.magnitude

theorem negative_ofNumeral_signOf (negative : Bool) (whole : List Char) (fraction : Option (List Char))
    (power : Option TenPower) :
    (Decimal.ofNumeral ⟨signOf negative, whole, fraction, power⟩).negative = negative := by
  cases negative <;> simp [Decimal.ofNumeral, signOf]

theorem text_signOf (negative : Bool) :
    Sign.text (signOf negative) = if negative then ['-'] else [] := by
  cases negative <;> rfl

/-- The mantissa of a numeral with its digits before and after the point, and the power of ten that is
left over. -/
theorem magnitude_ofNumeral (sign : Option Sign) (whole : List Char) (fraction : Option (List Char))
    (power : Option TenPower) :
    (Decimal.ofNumeral ⟨sign, whole, fraction, power⟩).magnitude =
      Numeral.natOfDigits (whole ++ fraction.getD []) *
        10 ^ ((match power with
          | some p => Numeral.signed p.sign (Numeral.natOfDigits p.digits)
          | none => 0) - ((fraction.getD []).length : Int)) :=
  rfl

/-- Digits with the sign of a decimal are written for it if they stand for its magnitude. -/
theorem writes_digits {d : Decimal} {whole : List Char} {fraction : Option (List Char)}
    (hwhole : Word Char.isDigit whole) (hfraction : ∀ digits ∈ fraction, ∀ c ∈ digits, c.isDigit = true)
    (hvalue : Numeral.natOfDigits (whole ++ fraction.getD []) * 10 ^ (-((fraction.getD []).length : Int)) =
      d.magnitude) :
    Writes d ⟨signOf d.negative, whole, fraction, none⟩ := by
  refine ⟨⟨hwhole, hfraction, by simp⟩, negative_ofNumeral_signOf .., ?_⟩
  rw [magnitude_ofNumeral]
  simpa using hvalue

theorem isDigit_of_mem_zeros {k : Nat} : ∀ c ∈ List.replicate k '0', c.isDigit = true := by
  intro c hc
  rw [List.eq_of_mem_replicate hc]
  decide

section Plain

variable {d : Decimal} {digits : List Char} (hdigits : Numeral.ofNat d.mantissa = digits)

include hdigits

theorem word_of_mantissa : Word Char.isDigit digits := hdigits ▸ Numeral.word_ofNat d.mantissa

theorem natOfDigits_of_mantissa : Numeral.natOfDigits digits = d.mantissa :=
  hdigits ▸ Numeral.natOfDigits_ofNat d.mantissa

/-- No digit stands before the point. -/
theorem writes_leadingZeros {k : Nat} (hexponent : d.exponent = -((k + digits.length : Nat) : Int)) :
    Writes d ⟨signOf d.negative, ['0'], some (List.replicate k '0' ++ digits), none⟩ := by
  refine writes_digits (Reader.word_of_all (by decide) (by decide)) ?_ ?_
  · rintro ds ⟨⟩ c hc
    rcases List.mem_append.1 hc with hc | hc
    · exact isDigit_of_mem_zeros c hc
    · exact (word_of_mantissa hdigits).all c hc
  · have hcons : ['0'] ++ (List.replicate k '0' ++ digits) = List.replicate (k + 1) '0' ++ digits := by
      rw [List.replicate_succ]
      rfl
    rw [Option.getD_some, hcons, Numeral.natOfDigits_zeros_append, natOfDigits_of_mantissa hdigits,
      Decimal.magnitude, hexponent, List.length_append, List.length_replicate]

/-- No digit stands after the point, if there is one. -/
theorem writes_trailingZeros {k : Nat} (hexponent : d.exponent = k) (wholePoint : Bool) :
    Writes d ⟨signOf d.negative, digits ++ List.replicate k '0', if wholePoint then some ['0'] else none, none⟩ := by
  have hword := word_of_mantissa hdigits
  have hwhole : Word Char.isDigit (digits ++ List.replicate k '0') := by
    refine ⟨by simp [hword.ne_nil], fun c hc => ?_⟩
    rcases List.mem_append.1 hc with hc | hc
    · exact hword.all c hc
    · exact isDigit_of_mem_zeros c hc
  have hvalue := natOfDigits_of_mantissa hdigits
  cases wholePoint with
  | false =>
    refine writes_digits hwhole (by simp) ?_
    simp only [Bool.false_eq_true, ↓reduceIte, Option.getD_none, List.append_nil]
    rw [Numeral.natOfDigits_append_zeros, hvalue, Decimal.magnitude, hexponent]
    simp
  | true =>
    refine writes_digits hwhole (by simp) ?_
    have hcons : digits ++ List.replicate k '0' ++ ['0'] = digits ++ List.replicate (k + 1) '0' := by
      rw [List.replicate_succ', List.append_assoc]
    simp only [↓reduceIte, Option.getD_some]
    rw [hcons, Numeral.natOfDigits_append_zeros, hvalue, Decimal.magnitude, hexponent]
    push_cast
    rw [pow_succ]
    norm_num
    ring

/-- The point stands between two digits. -/
theorem writes_split {places : Nat} (hplaces : 0 < places)
    (hexponent : d.exponent = -((digits.length - places : Nat) : Int)) :
    Writes d ⟨signOf d.negative, digits.take places, some (digits.drop places), none⟩ := by
  have hword := word_of_mantissa hdigits
  have htake : digits.take places ≠ [] := by
    rw [ne_eq, List.take_eq_nil_iff]
    rintro (h | h)
    · omega
    · exact hword.ne_nil h
  refine writes_digits ⟨htake, fun c hc => hword.all c (List.mem_of_mem_take hc)⟩ ?_ ?_
  · rintro ds ⟨⟩ c hc
    exact hword.all c (List.mem_of_mem_drop hc)
  · rw [Option.getD_some, List.take_append_drop, natOfDigits_of_mantissa hdigits, Decimal.magnitude, hexponent,
      List.length_drop]

end Plain

/-- A decimal with a point among its digits. -/
theorem exists_writes_plain (wholePoint : Bool) (d : Decimal) :
    ∃ n : Numeral, Writes d n ∧ n.text = Sign.text (signOf d.negative) ++
      plain wholePoint (Numeral.ofNat d.mantissa)
        (d.exponent + (Numeral.ofNat d.mantissa).length - 1) := by
  obtain ⟨digits, hdigits⟩ : ∃ ds, Numeral.ofNat d.mantissa = ds := ⟨_, rfl⟩
  obtain ⟨top, htop⟩ : ∃ t, t = d.exponent + (digits.length : Int) - 1 := ⟨_, rfl⟩
  rw [hdigits, ← htop]
  unfold plain
  by_cases hneg : top < 0
  · rw [if_pos hneg]
    exact ⟨_, writes_leadingZeros hdigits (k := (-top - 1).toNat) (by omega), by simp [Numeral.text]⟩
  · rw [if_neg hneg]
    dsimp only
    by_cases hlength : digits.length ≤ top.toNat + 1
    · rw [if_pos hlength]
      refine ⟨_, writes_trailingZeros hdigits (k := top.toNat + 1 - digits.length) (by omega) wholePoint, ?_⟩
      cases wholePoint <;> simp [Numeral.text]
    · rw [if_neg hlength]
      exact ⟨_, writes_split hdigits (Nat.succ_pos top.toNat) (by omega), by simp [Numeral.text]⟩

def powerOf (plusPower : Bool) (top : Int) : TenPower where
  upperCase := false
  sign := if top < 0 then some .minus else if plusPower then some .plus else none
  digits := Numeral.ofNat top.natAbs

theorem text_powerOf (plusPower : Bool) (top : Int) :
    (powerOf plusPower top).text =
      'e' :: (if plusPower && 0 ≤ top then ['+'] else []) ++ Numeral.ofInt top := by
  cases top with
  | ofNat n =>
    have hnot : ¬ (n : Int) < 0 := by omega
    cases plusPower <;> simp [powerOf, TenPower.text, Sign.text, Sign.char, Numeral.ofInt, hnot]
  | negSucc n =>
    have hneg : Int.negSucc n < 0 := Int.negSucc_lt_zero n
    have hnot : ¬ 0 ≤ Int.negSucc n := by omega
    simp [powerOf, TenPower.text, Sign.text, Sign.char, Numeral.ofInt, hneg, hnot]

theorem signed_powerOf (plusPower : Bool) (top : Int) :
    Numeral.signed (powerOf plusPower top).sign (Numeral.natOfDigits (powerOf plusPower top).digits) =
      top := by
  rw [powerOf, Numeral.natOfDigits_ofNat, Numeral.signed]
  by_cases h : top < 0
  · simp only [h, ↓reduceIte]
    omega
  · cases plusPower <;> simp [h] <;> omega

/-- A decimal with one digit before the point and a power of ten. -/
theorem exists_writes_powered (plusPower : Bool) (d : Decimal) :
    ∃ n : Numeral, Writes d n ∧ n.text = Sign.text (signOf d.negative) ++
      powered plusPower (Numeral.ofNat d.mantissa)
        (d.exponent + (Numeral.ofNat d.mantissa).length - 1) := by
  obtain ⟨negative, mantissa, exponent⟩ := d
  obtain ⟨digits, hdigits⟩ : ∃ ds, Numeral.ofNat mantissa = ds := ⟨_, rfl⟩
  have hword := word_of_mantissa (d := ⟨negative, mantissa, exponent⟩) hdigits
  have hvalue := natOfDigits_of_mantissa (d := ⟨negative, mantissa, exponent⟩) hdigits
  rw [hdigits]
  dsimp only
  obtain ⟨top, htop⟩ : ∃ t, t = exponent + (digits.length : Int) - 1 := ⟨_, rfl⟩
  have hpower : ∀ p ∈ some (powerOf plusPower top), Word Char.isDigit p.digits := by
    rintro p ⟨⟩
    exact Numeral.word_ofNat _
  rw [← htop]
  unfold powered
  match digits, hword, hvalue, htop with
  | [first], hword, hvalue, htop =>
    refine ⟨⟨signOf negative, [first], none, some (powerOf plusPower top)⟩,
      ⟨⟨hword, by simp, hpower⟩, negative_ofNumeral_signOf .., ?_⟩, ?_⟩
    · rw [magnitude_ofNumeral, Option.getD_none, List.append_nil, hvalue, Decimal.magnitude]
      simp only [signed_powerOf, List.length_nil]
      congr 2
      simp at htop
      omega
    · simp [Numeral.text, text_powerOf]
  | first :: second :: rest, hword, hvalue, htop =>
    refine ⟨⟨signOf negative, [first], some (second :: rest), some (powerOf plusPower top)⟩,
      ⟨⟨⟨by simp, fun c hc => hword.all c ?_⟩, ?_, hpower⟩, negative_ofNumeral_signOf .., ?_⟩, ?_⟩
    · rw [List.mem_singleton.1 hc]
      exact List.mem_cons_self
    · rintro ds ⟨⟩ c hc
      exact hword.all c (List.mem_cons_of_mem _ hc)
    · rw [magnitude_ofNumeral, Option.getD_some, List.singleton_append, hvalue, Decimal.magnitude]
      simp only [signed_powerOf, List.length_cons] at htop ⊢
      congr 2
      push_cast at htop ⊢
      omega
    · simp [Numeral.text, text_powerOf]

/-- Every layout writes a decimal as a numeral of its sign and magnitude. -/
theorem exists_writes (l : Layout) (d : Decimal) : ∃ n, Writes d n ∧ n.text = l.writeDecimal d := by
  unfold writeDecimal
  rw [← text_signOf]
  dsimp only
  split
  · exact exists_writes_plain l.wholePoint d
  · exact exists_writes_powered l.plusPower d

end Layout

end RosSchema

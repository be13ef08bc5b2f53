import RosSchema.Literal.Coerce
import RosSchema.Proofs.Idl.KeywordMembers
import RosSchema.Proofs.Literal.RoundTrip

/-!
# Numerals in documents

A document reads a numeral by its form and fits it to the declared type afterwards, where a line reads it by
that type at once. The two agree on integer types. On floating point types they agree as long as the
numeral has a point or a power of ten, or fits in 64 bits: no other numeral is a literal of a document.
-/

namespace RosSchema

open Literal (coerceScalar decodeAs decodeFloat decodeInteger decodeScalar integerValue literalType)
open Reader (Word)

/-! ## Whole numerals -/

namespace Numeral

def wholeValue (n : Numeral) : Int := signed n.sign (natOfDigits n.whole)

theorem signed_neg_iff (sign : Option Sign) (k : Nat) : signed sign k < 0 ↔ sign = some .minus ∧ k ≠ 0 := by
  unfold signed
  split
  · next h => simp [h, Nat.pos_iff_ne_zero]
  · next h => simp [h]

@[simp] theorem natAbs_signed (sign : Option Sign) (k : Nat) : (signed sign k).natAbs = k := by
  unfold signed
  split <;> simp

/-- A numeral starts with a sign or a digit, and no letter of hexadecimal numbers is the second character. -/
theorem exists_text_append_eq_cons {n : Numeral} (h : n.WellFormed) {rest : List Char}
    (hrest : ∀ c ∈ rest.head?, c ≠ 'x' ∧ c ≠ 'X') :
    ∃ c tail, n.text ++ rest = c :: tail ∧ (c = '+' ∨ c = '-' ∨ c.isDigit = true) ∧
      ∀ d ∈ tail.head?, d ≠ 'x' ∧ d ≠ 'X' := by
  obtain ⟨sign, whole, fraction, power⟩ := n
  obtain ⟨d, ds, rfl, hd⟩ := (show Word Char.isDigit whole from h.whole).exists_cons
  have hne {c : Char} (hc : c.isDigit = true) : c ≠ 'x' ∧ c ≠ 'X' := by
    constructor <;> rintro rfl <;> exact absurd hc (by decide)
  have hmarks : ∀ c ∈ (fractionText fraction ++ (powerText power ++ rest)).head?, c ≠ 'x' ∧ c ≠ 'X' := by
    cases fraction with
    | some digits =>
      rintro c ⟨⟩
      decide
    | none =>
      cases power with
      | none => exact hrest
      | some p =>
        cases hp : p.upperCase <;>
          · simp only [fractionText, powerText, TenPower.text, hp]
            rintro c ⟨⟩
            decide
  have hdigits : ∀ c ∈ (ds ++ (fractionText fraction ++ (powerText power ++ rest))).head?, c ≠ 'x' ∧ c ≠ 'X' := by
    cases ds with
    | nil => exact hmarks
    | cons e ds =>
      rintro c ⟨⟩
      exact hne (h.whole.all e (by simp))
  simp only [text_eq, List.append_assoc]
  rcases sign with _ | (_ | _)
  · exact ⟨d, _, rfl, .inr (.inr hd), hdigits⟩
  · exact ⟨'+', _, rfl, .inl rfl, by rintro c ⟨⟩; exact hne hd⟩
  · exact ⟨'-', _, rfl, .inr (.inl rfl), by rintro c ⟨⟩; exact hne hd⟩

end Numeral

/-- The integers of 64 bits, with a sign or without one. -/
def FitsWord (i : Int) : Prop := -(2 ^ 63) ≤ i ∧ i < 2 ^ 64

/-- A decimal without a power of ten is read as the number nearest to its integer. -/
theorem Decimal.toBinary64_integer (negative : Bool) {k : Nat} (hpos : 0 < k) (hk : k < 2 ^ 64) :
    Decimal.toBinary64 ⟨negative, k, 0⟩ = .nearest negative k 1 := by
  have hsize : (Nat.toDigits 10 k).length ≤ 20 := Nat.toDigits_length 10 k 20 (by decide) (hk.trans (by decide))
  have hleast : (k = 0 || decide (((Nat.toDigits 10 k).length : Int) + 0 ≤ -324)) = false := by
    simp only [Bool.or_eq_false_iff, decide_eq_false_iff_not]
    omega
  have hgreatest : ¬ 310 ≤ ((Nat.toDigits 10 k).length : Int) + 0 := by omega
  have hscale : scaleDown 10 (-0) k 1 = (k, 1) := by simp [scaleDown]
  simp only [toBinary64, hleast, hgreatest, hscale, Bool.false_eq_true, ↓reduceIte]

/-- A whole numeral of 64 bits is read as the number that its integer becomes. -/
theorem sameNumber_ofInt_wholeValue {n : Numeral} (hwhole : n.isWhole = true) (hfits : FitsWord n.wholeValue) :
    (Binary64.ofInt n.wholeValue).sameNumber (Decimal.ofNumeral n).toBinary64 = true := by
  obtain ⟨sign, whole, fraction, power⟩ := n
  obtain ⟨rfl, rfl⟩ : fraction = none ∧ power = none := by simpa [Numeral.isWhole] using hwhole
  have hdecimal : Decimal.ofNumeral ⟨sign, whole, none, none⟩ =
      ⟨sign = some .minus, Numeral.natOfDigits whole, 0⟩ := by
    simp [Decimal.ofNumeral]
  have hvalue : Numeral.wholeValue ⟨sign, whole, none, none⟩ =
      Numeral.signed sign (Numeral.natOfDigits whole) := rfl
  rw [hvalue] at hfits ⊢
  rw [hdecimal, Binary64.ofInt, Numeral.natAbs_signed]
  generalize Numeral.natOfDigits whole = k at hfits ⊢
  have habs := Numeral.natAbs_signed sign k
  rcases Nat.eq_zero_or_pos k with rfl | hpos
  · -- a zero keeps its sign in a line only
    rw [Decimal.toBinary64_of_mantissa_eq_zero rfl, Binary64.nearest, if_pos rfl]
    cases sign with
    | none => decide
    | some s => cases s <;> decide
  · have hk : k < 2 ^ 64 := by
      obtain ⟨hlow, hhigh⟩ := hfits
      omega
    have hsign : decide (Numeral.signed sign k < 0) = decide (sign = some .minus) := by
      simp [Numeral.signed_neg_iff, hpos.ne']
    rw [Decimal.toBinary64_integer _ hpos hk, hsign]
    simp [Binary64.sameNumber, Literal.isNaN_nearest]

/-! ## Numerals by their form -/

inductive Value.IsInteger (i : Int) : Value → Prop where
  | int : IsInteger i (.int i)
  | uint (n : Nat) (eq : i = n) : IsInteger i (.uint n)

namespace Idl

variable {n : Numeral}

theorem numeralValue?_of_not_whole (h : n.isWhole = false) :
    numeralValue? n = some (.float (Decimal.ofNumeral n).toBinary64) := by
  rw [numeralValue?, if_neg (by simp [h])]

/-- A whole numeral of 64 bits is an integer. -/
theorem exists_numeralValue? (h : n.isWhole = true) (hfits : FitsWord n.wholeValue) :
    ∃ v, numeralValue? n = some v ∧ v.IsInteger n.wholeValue := by
  obtain ⟨hlow, hhigh⟩ := hfits
  have hvalue : Numeral.signed n.sign (Numeral.natOfDigits n.whole) = n.wholeValue := rfl
  have hpow : (Nat.pow 2 63 : Nat) = 2 ^ 63 := rfl
  have hpow' : (Nat.pow 2 64 : Nat) = 2 ^ 64 := rfl
  rw [numeralValue?, if_pos h, hvalue, hpow, hpow']
  by_cases hsigned : n.wholeValue < 2 ^ 63
  · exact ⟨_, if_pos (by simpa using ⟨hlow, hsigned⟩), .int⟩
  · refine ⟨.uint n.wholeValue.toNat, ?_, .uint _ (by omega)⟩
    rw [if_neg, if_pos] <;>
      · simp only [Bool.and_eq_true, decide_eq_true_eq, Nat.cast_pow, Nat.cast_ofNat]
        omega

/-- A whole numeral of more than 64 bits has no value. -/
theorem numeralValue?_eq_none (h : n.isWhole = true) (hfits : ¬ FitsWord n.wholeValue) :
    numeralValue? n = none := by
  have hvalue : Numeral.signed n.sign (Numeral.natOfDigits n.whole) = n.wholeValue := rfl
  have hpow : (Nat.pow 2 63 : Nat) = 2 ^ 63 := rfl
  have hpow' : (Nat.pow 2 64 : Nat) = 2 ^ 64 := rfl
  unfold FitsWord at hfits
  rw [numeralValue?, if_pos h, hvalue, hpow, hpow', if_neg, if_neg] <;>
    · simp only [Bool.and_eq_true, decide_eq_true_eq, Nat.cast_pow, Nat.cast_ofNat]
      omega

end Idl

/-! ## Values by the declared type -/

namespace Literal

variable {type : String} {p : Primitive} {n : Numeral} {i : Int} {v : Value}

theorem toOption_integerValue (p : Primitive) (i : Int) (text text' : String) :
    (integerValue p i text).toOption = (integerValue p i text').toOption := by
  unfold integerValue
  split
  · rfl
  · split <;> rfl

/-- Integer types have less than 64 bits. -/
theorem fitsWord_of_integerValue {text : String} (h : integerValue p i text = .ok v) : FitsWord i := by
  unfold integerValue at h
  split at h
  · cases h
  · next least greatest hrange =>
    split at h
    · cases h
    · next hin =>
      simp only [Bool.or_eq_true, decide_eq_true_eq, not_or, not_lt] at hin
      have hbounds : -(2 ^ 63) ≤ least ∧ greatest < 2 ^ 64 := by
        cases p <;> simp only [Primitive.range?, Option.some.injEq, Prod.mk.injEq, reduceCtorEq] at hrange <;> omega
      exact ⟨hbounds.1.trans hin.1, hin.2.trans_lt hbounds.2⟩

theorem isFloat_of_range {bounds : Int × Int} (h : p.range? = some bounds) : p.isFloat = false := by
  cases p <;> simp_all [Primitive.range?, Primitive.isFloat]

/-- An integer is fitted to an integer type by the range of the type. -/
theorem coerceScalar_of_range {bounds : Int × Int} (literal : literalType type = .ok p)
    (range : p.range? = some bounds) {i : Int} (hv : v.IsInteger i) :
    ∃ text, coerceScalar type v = integerValue p i text := by
  have hfloat : ¬ p.isFloat = true := by simp [isFloat_of_range range]
  have hrange : p.range?.isSome = true := by rw [range]; rfl
  rw [coerceScalar, literal]
  cases hv with
  | int => exact ⟨_, (if_neg hfloat).trans (if_pos hrange)⟩
  | uint n eq =>
    subst eq
    exact ⟨_, (if_neg hfloat).trans (if_pos hrange)⟩

section Float

variable (tag : Primitive.ofTag? type = some p) (hfloat : p.isFloat = true)
include tag hfloat

theorem literalType_of_isFloat : literalType type = .ok p :=
  literalType_of_tag tag (by cases p <;> simp_all [Primitive.isFloat, Primitive.hasLiterals])

/-- A numeral of a floating point type is read as the number nearest to it. -/
theorem decodeScalar_text_of_isFloat (hn : n.WellFormed) :
    decodeScalar type n.text = .ok (.float (Decimal.ofNumeral n).toBinary64) := by
  rw [decodeScalar_eq, literalType_of_isFloat tag hfloat, (trimmed_of_word (word_text hn)).trim_eq]
  change decodeAs p type n.text = _
  rw [decodeAs_of_isFloat hfloat, decodeFloat, Numeral.ofText?_text hn]

theorem coerceScalar_float (x : Binary64) : coerceScalar type (.float x) = .ok (.float x) := by
  rw [coerceScalar, literalType_of_isFloat tag hfloat]
  exact if_pos hfloat

theorem coerceScalar_integer_of_isFloat (hv : v.IsInteger i) :
    coerceScalar type v = .ok (.float (.ofInt i)) := by
  rw [coerceScalar, literalType_of_isFloat tag hfloat]
  cases hv with
  | int => exact if_pos hfloat
  | uint m eq =>
    subst eq
    exact if_pos hfloat

end Float

section Integer

variable (tag : Primitive.ofTag? type = some p) (hrange : p.range?.isSome = true)
include tag hrange

theorem literalType_of_range : literalType type = .ok p ∧ p.isFloat = false := by
  obtain ⟨bounds, hbounds⟩ := Option.isSome_iff_exists.1 hrange
  have hliterals : p.hasLiterals = true := by cases p <;> simp_all [Primitive.range?, Primitive.hasLiterals]
  exact ⟨literalType_of_tag tag hliterals, isFloat_of_range hbounds⟩

/-- A numeral of an integer type is read as its integer, if it is one. -/
theorem decodeScalar_text_of_range (hn : n.WellFormed) :
    (decodeScalar type n.text).toOption =
      if n.isWhole then (integerValue p n.wholeValue "").toOption else none := by
  obtain ⟨⟨least, greatest⟩, hbounds⟩ := Option.isSome_iff_exists.1 hrange
  have hdecode : decodeScalar type n.text = decodeInteger p n.text := by
    rw [decodeScalar_eq, (literalType_of_range tag hrange).1, (trimmed_of_word (word_text hn)).trim_eq]
    exact decodeAs_of_range hbounds type n.text
  rw [hdecode, decodeInteger, Numeral.integer?_text hn]
  cases n.isWhole with
  | true => exact toOption_integerValue p _ _ _
  | false => rfl

theorem coerceScalar_float_of_range (x : Binary64) : (coerceScalar type (.float x)).toOption = none := by
  obtain ⟨hliteral, hfloat⟩ := literalType_of_range tag hrange
  rw [coerceScalar, hliteral]
  exact congrArg Except.toOption (if_neg (by simp [hfloat]))

theorem coerceScalar_integer_of_range (hv : v.IsInteger i) :
    (coerceScalar type v).toOption = (integerValue p i "").toOption := by
  obtain ⟨bounds, hbounds⟩ := Option.isSome_iff_exists.1 hrange
  obtain ⟨text, htext⟩ := coerceScalar_of_range (literalType_of_range tag hrange).1 hbounds hv
  rw [htext, toOption_integerValue]

end Integer

end Literal

/-! ## The two readings -/

def Primitive.isNumeric (p : Primitive) : Bool := p.isFloat || p.range?.isSome

theorem Value.sameNumber_self {p : Primitive} {v : Value} (h : Literal.Fits p v) : v.SameNumber v := by
  cases h with
  | float x _ number => simp [SameNumber, Binary64.sameNumber, number]
  | _ => rfl

open Literal

namespace Idl

variable {type : String} {p : Primitive} {n : Numeral}

/-- What a document makes of a numeral for a type. -/
def coerced? (type : String) (n : Numeral) : Option Value :=
  (numeralValue? n).bind fun v => (coerceScalar type v).toOption

theorem rel_of_isFloat (tag : Primitive.ofTag? type = some p) (hfloat : p.isFloat = true) (hn : n.WellFormed) :
    Option.Rel Value.SameNumber (coerced? type n) (decodeScalar type n.text).toOption ↔
      (n.isWhole = true → FitsWord n.wholeValue) := by
  rw [decodeScalar_text_of_isFloat tag hfloat hn, coerced?]
  cases hwhole : n.isWhole with
  | false =>
    rw [numeralValue?_of_not_whole hwhole, Option.bind_some, coerceScalar_float tag hfloat]
    have hself := Value.sameNumber_self (.float _ hfloat (isNaN_toBinary64 (.ofNumeral n)))
    exact iff_of_true (.some hself) (by simp)
  | true =>
    by_cases hfits : FitsWord n.wholeValue
    · obtain ⟨v, hv, hinteger⟩ := exists_numeralValue? hwhole hfits
      rw [hv, Option.bind_some, coerceScalar_integer_of_isFloat tag hfloat hinteger]
      exact iff_of_true (.some (sameNumber_ofInt_wholeValue hwhole hfits)) (fun _ => hfits)
    · rw [numeralValue?_eq_none hwhole hfits]
      exact iff_of_false (by rintro ⟨⟩) (fun h => hfits (h rfl))

theorem rel_of_range (tag : Primitive.ofTag? type = some p) (hrange : p.range?.isSome = true)
    (hn : n.WellFormed) :
    Option.Rel Value.SameNumber (coerced? type n) (decodeScalar type n.text).toOption := by
  rw [decodeScalar_text_of_range tag hrange hn, coerced?]
  cases hwhole : n.isWhole with
  | false =>
    rw [numeralValue?_of_not_whole hwhole, Option.bind_some, coerceScalar_float_of_range tag hrange]
    exact .none
  | true =>
    by_cases hfits : FitsWord n.wholeValue
    · obtain ⟨v, hv, hinteger⟩ := exists_numeralValue? hwhole hfits
      rw [hv, Option.bind_some, coerceScalar_integer_of_range tag hrange hinteger, if_pos rfl]
      cases hvalue : integerValue p n.wholeValue "" with
      | error e => exact .none
      | ok w => exact .some (Value.sameNumber_self (fits_of_integerValue hvalue))
    · -- what does not fit in 64 bits is in the range of no type
      rw [numeralValue?_eq_none hwhole hfits, if_pos rfl]
      cases hvalue : integerValue p n.wholeValue "" with
      | error e => exact .none
      | ok w => exact absurd (fitsWord_of_integerValue hvalue) hfits

/-- A document and a line agree on a numeral, unless its type is a floating point type and it is a whole
numeral of more than 64 bits. -/
theorem rel_coerced?_decodeScalar (tag : Primitive.ofTag? type = some p) (numeric : p.isNumeric = true)
    (hn : n.WellFormed) :
    Option.Rel Value.SameNumber (coerced? type n) (decodeScalar type n.text).toOption ↔
      (p.isFloat = true → n.isWhole = true → FitsWord n.wholeValue) := by
  cases hfloat : p.isFloat with
  | true => simpa using rel_of_isFloat tag hfloat hn
  | false =>
    have hrange : p.range?.isSome = true := by simpa [Primitive.isNumeric, hfloat] using numeric
    exact iff_of_true (rel_of_range tag hrange hn) (by simp)

end Idl

end RosSchema

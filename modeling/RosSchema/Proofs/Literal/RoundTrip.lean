import RosSchema.Proofs.Line.FieldLine
import RosSchema.Proofs.Number.Overflow

/-!
# Literals written back

The canonical text of a value of a type is a literal of that type again and stands for the same value, in an
array as well. Only the magnitudes that are too large for a finite number are lost: they are accepted as
infinity, whose canonical text is no literal.
-/

namespace RosSchema

/-- Two values are one number, in which the sign of a zero does not count, or they are the same. -/
def Value.SameNumber : Value → Value → Prop
  | .float x, .float y => x.sameNumber y = true
  | v, w => v = w

namespace Literal

open RosSchema.Text (trim)

variable {type : String} {p : Primitive} {text : List Char} {v : Value}

theorem literalType_of_tag (tag : Primitive.ofTag? type = some p) (h : p.hasLiterals = true) :
    literalType type = .ok p := by
  simp [literalType, tag, h]

/-! ## Truth values, integers and strings -/

/-- Only floating point numbers can have a sign that is not written. -/
theorem Fits.normal_eq_self (h : Fits p v) (hfloat : p.isFloat = false) : v.normal = v := by
  cases h with
  | float x type => rw [hfloat] at type; cases type
  | _ => rw [Value.normal]

theorem Fits.isFinite (h : Fits p v) (hfloat : p.isFloat = false) : IsFinite v := by
  cases h with
  | float x type => rw [hfloat] at type; cases type
  | _ => trivial

/-- Decoding undoes encoding for truth values, integers and strings, and for arrays of them. -/
theorem decode_encode (tag : Primitive.ofTag? type = some p)
    (kind : p = .bool ∨ p.range?.isSome = true ∨ p.isString = true) :
    (∀ v, Fits p v → decodeScalar type v.encode = .ok v) ∧
      ∀ items, (∀ v ∈ items, Fits p v) → decodeArray type (Value.array items).encode = .ok (.array items) := by
  have ⟨hkind, hfloat⟩ : p.hasLiterals = true ∧ p.isFloat = false := by
    cases p <;> simp_all [Primitive.hasLiterals, Primitive.isFloat, Primitive.range?, Primitive.isString]
  have hliteral : literalType type = .ok p := literalType_of_tag tag hkind
  constructor
  · intro v hv
    exact (decodeScalar_encode hliteral hv).2 ⟨hv.isFinite hfloat, (hv.normal_eq_self hfloat).symm⟩
  · intro items hitems
    have hnormal : items.map Value.normal = items :=
      (List.map_congr_left fun v hv => (hitems v hv).normal_eq_self hfloat).trans (List.map_id' items)
    rw [decodeArray_encode hliteral hitems fun v hv => (hitems v hv).isFinite hfloat, Value.normal,
      Value.normalItems_eq_map, hnormal]

/-- Strings that need each kind of quotation, and characters that separate elements elsewhere. -/
theorem decode_encode_of_awkwardStrings :
    (Primitive.ofTag? "wstring" = some .wstring ∧
      (Primitive.wstring = .bool ∨ Primitive.wstring.range?.isSome = true ∨ Primitive.wstring.isString = true)) ∧
      decodeArray "wstring" (Value.array
        [.string "", .string "a, \"b\"]", .string "'\\' # \n\x01", .string "𝄞\u2028"]).encode =
        .ok (.array [.string "", .string "a, \"b\"]", .string "'\\' # \n\x01", .string "𝄞\u2028"]) := by
  have tag : Primitive.ofTag? "wstring" = some .wstring := by decide
  refine ⟨⟨tag, .inr (.inr rfl)⟩, (decode_encode tag (.inr (.inr rfl))).2 _ fun v hv => ?_⟩
  simp only [List.mem_cons, List.not_mem_nil, or_false] at hv
  rcases hv with rfl | rfl | rfl | rfl <;> exact .string _ rfl

/-! ## Floating point numbers -/

/-- Only the sign of a zero is lost in the normal form of a number. -/
theorem Fits.sameNumber_normal (h : Fits p v) : v.normal.SameNumber v := by
  cases h with
  | float x _ number =>
    rw [Value.normal]
    split
    · next hzero =>
      have hcanonical : (Binary64.zero false).isNaN = false ∧ (Binary64.zero false).isZero = true := by
        decide
      simp [Value.SameNumber, Binary64.sameNumber, hcanonical, hzero]
    · simp [Value.SameNumber, Binary64.sameNumber, number]
  | _ => rfl

/-- Of the literals of a floating point type, those can be written back whose magnitude is below the
middle between the greatest finite number and the first power of two after it. -/
theorem exists_decodeScalar_encode_iff (tag : Primitive.ofTag? type = some p) (hfloat : p.isFloat = true)
    (read : decodeScalar type text = .ok v) :
    (∃ w, decodeScalar type v.encode = .ok w ∧ w.SameNumber v) ↔
      ∃ n, Numeral.ofText? (trim text) = some n ∧ (Decimal.ofNumeral n).magnitude < Binary64.overflow := by
  have hliteral : literalType type = .ok p :=
    literalType_of_tag tag (by cases p <;> simp_all [Primitive.isFloat, Primitive.hasLiterals])
  obtain ⟨q, hq, hdecode⟩ := decodeScalar_eq_ok.1 read
  obtain rfl : p = q := Except.ok.inj (hliteral.symm.trans hq)
  have hfits : Fits p v := fits_of_decodeAs hdecode
  -- writing back loses no finite number, and an infinity is never read again
  have hfinite : (∃ w, decodeScalar type v.encode = .ok w ∧ w.SameNumber v) ↔ IsFinite v := by
    simp only [decodeScalar_encode hliteral hfits]
    constructor
    · rintro ⟨_, hw, -⟩
      exact hw.1
    · intro h
      exact ⟨v.normal, ⟨h, rfl⟩, hfits.sameNumber_normal⟩
  rw [decodeAs_of_isFloat hfloat, decodeFloat] at hdecode
  rw [hfinite]
  cases hn : Numeral.ofText? (trim text) with
  | none =>
    rw [hn] at hdecode
    cases hdecode
  | some n =>
    rw [hn] at hdecode
    cases hdecode
    simp [IsFinite, Decimal.isFinite_toBinary64_iff]

/-- The sign of a zero is lost, which stays the same number. -/
theorem exists_decodeScalar_encode_of_negativeZero :
    (Primitive.ofTag? "float32" = some .float32 ∧ Primitive.float32.isFloat = true ∧
      decodeScalar "float32" " -0.0 ".toList = .ok (.float (.zero true))) ∧
      ∃ w, decodeScalar "float32" (Value.float (.zero true)).encode = .ok w ∧
        w.SameNumber (.float (.zero true)) := by
  have tag : Primitive.ofTag? "float32" = some .float32 := by decide
  have read : decodeScalar "float32" " -0.0 ".toList = .ok (.float (.zero true)) := by decide
  have numeral : Numeral.ofText? (trim " -0.0 ".toList) =
      some ⟨some .minus, ['0'], some ['0'], none⟩ := by decide
  have magnitude : (Decimal.ofNumeral ⟨some .minus, ['0'], some ['0'], none⟩).magnitude = 0 := by
    rw [Decimal.magnitude, show (Decimal.ofNumeral _).mantissa = 0 by decide, Nat.cast_zero, zero_mul]
  exact ⟨⟨tag, rfl, read⟩, (exists_decodeScalar_encode_iff tag rfl read).2
    ⟨_, numeral, magnitude ▸ Binary64.overflow_pos⟩⟩

/-- A numeral that is too large is accepted as infinity, whose canonical text is no literal. -/
theorem not_exists_decodeScalar_encode_of_infinity :
    decodeScalar "float64" "1e999".toList = .ok (.float (.infinity false)) ∧
      ¬ ∃ w, decodeScalar "float64" (Value.float (.infinity false)).encode = .ok w ∧
        w.SameNumber (.float (.infinity false)) := by
  have refused : decodeScalar "float64" (Value.float (.infinity false)).encode =
      .error (.badLiteral "float64" (.notNumber "Infinity")) := by decide
  refine ⟨by decide, fun ⟨w, hw, _⟩ => ?_⟩
  rw [refused] at hw
  cases hw

end Literal

end RosSchema

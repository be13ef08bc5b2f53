import RosSchema.Proofs.Literal.Digits
import RosSchema.Proofs.Literal.Scalars

/-!
# Integers

An integer literal is a run of decimal digits with at most one sign before it. It is decoded to the number
that it spells where that is a value of the type, however many digits there are; it is out of range where it
is not, and every other text is no integer.
-/

namespace RosSchema

/-- An integer type: whether it has negative values, and the bits that its values take. -/
structure IntegerType where
  signed : Bool
  bits : Nat
  deriving DecidableEq, Repr

namespace IntegerType

def least (t : IntegerType) : Int := if t.signed then -(2 ^ (t.bits - 1)) else 0

def greatest (t : IntegerType) : Int := if t.signed then 2 ^ (t.bits - 1) - 1 else 2 ^ t.bits - 1

inductive Holds (t : IntegerType) : Value → Int → Prop where
  | int (i : Int) (signed : t.signed = true) : Holds t (.int i) i
  | uint (n : Nat) (signed : t.signed = false) : Holds t (.uint n) n

variable {t : IntegerType} {v : Value} {i : Int}

theorem holds_of_signed (h : t.signed = true) : t.Holds v i ↔ v = .int i := by
  constructor
  · rintro (_ | ⟨n, hn⟩)
    · rfl
    · rw [h] at hn
      cases hn
  · rintro rfl
    exact .int i h

theorem holds_of_unsigned (h : t.signed = false) : t.Holds v i ↔ 0 ≤ i ∧ v = .uint i.toNat := by
  constructor
  · rintro (⟨_, hi⟩ | ⟨n, -⟩)
    · rw [h] at hi
      cases hi
    · exact ⟨Int.natCast_nonneg n, rfl⟩
  · rintro ⟨hi, rfl⟩
    obtain ⟨n, rfl⟩ := Int.eq_ofNat_of_zero_le hi
    exact .uint n h

def named : List (String × IntegerType) :=
  [("int8", ⟨true, 8⟩), ("int16", ⟨true, 16⟩), ("int32", ⟨true, 32⟩), ("int64", ⟨true, 64⟩),
   ("uint8", ⟨false, 8⟩), ("uint16", ⟨false, 16⟩), ("uint32", ⟨false, 32⟩), ("uint64", ⟨false, 64⟩),
   ("byte", ⟨true, 8⟩), ("char", ⟨false, 8⟩)]

end IntegerType

namespace Literal

open RosSchema.Text (trim)

/-- A text that spells an integer: at least one decimal digit, with at most one sign before all of them. -/
inductive SpellsInteger : List Char → Int → Prop where
  | bare {digits : List Char} {n : Nat} (nonempty : digits ≠ []) (value : Digits 10 digits n) :
      SpellsInteger digits n
  | plus {digits : List Char} {n : Nat} (nonempty : digits ≠ []) (value : Digits 10 digits n) :
      SpellsInteger ('+' :: digits) n
  | minus {digits : List Char} {n : Nat} (nonempty : digits ≠ []) (value : Digits 10 digits n) :
      SpellsInteger ('-' :: digits) (-n)

/-! ## Reading integers -/

theorem digits_ten {digits : List Char} {n : Nat} :
    Digits 10 digits n ↔ (∀ c ∈ digits, c.isDigit = true) ∧ n = Numeral.natOfDigits digits :=
  digits_iff_ofDigitChars fun _ _ => isDigit_ten

/-- After its sign, an integer is read as the number of its digits. -/
theorem integer?_of_read {sign : Option Sign} {digits cs : List Char} (h : Sign.read cs = (sign, digits))
    {i : Int} : Numeral.integer? cs = some i ↔
      digits ≠ [] ∧ ∃ n, Digits 10 digits n ∧ i = Numeral.signed sign n := by
  have hread : Numeral.integer? cs = if !digits.isEmpty && digits.all Char.isDigit then
      some (Numeral.signed sign (Numeral.natOfDigits digits)) else none := by
    rw [Numeral.integer?, h]
  have hdigits : (!digits.isEmpty && digits.all Char.isDigit) = true ↔
      digits ≠ [] ∧ ∀ c ∈ digits, c.isDigit = true := by
    simp
  rw [hread, Option.ite_none_right_eq_some, hdigits]
  simp only [digits_ten]
  constructor
  · rintro ⟨⟨hne, hall⟩, hi⟩
    exact ⟨hne, _, ⟨hall, rfl⟩, (Option.some.inj hi).symm⟩
  · rintro ⟨hne, _, ⟨hall, rfl⟩, rfl⟩
    exact ⟨⟨hne, hall⟩, rfl⟩

/-- The integer of a text is the one that it spells. -/
theorem integer?_eq_some {cs : List Char} {i : Int} : Numeral.integer? cs = some i ↔ SpellsInteger cs i := by
  constructor
  · obtain ⟨sign, digits, hread⟩ : ∃ sign digits, Sign.read cs = (sign, digits) := ⟨_, _, rfl⟩
    have hcs := Sign.text_append_read cs
    rw [hread] at hcs
    rw [integer?_of_read hread, ← hcs]
    rintro ⟨hne, n, hn, rfl⟩
    rcases sign with _ | _ | _
    · exact .bare hne hn
    · exact .plus hne hn
    · exact .minus hne hn
  · rintro (⟨hne, hn⟩ | ⟨hne, hn⟩ | ⟨hne, hn⟩)
    · have hhead : ∀ c ∈ cs.head?, c ≠ '+' ∧ c ≠ '-' := fun c hc =>
        Numeral.ne_sign_of_isDigit ((digits_ten.1 hn).1 c (List.mem_of_mem_head? hc))
      exact (integer?_of_read (@Numeral.read_sign none _ hhead)).2 ⟨hne, _, hn, rfl⟩
    · exact (integer?_of_read rfl).2 ⟨hne, _, hn, rfl⟩
    · exact (integer?_of_read rfl).2 ⟨hne, _, hn, rfl⟩

/-! ## Integers in the range of a type -/

/-- The integer types are the primitive types with a range, which is that of their bits. -/
theorem exists_literalType {type : String} {t : IntegerType} (h : (type, t) ∈ IntegerType.named) :
    ∃ p, literalType type = .ok p ∧ p.range? = some (t.least, t.greatest) ∧ p.isSigned = t.signed ∧
      p.tag = foldAlias type := by
  simp only [IntegerType.named, List.mem_cons, Prod.mk.injEq, List.not_mem_nil, or_false] at h
  rcases h with h | h | h | h | h | h | h | h | h | h
  all_goals
    obtain ⟨rfl, rfl⟩ := h
    exact ⟨_, rfl, by decide, by decide, by decide⟩

section Values

variable {p : Primitive} {t : IntegerType} {i : Int} {text : String}

theorem integerValue_eq (range : p.range? = some (t.least, t.greatest)) : integerValue p i text =
    if i < t.least ∨ t.greatest < i then .error (.outOfRange text t.least t.greatest)
    else .ok (if p.isSigned then .int i else .uint i.toNat) := by
  simp [integerValue, range]

/-- A number is a value of an integer type where it lies in the range of the type. -/
theorem integerValue_eq_ok (range : p.range? = some (t.least, t.greatest)) (sign : p.isSigned = t.signed)
    {v : Value} : integerValue p i text = .ok v ↔ t.least ≤ i ∧ i ≤ t.greatest ∧ t.Holds v i := by
  have hvalue (hlow : t.least ≤ i) :
      t.Holds v i ↔ (if t.signed then Value.int i else .uint i.toNat) = v := by
    cases hsigned : t.signed with
    | true => rw [IntegerType.holds_of_signed hsigned, if_pos rfl, eq_comm]
    | false =>
      have hi : 0 ≤ i := by simpa [IntegerType.least, hsigned] using hlow
      rw [IntegerType.holds_of_unsigned hsigned, if_neg Bool.false_ne_true, eq_comm]
      exact and_iff_right hi
  rw [integerValue_eq range, sign]
  split
  · next hout =>
    constructor
    · intro h
      cases h
    · rintro ⟨hlow, hhigh, -⟩
      omega
  · next hin =>
    obtain ⟨hlow, hhigh⟩ : t.least ≤ i ∧ i ≤ t.greatest := by omega
    rw [Except.ok.injEq, ← hvalue hlow]
    exact ⟨fun h => ⟨hlow, hhigh, h⟩, fun h => h.2.2⟩

/-- A number outside of the range of a type is refused with the range. -/
theorem integerValue_eq_error (range : p.range? = some (t.least, t.greatest)) {e : Error} :
    integerValue p i text = .error e ↔
      (i < t.least ∨ t.greatest < i) ∧ e = .outOfRange text t.least t.greatest := by
  rw [integerValue_eq range]
  split
  · next hout => simp [hout, eq_comm]
  · next hin => simp [hin]

end Values

/-- A text is decoded for an integer type exactly if it spells an integer in the range of the type, and to
that integer. It is out of range if it spells another one, and no integer if it spells none. -/
theorem decodeScalar_integer {type : String} {t : IntegerType} (h : (type, t) ∈ IntegerType.named)
    (text : List Char) :
    (∀ v, decodeScalar type text = .ok v ↔
      ∃ i, SpellsInteger (trim text) i ∧ t.least ≤ i ∧ i ≤ t.greatest ∧ t.Holds v i) ∧
    (∀ e, decodeScalar type text = .error e ↔
      (∃ i, SpellsInteger (trim text) i ∧ (i < t.least ∨ t.greatest < i) ∧
        e = .outOfRange (String.ofList (trim text)) t.least t.greatest) ∨
      (∀ i, ¬ SpellsInteger (trim text) i) ∧
        e = .badLiteral (foldAlias type) (.notInteger (String.ofList (trim text)))) := by
  obtain ⟨p, hp, range, sign, htag⟩ := exists_literalType h
  have hdecode : decodeScalar type text = decodeInteger p (trim text) := by
    rw [decodeScalar_eq, hp]
    exact decodeAs_of_range range type (trim text)
  rw [hdecode, decodeInteger, ← htag]
  simp only [← integer?_eq_some]
  cases hi : Numeral.integer? (trim text) with
  | none => simp [eq_comm]
  | some i => simp [integerValue_eq_ok range sign, integerValue_eq_error range]

/-- Leading zeros do not count, a number can be of any length, and a second sign is no digit. -/
theorem decodeScalar_integer_of_byte : ("byte", ⟨true, 8⟩) ∈ IntegerType.named ∧
    decodeScalar "byte" " -0128\t".toList = .ok (.int (-128)) ∧
    decodeScalar "byte" ('+' :: List.replicate 40 '9') =
      .error (.outOfRange (String.ofList ('+' :: List.replicate 40 '9')) (-128) 127) ∧
    decodeScalar "byte" "--1".toList = .error (.badLiteral "int8" (.notInteger "--1")) := by
  have named : ("byte", ⟨true, 8⟩) ∈ IntegerType.named := by decide
  have least : SpellsInteger "-0128".toList (-128) :=
    .minus (n := 128) (by decide) (digits_ten.2 ⟨List.all_eq_true.1 (by decide), by decide⟩)
  have nines : Digits 10 (List.replicate 40 '9') (10 ^ 40 - 1) := digits_ten.2 ⟨List.all_eq_true.1 (by decide), by decide⟩
  have huge : SpellsInteger ('+' :: List.replicate 40 '9') ((10 ^ 40 - 1 : Nat) : Int) :=
    .plus (by decide) nines
  have twice : ∀ i, ¬ SpellsInteger "--1".toList i := fun i h => by
    have hread := integer?_eq_some.2 h
    cases hread
  refine ⟨named, ?_, ?_, ?_⟩
  · exact ((decodeScalar_integer named _).1 _).2 ⟨-128, least, by decide, by decide, .int _ rfl⟩
  · exact ((decodeScalar_integer named _).2 _).2 (.inl ⟨_, huge, by decide, rfl⟩)
  · exact ((decodeScalar_integer named _).2 _).2 (.inr ⟨twice, rfl⟩)

end Literal

end RosSchema

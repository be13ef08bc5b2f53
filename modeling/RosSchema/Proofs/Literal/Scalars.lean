import RosSchema.Proofs.Canonical.NormalForm
import RosSchema.Proofs.Literal.Quoted
import RosSchema.Proofs.Number.Shortest
import RosSchema.Proofs.Number.Text

/-!
# Scalars read back

The canonical text of a scalar is decoded by the type of the scalar to the normal form of the scalar,
unless it is the text of an infinity, which is no numeral. So scalars of one type and one text have one
normal form.
-/

namespace RosSchema.Literal

open RosSchema.Text (trim)
open Reader (Word)

/-! ## Decoding by a primitive type -/

def decodeAs (p : Primitive) (type : String) (text : List Char) : Except Error Value :=
  match p with
  | .bool => decodeBool type text
  | .float32 | .float64 => decodeFloat type text
  | .string | .wstring => (decodeString text).map .string
  | p => decodeInteger p text

theorem decodeScalar_eq (type : String) (raw : List Char) :
    decodeScalar type raw = literalType type >>= fun p => decodeAs p type (trim raw) := by
  rw [decodeScalar]
  refine congrArg _ (funext fun p => ?_)
  cases p <;> rfl

theorem decodeScalar_eq_ok {type : String} {raw : List Char} {v : Value} :
    decodeScalar type raw = .ok v ↔
      ∃ p, literalType type = .ok p ∧ decodeAs p type (trim raw) = .ok v := by
  rw [decodeScalar_eq, Steps.bind_eq_ok]

inductive Fits (p : Primitive) : Value → Prop where
  | bool (b : Bool) (type : p = .bool) : Fits p (.bool b)
  | float (x : Binary64) (type : p.isFloat = true) (number : x.isNaN = false) : Fits p (.float x)
  | string (s : String) (type : p.isString = true) : Fits p (.string s)
  | signed (i least greatest : Int) (type : p.range? = some (least, greatest))
      (sign : p.isSigned = true) (range : least ≤ i ∧ i ≤ greatest) : Fits p (.int i)
  | unsigned (n : Nat) (greatest : Int) (type : p.range? = some (0, greatest))
      (sign : p.isSigned = false) (range : (n : Int) ≤ greatest) : Fits p (.uint n)

theorem integerValue_signed {p : Primitive} {i least greatest : Int} {text : String}
    (type : p.range? = some (least, greatest)) (sign : p.isSigned = true)
    (range : least ≤ i ∧ i ≤ greatest) : integerValue p i text = .ok (.int i) := by
  have hin : ¬ (i < least ∨ greatest < i) := by omega
  simp [integerValue, type, sign, hin]

theorem integerValue_unsigned {p : Primitive} {n : Nat} {greatest : Int} {text : String}
    (type : p.range? = some (0, greatest)) (sign : p.isSigned = false) (range : (n : Int) ≤ greatest) :
    integerValue p n text = .ok (.uint n) := by
  have hin : ¬ ((n : Int) < 0 ∨ greatest < n) := by omega
  simp [integerValue, type, sign, hin]

/-- Unsigned types start at zero. -/
theorem least_of_isSigned_eq_false {p : Primitive} {least greatest : Int}
    (type : p.range? = some (least, greatest)) (sign : p.isSigned = false) : least = 0 := by
  cases p <;> simp_all [Primitive.range?, Primitive.isSigned]

theorem fits_of_integerValue {p : Primitive} {i : Int} {text : String} {v : Value}
    (h : integerValue p i text = .ok v) : Fits p v := by
  unfold integerValue at h
  split at h
  · cases h
  · next least greatest type =>
    split at h
    · cases h
    · next hin =>
      simp only [Bool.or_eq_true, decide_eq_true_eq, not_or, not_lt] at hin
      cases sign : p.isSigned with
      | true =>
        rw [sign] at h
        cases h
        exact .signed i least greatest type sign hin
      | false =>
        obtain rfl := least_of_isSigned_eq_false type sign
        rw [sign] at h
        cases h
        exact .unsigned i.toNat greatest type sign (by omega)

theorem fits_of_decodeInteger {p : Primitive} {text : List Char} {v : Value}
    (h : decodeInteger p text = .ok v) : Fits p v := by
  unfold decodeInteger at h
  split at h
  · exact fits_of_integerValue h
  · cases h

theorem fits_of_decodeBool {type : String} {text : List Char} {v : Value}
    (h : decodeBool type text = .ok v) : Fits .bool v := by
  unfold decodeBool at h
  split at h <;> cases h <;> exact .bool _ rfl

theorem isNaN_ofCode (negative : Bool) (code : Nat) : (Binary64.ofCode negative code).isNaN = false := by
  have hle : min code Binary64.infinityCode ≤ Binary64.infinityCode := Nat.min_le_right _ _
  exact decide_eq_false (Nat.not_lt.2 hle)

theorem isNaN_nearest (negative : Bool) (n d : Nat) : (Binary64.nearest negative n d).isNaN = false := by
  unfold Binary64.nearest
  split
  · exact isNaN_ofCode _ _
  · exact isNaN_ofCode _ _

/-- Every decimal is read as a number. -/
theorem isNaN_toBinary64 (d : Decimal) : d.toBinary64.isNaN = false := by
  unfold Decimal.toBinary64
  dsimp only
  split
  · exact isNaN_ofCode _ _
  split
  · exact isNaN_ofCode _ _
  exact isNaN_nearest _ _ _

theorem fits_of_decodeFloat {p : Primitive} (hp : p.isFloat = true) {type : String} {text : List Char}
    {v : Value} (h : decodeFloat type text = .ok v) : Fits p v := by
  unfold decodeFloat at h
  split at h
  · cases h
    exact .float _ hp (isNaN_toBinary64 _)
  · cases h

/-- What is decoded for a type is a value of the type. -/
theorem fits_of_decodeAs {p : Primitive} {type : String} {text : List Char} {v : Value}
    (h : decodeAs p type text = .ok v) : Fits p v := by
  have hstring {p : Primitive} (hp : p.isString = true) {r : Except Error String}
      (h : r.map Value.string = .ok v) : Fits p v := by
    obtain ⟨s, -, rfl⟩ := Steps.map_eq_ok.1 h
    exact .string s hp
  cases p with
  | bool => exact fits_of_decodeBool h
  | float32 => exact fits_of_decodeFloat rfl h
  | float64 => exact fits_of_decodeFloat rfl h
  | string => exact hstring rfl h
  | wstring => exact hstring rfl h
  | _ => exact fits_of_decodeInteger h

theorem exists_fits_of_decodeScalar {type : String} {raw : List Char} {v : Value}
    (h : decodeScalar type raw = .ok v) : ∃ p, literalType type = .ok p ∧ Fits p v := by
  obtain ⟨p, hp, hv⟩ := decodeScalar_eq_ok.1 h
  exact ⟨p, hp, fits_of_decodeAs hv⟩

theorem Fits.isString {p : Primitive} {v : Value} (h : Fits p v) :
    p.isString = true ↔ ∃ s, v = .string s := by
  cases h with
  | bool b type => simp [type, Primitive.isString]
  | float x type => cases p <;> simp_all [Primitive.isString, Primitive.isFloat]
  | string s type => simp [type]
  | signed i least greatest type => cases p <;> simp_all [Primitive.isString, Primitive.range?]
  | unsigned n greatest type => cases p <;> simp_all [Primitive.isString, Primitive.range?]

/-! ## The texts of scalars -/

def isLiteralPart (c : Char) : Bool := c.isAlphanum || c == '.' || c == '+' || c == '-'

theorem isLiteralPart_of_isDigit {c : Char} (h : c.isDigit = true) : isLiteralPart c = true := by
  simp [isLiteralPart, Char.isAlphanum, h]

theorem isLiteralPart_of_mem_sign {sign : Option Sign} {c : Char} (h : c ∈ Sign.text sign) :
    isLiteralPart c = true := by
  rcases sign with _ | (_ | _)
  · cases h
  · obtain rfl := List.mem_singleton.1 h
    decide
  · obtain rfl := List.mem_singleton.1 h
    decide

theorem word_ofNat (n : Nat) : Word isLiteralPart (Numeral.ofNat n) :=
  ⟨(Numeral.word_ofNat n).ne_nil, fun c hc => isLiteralPart_of_isDigit ((Numeral.word_ofNat n).all c hc)⟩

theorem word_ofInt (i : Int) : Word isLiteralPart (Numeral.ofInt i) := by
  cases i with
  | ofNat n => exact word_ofNat n
  | negSucc n =>
    refine ⟨List.cons_ne_nil _ _, fun c hc => ?_⟩
    rcases List.mem_cons.1 hc with rfl | hc
    · decide
    · exact (word_ofNat (n + 1)).all c hc

theorem word_text {n : Numeral} (h : n.WellFormed) : Word isLiteralPart n.text := by
  obtain ⟨sign, whole, fraction, power⟩ := n
  obtain ⟨hwhole, hfraction, hpower⟩ := h
  dsimp only at hwhole hfraction hpower
  refine ⟨by simp [Numeral.text, hwhole.ne_nil], fun c hc => ?_⟩
  simp only [Numeral.text, List.mem_append] at hc
  rcases hc with ((hc | hc) | hc) | hc
  · exact isLiteralPart_of_mem_sign hc
  · exact isLiteralPart_of_isDigit (hwhole.all c hc)
  · cases fraction with
    | none => cases hc
    | some digits =>
      rcases List.mem_cons.1 hc with rfl | hc
      · decide
      · exact isLiteralPart_of_isDigit (hfraction digits rfl c hc)
  · cases power with
    | none => cases hc
    | some p =>
      simp only [TenPower.text, List.cons_append, List.mem_cons, List.mem_append] at hc
      rcases hc with hc | hc | hc
      · rw [hc]
        cases p.upperCase <;> decide
      · exact isLiteralPart_of_mem_sign hc
      · exact isLiteralPart_of_isDigit ((hpower p rfl).all c hc)

/-- The text of a number is that of a numeral, or one of four words. -/
theorem write_cases (x : Binary64) :
    (x.isFinite = true ∧ x.isZero = true ∧ Layout.canonical.write x = ['0']) ∨
      (x.isFinite = true ∧ x.isZero = false ∧
        ∃ n, Layout.Writes (x.shortest .up) n ∧ Layout.canonical.write x = n.text) ∨
      (x.isFinite = false ∧
        Layout.canonical.write x ∈ ["NaN".toList, "-Infinity".toList, "Infinity".toList]) := by
  by_cases hnan : x.isNaN = true
  · have hfinite : x.isFinite = false := by
      simp only [Binary64.isNaN, decide_eq_true_eq] at hnan
      simp only [Binary64.isFinite, decide_eq_false_iff_not]
      omega
    exact .inr (.inr ⟨hfinite, by simp [Layout.write, hnan, Layout.canonical]⟩)
  by_cases hinf : x.isInfinite = true
  · have hfinite : x.isFinite = false := by
      simp only [Binary64.isInfinite, beq_iff_eq] at hinf
      simp only [Binary64.isFinite, decide_eq_false_iff_not]
      omega
    refine .inr (.inr ⟨hfinite, ?_⟩)
    cases hneg : x.negative <;> simp [Layout.write, hnan, hinf, Layout.canonical, hneg]
  have hfinite : x.isFinite = true := by
    simp only [Binary64.isNaN, decide_eq_true_eq] at hnan
    simp only [Binary64.isInfinite, beq_iff_eq] at hinf
    simp only [Binary64.isFinite, decide_eq_true_eq]
    omega
  cases hzero : x.isZero with
  | true =>
    refine .inl ⟨hfinite, rfl, ?_⟩
    cases hneg : x.negative <;> simp [Layout.write, hnan, hinf, Layout.canonical, hzero, hneg]
  | false =>
    obtain ⟨n, hn, htext⟩ := Layout.exists_writes Layout.canonical (x.shortest .up)
    refine .inr (.inl ⟨hfinite, rfl, n, hn, ?_⟩)
    rw [htext, Layout.write, if_neg hnan, if_neg hinf, hzero]
    rfl

theorem word_write (x : Binary64) : Word isLiteralPart (Layout.canonical.write x) := by
  rcases write_cases x with ⟨-, -, h⟩ | ⟨-, -, n, hn, h⟩ | ⟨-, h⟩
  · rw [h]
    exact Reader.word_of_all (by decide) (by decide)
  · rw [h]
    exact word_text hn.wellFormed
  · simp only [List.mem_cons, List.not_mem_nil, or_false] at h
    rcases h with h | h | h <;> rw [h] <;> exact Reader.word_of_all (by decide) (by decide)

/-- The canonical text of a scalar other than a string is a word. -/
theorem Fits.word {p : Primitive} {v : Value} (h : Fits p v) (hp : p.isString = false) :
    Word isLiteralPart v.encode := by
  cases h with
  | bool b => cases b <;> exact Reader.word_of_all (by decide) (by decide)
  | float x => exact word_write x
  | string s type => simp [hp] at type
  | signed i => exact word_ofInt i
  | unsigned n => exact word_ofNat n

/-! ## Decoding canonical texts -/

def IsFinite : Value → Prop
  | .float x => x.isFinite = true
  | _ => True

theorem integer?_ofNat (n : Nat) : Numeral.integer? (Numeral.ofNat n) = some (n : Int) := by
  have hword := Numeral.word_ofNat n
  obtain ⟨d, ds, hd, hdigit⟩ := hword.exists_cons
  have hsign : Sign.read (Sign.text none ++ Numeral.ofNat n) = (none, Numeral.ofNat n) := by
    refine Numeral.read_sign fun c hc => ?_
    rw [hd] at hc
    cases hc
    exact Numeral.ne_sign_of_isDigit hdigit
  change Sign.read (Numeral.ofNat n) = _ at hsign
  have hall : (!(Numeral.ofNat n).isEmpty && (Numeral.ofNat n).all Char.isDigit) = true := by
    rw [hd] at hword ⊢
    simpa using hword.all
  simp only [Numeral.integer?, hsign, hall, ↓reduceIte, Numeral.natOfDigits_ofNat, Numeral.signed,
    reduceCtorEq]

theorem integer?_ofInt (i : Int) : Numeral.integer? (Numeral.ofInt i) = some i := by
  cases i with
  | ofNat n => exact integer?_ofNat n
  | negSucc n =>
    have hword := Numeral.word_ofNat (n + 1)
    obtain ⟨d, ds, hd, -⟩ := hword.exists_cons
    have hall : (!(Numeral.ofNat (n + 1)).isEmpty && (Numeral.ofNat (n + 1)).all Char.isDigit) = true := by
      rw [hd] at hword ⊢
      simpa using hword.all
    simp only [Numeral.ofInt, Numeral.integer?, Sign.read, hall, ↓reduceIte, Numeral.natOfDigits_ofNat,
      Numeral.signed]
    rfl

theorem decodeInteger_ofNat {p : Primitive} {n : Nat} {v : Value}
    (h : ∀ text, integerValue p n text = .ok v) : decodeInteger p (Numeral.ofNat n) = .ok v := by
  simp only [decodeInteger, integer?_ofNat]
  exact h _

theorem decodeInteger_ofInt {p : Primitive} {i : Int} {v : Value}
    (h : ∀ text, integerValue p i text = .ok v) : decodeInteger p (Numeral.ofInt i) = .ok v := by
  simp only [decodeInteger, integer?_ofInt]
  exact h _

theorem decodeAs_of_range {p : Primitive} {least greatest : Int} (h : p.range? = some (least, greatest))
    (type : String) (text : List Char) : decodeAs p type text = decodeInteger p text := by
  cases p <;> first | rfl | cases h

theorem decodeAs_of_isFloat {p : Primitive} (h : p.isFloat = true) (type : String) (text : List Char) :
    decodeAs p type text = decodeFloat type text := by
  cases p <;> first | rfl | cases h

theorem decodeAs_of_isString {p : Primitive} (h : p.isString = true) (type : String)
    (text : List Char) : decodeAs p type text = (decodeString text).map .string := by
  cases p <;> first | rfl | cases h

/-- The text of a finite number is read as the number, without the sign of a zero. -/
theorem decodeFloat_write {x : Binary64} (h : x.isFinite = true) (type : String) :
    decodeFloat type (Layout.canonical.write x) = .ok (Value.float x).normal := by
  rcases write_cases x with ⟨-, hzero, hx⟩ | ⟨-, hzero, n, hn, hx⟩ | ⟨hx, -⟩
  · have hread : Numeral.ofText? ['0'] = some ⟨none, ['0'], none, none⟩ := by decide
    have hmantissa : (Decimal.ofNumeral ⟨none, ['0'], none, none⟩).mantissa = 0 := by decide
    rw [hx, decodeFloat, hread, Value.normal, if_pos hzero]
    simp only [Decimal.toBinary64_of_mantissa_eq_zero hmantissa]
    rfl
  · rw [hx, decodeFloat, Numeral.ofText?_text hn.wellFormed, Value.normal, if_neg (by simp [hzero])]
    simp only [Binary64.toBinary64_shortest h hzero .up hn.negative hn.magnitude]
  · simp [h] at hx

/-- The text of an infinity is read as no number. -/
theorem isFinite_of_decodeFloat {x : Binary64} {type : String} {v : Value}
    (h : decodeFloat type (Layout.canonical.write x) = .ok v) : x.isFinite = true := by
  rcases write_cases x with ⟨hx, -⟩ | ⟨hx, -⟩ | ⟨-, hx⟩
  · exact hx
  · exact hx
  · have hnone : Numeral.ofText? (Layout.canonical.write x) = none := by
      simp only [List.mem_cons, List.not_mem_nil, or_false] at hx
      rcases hx with hx | hx | hx <;> rw [hx] <;> decide
    rw [decodeFloat, hnone] at h
    cases h

/-- The canonical text of a finite scalar is decoded to its normal form. -/
theorem decodeAs_encode {p : Primitive} {v : Value} (h : Fits p v) (hfinite : IsFinite v)
    (type : String) : decodeAs p type v.encode = .ok v.normal := by
  cases h with
  | bool b htype =>
    subst htype
    cases b <;> rfl
  | float x htype => exact (decodeAs_of_isFloat htype _ _).trans (decodeFloat_write hfinite type)
  | string s htype =>
    rw [decodeAs_of_isString htype, Value.encode, decodeString_quote, String.ofList_toList, Value.normal]
    rfl
  | signed i least greatest htype sign range =>
    rw [decodeAs_of_range htype, Value.normal]
    exact decodeInteger_ofInt fun _ => integerValue_signed htype sign range
  | unsigned n greatest htype sign range =>
    rw [decodeAs_of_range htype, Value.normal]
    exact decodeInteger_ofNat fun _ => integerValue_unsigned htype sign range

/-- Only the canonical text of a finite scalar is decoded. -/
theorem isFinite_of_decodeAs_encode {p : Primitive} {v w : Value} (h : Fits p v) {type : String}
    (hw : decodeAs p type v.encode = .ok w) : IsFinite v := by
  cases h with
  | float x htype =>
    rw [decodeAs_of_isFloat htype] at hw
    exact isFinite_of_decodeFloat hw
  | _ => trivial

/-! ## Texts that tell values apart -/

/-- The text of an infinity has its sign. -/
theorem eq_of_write_infinity {x y : Binary64} (hx : x.isInfinite = true) (hy : y.isInfinite = true)
    (h : Layout.canonical.write x = Layout.canonical.write y) : x = y := by
  have hwrite (z : Binary64) (hz : z.isInfinite = true) : Layout.canonical.write z =
      (if z.negative then "-Infinity" else "Infinity").toList := by
    have hnan : z.isNaN = false := by
      simp only [Binary64.isInfinite, beq_iff_eq] at hz
      simp [Binary64.isNaN, hz]
    rw [Layout.write, hnan, hz]
    rfl
  rw [hwrite x hx, hwrite y hy] at h
  obtain ⟨xneg, xcode⟩ := x
  obtain ⟨yneg, ycode⟩ := y
  simp only [Binary64.isInfinite, beq_iff_eq] at hx hy
  obtain rfl : xcode = ycode := Fin.ext (hx.trans hy.symm)
  have hne : "-Infinity".toList ≠ "Infinity".toList := by decide
  cases xneg <;> cases yneg
  · rfl
  · exact absurd h.symm hne
  · exact absurd h hne
  · rfl

theorem isInfinite_of_isFinite_eq_false {x : Binary64} (hnan : x.isNaN = false)
    (hfinite : x.isFinite = false) : x.isInfinite = true := by
  simp only [Binary64.isNaN, Binary64.isFinite, decide_eq_false_iff_not] at hnan hfinite
  simp only [Binary64.isInfinite, beq_iff_eq]
  omega

/-- Scalars of one type that have one text are the same but for the signs of zeros. -/
theorem Fits.normal_eq {p : Primitive} {v w : Value} (hv : Fits p v) (hw : Fits p w)
    (h : v.encode = w.encode) : v.normal = w.normal := by
  by_cases hfinite : IsFinite v
  · -- a finite scalar is what its text is decoded to
    have hread := decodeAs_encode hv hfinite ""
    rw [h] at hread
    have hread' := decodeAs_encode hw (isFinite_of_decodeAs_encode hw hread) ""
    exact Except.ok.inj (hread.symm.trans hread')
  · have hfinite' : ¬ IsFinite w := fun hw' => hfinite (by
      have hread := decodeAs_encode hw hw' ""
      rw [← h] at hread
      exact isFinite_of_decodeAs_encode hv hread)
    cases hv with
    | float x _ hx =>
      cases hw with
      | float y _ hy =>
        rw [eq_of_write_infinity (isInfinite_of_isFinite_eq_false hx (Bool.eq_false_iff.2 hfinite))
          (isInfinite_of_isFinite_eq_false hy (Bool.eq_false_iff.2 hfinite')) h]
      | _ => exact absurd trivial hfinite'
    | _ => exact absurd trivial hfinite

end RosSchema.Literal

import RosSchema.Proofs.Line.FieldType
import RosSchema.Proofs.Line.Row
import RosSchema.Proofs.Literal.Arrays
import RosSchema.Proofs.Resolution

/-!
# Canonical lines identify fields

A field that was read from a line is a constant with a literal or a variable, maybe with a default. Its
canonical line is a row from which the normal form of the field can be told. Resolving the type of the
field makes it a field of the same kind.
-/

namespace RosSchema

open Literal (Fits literalType)
open Line (ArrayMark TypeName OneWord IsRow markField lineOf)
open Reader (Word isNamePart)
open Text (isBlank Trimmed)

/-! ## The texts of values in lines -/

namespace Literal

variable {p : Primitive} {v : Value}

theorem trimmed_encode (h : Fits p v) : Trimmed v.encode := by
  cases hp : p.isString with
  | true =>
    obtain ⟨s, rfl⟩ := h.isString.1 hp
    exact trimmed_quote s.toList
  | false => exact trimmed_of_word (h.word hp)

/-- The canonical text of a scalar starts neither with a blank nor like an assignment or an array. -/
theorem head_encode (h : Fits p v) : ∀ c ∈ v.encode.head?, isBlank c = false ∧ c ≠ '=' ∧ c ≠ '[' := by
  intro c hc
  cases hp : p.isString with
  | true =>
    obtain ⟨s, rfl⟩ := h.isString.1 hp
    cases hc
    decide
  | false =>
    have hpart := (h.word hp).all c (List.mem_of_mem_head? hc)
    refine ⟨isBlank_eq_false_of_isLiteralPart hpart, ?_, ?_⟩ <;>
      · rintro rfl
        exact absurd hpart (by decide)

theorem encode_ne_nil (h : Fits p v) : v.encode ≠ [] := by
  cases hp : p.isString with
  | true =>
    obtain ⟨s, rfl⟩ := h.isString.1 hp
    exact List.cons_ne_nil _ _
  | false => exact (h.word hp).ne_nil

/-- The text of a scalar is decoded if the scalar is finite, and to its normal form. -/
theorem decodeScalar_encode {type : String} (hp : literalType type = .ok p) (h : Fits p v) {w : Value} :
    decodeScalar type v.encode = .ok w ↔ IsFinite v ∧ w = v.normal := by
  have hdecode : decodeScalar type v.encode = decodeAs p type v.encode := by
    rw [decodeScalar_eq, hp, (trimmed_encode h).trim_eq]
    rfl
  rw [hdecode]
  constructor
  · intro hw
    have hfinite := isFinite_of_decodeAs_encode h hw
    rw [decodeAs_encode h hfinite] at hw
    exact ⟨hfinite, (Except.ok.inj hw).symm⟩
  · rintro ⟨hfinite, rfl⟩
    exact decodeAs_encode h hfinite type

theorem newline_not_mem_encode (h : Fits p v) : '\n' ∉ v.encode := by
  cases hp : p.isString with
  | true =>
    obtain ⟨s, rfl⟩ := h.isString.1 hp
    exact newline_not_mem_quote s.toList
  | false => exact fun hm => absurd ((h.word hp).all _ hm) (by decide)

theorem newline_not_mem_encode_array {items : List Value} (h : ∀ v ∈ items, Fits p v) :
    '\n' ∉ (Value.array items).encode := by
  have hinner : '\n' ∉ [',', ' '].intercalate (items.map Value.encode) := by
    intro hm
    rcases mem_or_mem_of_mem_intercalate hm with hm | ⟨text, htext, hm⟩
    · exact absurd hm (by decide)
    · obtain ⟨v, hv, rfl⟩ := List.mem_map.1 htext
      exact newline_not_mem_encode (h v hv) hm
  rw [encode_array]
  simp [hinner]

theorem isComplexType_of_literalType {type : String} (h : literalType type = .ok p) :
    isComplexType type = false := by
  unfold literalType at h
  split at h
  · next q hq => simp [isComplexType, hq]
  · cases h

inductive FitsDefault (type : String) : Bool → Value → Prop where
  | scalar (p : Primitive) (v : Value) (literal : literalType type = .ok p) (fits : Fits p v) :
      FitsDefault type false v
  | array (p : Primitive) (items : List Value) (literal : literalType type = .ok p)
      (fits : ∀ v ∈ items, Fits p v) : FitsDefault type true (.array items)

namespace FitsDefault

variable {type : String} {isArray : Bool} {v w : Value}

/-- What is decoded for a field is one of its defaults. -/
theorem of_decode {raw : List Char}
    (h : (if isArray = true then decodeArray type raw else decodeScalar type raw) = .ok v) :
    FitsDefault type isArray v := by
  cases isArray with
  | false =>
    obtain ⟨p, hp, hfits⟩ := exists_fits_of_decodeScalar h
    exact .scalar p v hp hfits
  | true =>
    obtain ⟨p, items, hp, rfl, hfits⟩ := fits_of_decodeArray h
    exact .array p items hp hfits

theorem isComplexType (h : FitsDefault type isArray v) : isComplexType type = false := by
  cases h with
  | scalar p _ literal => exact isComplexType_of_literalType literal
  | array p items literal => exact isComplexType_of_literalType literal

theorem head (h : FitsDefault type isArray v) : ∃ c cs, v.encode = c :: cs ∧ c ≠ '=' := by
  cases h with
  | scalar p _ _ fits =>
    obtain ⟨c, cs, hcs⟩ := List.exists_cons_of_ne_nil (encode_ne_nil fits)
    exact ⟨c, cs, hcs, (head_encode fits c (by rw [hcs]; rfl)).2.1⟩
  | array p items => exact ⟨'[', _, by rw [encode_array]; rfl, by decide⟩

theorem newline (h : FitsDefault type isArray v) : '\n' ∉ v.encode := by
  cases h with
  | scalar p _ _ fits => exact newline_not_mem_encode fits
  | array p items _ fits => exact newline_not_mem_encode_array fits

theorem normal_eq (hv : FitsDefault type isArray v) (hw : FitsDefault type isArray w)
    (h : v.encode = w.encode) : v.normal = w.normal := by
  cases hv with
  | scalar p _ literal fits =>
    cases hw with
    | scalar q _ literal' fits' =>
      rw [literal] at literal'
      cases literal'
      exact fits.normal_eq fits' h
  | array p items literal fits =>
    cases hw with
    | array q items' literal' fits' =>
      rw [literal] at literal'
      cases literal'
      exact Literal.normal_array_eq fits fits' h

end FitsDefault

end Literal

/-- A name that a folded complex type refers to is folded and complex. -/
theorem folded_of_refersTo {type name : String} (hfold : foldAlias type = type)
    (hcomplex : isComplexType type = true) (h : refersTo type name = true) :
    foldAlias name = name ∧ isComplexType name = true := by
  rcases refersTo_iff.1 h with rfl | ⟨front, hname⟩
  · exact ⟨hfold, hcomplex⟩
  · refine folded_of_slash ?_
    rw [hname]
    simp

/-- What a type name refers to is one. -/
theorem Line.TypeName.of_refersTo {type full : String} (h : TypeName type.toList)
    (hfull : OneWord full.toList) (hrefers : refersTo type full = true) : TypeName full.toList := by
  rcases refersTo_iff.1 hrefers with rfl | ⟨front, heq⟩
  · exact h
  · rw [heq] at hfull ⊢
    exact h.append ⟨fun hm => hfull.1 (List.mem_append_left _ hm),
      fun hm => hfull.2 (List.mem_append_left _ hm)⟩

/-! ## The lines of constants and of variables -/

namespace Field

def plain (type name : String) (bound : Option Nat) (array : Option (ArrayMark Nat)) : Field :=
  { markField (.variableOf type name) array with stringBound := bound }

theorem plain_eq (type name : String) (bound : Option Nat) (array : Option (ArrayMark Nat)) :
    (plain type name bound array).type = type ∧ (plain type name bound array).name = name ∧
      (plain type name bound array).isComplex = isComplexType type ∧
      (plain type name bound array).stringBound = bound ∧
      (plain type name bound array).isConstant = false ∧
      (plain type name bound array).value = none ∧ (plain type name bound array).valueText = none ∧
      (plain type name bound array).defaultValue = none := by
  rcases array with _ | (_ | _ | _) <;> exact ⟨rfl, rfl, rfl, rfl, rfl, rfl, rfl, rfl⟩

/-- A variable without a default. -/
theorem plain_eq_self (type name : String) (bound : Option Nat) (array : Option (ArrayMark Nat)) :
    { plain type name bound array with defaultValue := none } = plain type name bound array := by
  rcases array with _ | (_ | _ | _) <;> rfl

theorem markField_variableOf (type name : String) (array : Option (ArrayMark Nat)) :
    markField (.variableOf type name) array = plain type name none array := by
  rcases array with _ | (_ | _ | _) <;> rfl

theorem arrayMark_plain (type name : String) (bound : Option Nat) (array : Option (ArrayMark Nat)) :
    (plain type name bound array).arrayMark = Line.Ros2.markText (array.map ArrayMark.digits) := by
  rcases array with _ | (_ | n | n) <;> rfl

def assignment (v : Value) (text : List Char) : List Char :=
  match v with
  | .string _ => text
  | v => v.encode

theorem assignment_of_not_string {v : Value} (h : ∀ s, v ≠ .string s) (text : List Char) :
    assignment v text = v.encode := by
  cases v with
  | string s => exact absurd rfl (h s)
  | _ => rfl

def defaultText : Option Value → List Char
  | none => []
  | some v => ' ' :: v.encode

theorem constantText_constantOf (type name : String) (v : Value) (text : List Char) (bound : Option Nat) :
    constantText { constantOf type name v (some (String.ofList text)) with stringBound := bound } =
      assignment v text := by
  cases v <;> simp [constantText, constantOf, assignment]

theorem line_constant (type name : String) (v : Value) (text : List Char) (bound : Option Nat) :
    line { constantOf type name v (some (String.ofList text)) with stringBound := bound } =
      lineOf type.toList none none name.toList (" = ".toList ++ assignment v text) := by
  have htext := constantText_constantOf type name v text bound
  have hline : line { constantOf type name v (some (String.ofList text)) with stringBound := bound } =
      constantLine { constantOf type name v (some (String.ofList text)) with stringBound := bound } := rfl
  rw [hline, constantLine, htext]
  simp [constantOf, lineOf, Line.Ros2.boundText, Line.Ros2.markText]

theorem line_variable (type name : String) (bound : Option Nat) (array : Option (ArrayMark Nat))
    (default : Option Value) : line { plain type name bound array with defaultValue := default } =
      lineOf type.toList bound array name.toList (defaultText default) := by
  obtain ⟨htype, hname, -, hbound, hconstant, -⟩ := plain_eq type name bound array
  have hmark : arrayMark { plain type name bound array with defaultValue := default } =
      Line.Ros2.markText (array.map ArrayMark.digits) := arrayMark_plain type name bound array
  have hline : line { plain type name bound array with defaultValue := default } =
      variableLine { plain type name bound array with defaultValue := default } := by
    simp only [line, hconstant]
    rfl
  rw [hline, variableLine, hmark]
  simp only [htype, hname, hbound]
  cases bound <;> cases default <;> simp [lineOf, Line.Ros2.boundText, defaultText]

/-! ## Fields in lines -/

/-- The fields that are read from lines. The text of a string constant stands for the string that `read`
makes of it. -/
inductive InLine (read : List Char → Option String) : Field → Prop where
  | constant (type name : String) (value : Value) (text : List Char) (bound : Option Nat)
      (p : Primitive) (typeName : TypeName type.toList) (word : Word isNamePart name.toList)
      (literal : literalType type = .ok p) (fits : Fits p value) (newline : '\n' ∉ text)
      (string : ∀ s, value = .string s → read text = some s) :
      InLine read { constantOf type name value (some (String.ofList text)) with stringBound := bound }
  | member (type name : String) (bound : Option Nat) (array : Option (ArrayMark Nat))
      (default : Option Value) (typeName : TypeName type.toList) (word : Word isNamePart name.toList)
      (fits : ∀ v ∈ default, Literal.FitsDefault type array.isSome v) :
      InLine read { plain type name bound array with defaultValue := default }

namespace InLine

variable {read : List Char → Option String} {f g : Field}

theorem typeName (h : f.InLine read) : TypeName f.type.toList := by
  cases h with
  | constant type name value text bound p typeName => exact typeName
  | member type name bound array default typeName =>
    rw [(plain_eq type name bound array).1]
    exact typeName

theorem isRow (h : f.InLine read) : IsRow f.line := by
  cases h with
  | constant type name value text bound p typeName word literal fits newline =>
    rw [line_constant]
    refine Line.isRow_lineOf typeName.oneWord word (fun hm => ?_) none none
    rcases List.mem_append.1 hm with hm | hm
    · exact absurd hm (by decide)
    · cases value with
      | string s => exact newline hm
      | _ => exact Literal.newline_not_mem_encode fits hm
  | member type name bound array default typeName word fits =>
    rw [line_variable]
    refine Line.isRow_lineOf typeName.oneWord word ?_ bound array
    cases default with
    | none => exact List.not_mem_nil
    | some v =>
      have hencode := (fits v rfl).newline
      simp [defaultText, hencode]

theorem head_defaultText {default : Option Value} : ∀ c ∈ (defaultText default).head?, c = ' ' := by
  cases default with
  | none => simp [defaultText]
  | some v => simp [defaultText]

theorem head_assigned (cs : List Char) : ∀ c ∈ (" = ".toList ++ cs).head?, c = ' ' := by
  rintro c ⟨⟩
  rfl

/-- No variable has the line of a constant. -/
theorem assigned_ne_defaultText {type : String} {isArray : Bool} {default : Option Value}
    (fits : ∀ v ∈ default, Literal.FitsDefault type isArray v) (cs : List Char) :
    " = ".toList ++ cs ≠ defaultText default := by
  cases default with
  | none => exact List.cons_ne_nil _ _
  | some v =>
    obtain ⟨c, rest, hencode, hc⟩ := (fits v rfl).head
    rw [defaultText, hencode]
    intro heq
    exact hc (List.cons.inj (List.cons.inj heq).2).1.symm

/-- Constants with one text behind the equality sign have one normal form. -/
theorem normal_eq_of_assignment {p : Primitive} {v v' : Value} {text text' : List Char} (fits : Fits p v)
    (fits' : Fits p v') (string : ∀ s, v = .string s → read text = some s)
    (string' : ∀ s, v' = .string s → read text' = some s) (h : assignment v text = assignment v' text') :
    v.normal = v'.normal := by
  cases hp : p.isString with
  | true =>
    -- the text of a string decides which one it is
    obtain ⟨s, rfl⟩ := fits.isString.1 hp
    obtain ⟨s', rfl⟩ := fits'.isString.1 hp
    have hread := string s rfl
    rw [show text = text' from h, string' s' rfl] at hread
    rw [Option.some.inj hread]
  | false =>
    have hnot {w : Value} (hw : Fits p w) : ∀ s, w ≠ .string s := by
      rintro s rfl
      simp [hw.isString.2 ⟨s, rfl⟩] at hp
    rw [assignment_of_not_string (hnot fits), assignment_of_not_string (hnot fits')] at h
    exact fits.normal_eq fits' h

/-- Defaults with one text have one normal form. -/
theorem normal_eq_of_defaultText {type : String} {isArray : Bool} {default default' : Option Value}
    (fits : ∀ v ∈ default, Literal.FitsDefault type isArray v)
    (fits' : ∀ v ∈ default', Literal.FitsDefault type isArray v) (h : defaultText default = defaultText default') :
    default.map Value.normal = default'.map Value.normal := by
  cases default with
  | none =>
    cases default' with
    | none => rfl
    | some v' => exact absurd h.symm (List.cons_ne_nil _ _)
  | some v =>
    cases default' with
    | none => exact absurd h (List.cons_ne_nil _ _)
    | some v' =>
      have hv := (fits v rfl).normal_eq (fits' v' rfl) (List.cons.inj h).2
      rw [Option.map_some, Option.map_some, hv]

theorem normal_member (type name : String) (bound : Option Nat) (array : Option (ArrayMark Nat))
    (default : Option Value) : normal { plain type name bound array with defaultValue := default } =
      { plain type name bound array with defaultValue := default.map Value.normal } :=
  normal_of_isVariable (plain_eq type name bound array).2.2.2.2.1

/-- Fields with one canonical line have one normal form. -/
theorem normal_eq (hf : f.InLine read) (hg : g.InLine read) (h : f.line = g.line) : f.normal = g.normal := by
  cases hf with
  | constant type name value text bound p typeName word literal fits newline string =>
    rw [line_constant] at h
    cases hg with
    | constant type' name' value' text' bound' p' typeName' word' literal' fits' newline' string' =>
      rw [line_constant] at h
      obtain ⟨htype, -, -, hname, htail⟩ := Line.lineOf_inj typeName typeName' word word'
        (head_assigned _) (head_assigned _) h
      obtain rfl := String.toList_inj.1 htype
      obtain rfl := String.toList_inj.1 hname
      rw [literal] at literal'
      cases literal'
      have hassign : assignment value text = assignment value' text' := List.append_cancel_left htail
      have hvalue := normal_eq_of_assignment fits fits' string string' hassign
      rw [normal_of_isConstant rfl, normal_of_isConstant rfl, constantText_constantOf,
        constantText_constantOf, hassign]
      simp only [constantOf, Option.map_some, hvalue]
    | member type' name' bound' array' default' typeName' word' fits' =>
      rw [line_variable] at h
      obtain ⟨-, -, -, -, htail⟩ := Line.lineOf_inj typeName typeName' word word'
        (head_assigned _) head_defaultText h
      exact absurd htail (assigned_ne_defaultText fits' _)
  | member type name bound array default typeName word fits =>
    rw [line_variable] at h
    cases hg with
    | constant type' name' value' text' bound' p' typeName' word' =>
      rw [line_constant] at h
      obtain ⟨-, -, -, -, htail⟩ := Line.lineOf_inj typeName typeName' word word'
        head_defaultText (head_assigned _) h
      exact absurd htail.symm (assigned_ne_defaultText fits _)
    | member type' name' bound' array' default' typeName' word' fits' =>
      rw [line_variable] at h
      obtain ⟨htype, rfl, rfl, hname, htail⟩ := Line.lineOf_inj typeName typeName' word word'
        head_defaultText head_defaultText h
      obtain rfl := String.toList_inj.1 htype
      obtain rfl := String.toList_inj.1 hname
      rw [normal_member, normal_member, normal_eq_of_defaultText fits fits' htail]

/-- A variable stays the same but for its type when that is resolved. -/
theorem exists_plain_of_resolve {names : List String} {type name : String} {bound : Option Nat}
    {array : Option (ArrayMark Nat)} {default : Option Value}
    (h : Field.resolve names { plain type name bound array with defaultValue := default } = .ok g) :
    ∃ full, g = { plain full name bound array with defaultValue := default } ∧ (full = type ∨
      full ∈ names ∧ refersTo type full = true ∧ isComplexType type = true) := by
  have hplain := plain_eq type name bound array
  rw [Field.resolve_eq_ok] at h
  split at h
  · next hcomplex =>
    obtain ⟨full, hresolve, rfl⟩ := h
    have hmem : full ∈ names.filter (refersTo type) := by
      rw [← hplain.1, resolveType_eq_ok.1 hresolve]
      exact List.mem_singleton_self full
    obtain ⟨hname, hrefers⟩ := List.mem_filter.1 hmem
    have hold : isComplexType type = true := hplain.2.2.1 ▸ hcomplex
    have hnew : isComplexType full = true := by
      rcases refersTo_iff.1 hrefers with rfl | ⟨front, heq⟩
      · exact hold
      · refine (folded_of_slash ?_).2
        rw [heq]
        simp
    refine ⟨full, ?_, .inr ⟨hname, hrefers, hold⟩⟩
    rcases array with _ | (_ | _ | _) <;> simp [plain, markField, variableOf, asArray, hold, hnew]
  · exact ⟨type, h, .inl rfl⟩

/-- A field keeps its kind when its type is resolved. -/
theorem resolve {names : List String} (hnames : ∀ name ∈ names, OneWord name.toList) (h : f.InLine read)
    (hr : f.resolve names = .ok g) : g.InLine read := by
  cases h with
  | constant type name value text bound p typeName word literal fits newline string =>
    have hcomplex : isComplexType type = false := Literal.isComplexType_of_literalType literal
    rw [Field.resolve_eq_ok, if_neg (by simpa [constantOf] using hcomplex)] at hr
    subst hr
    exact .constant type name value text bound p typeName word literal fits newline string
  | member type name bound array default typeName word fits =>
    obtain ⟨full, rfl, rfl | ⟨hname, hrefers, hcomplex⟩⟩ := exists_plain_of_resolve hr
    · exact .member full name bound array default typeName word fits
    · refine .member full name bound array default (typeName.of_refersTo (hnames full hname) hrefers) word ?_
      intro v hv
      rw [(fits v hv).isComplexType] at hcomplex
      cases hcomplex

end InLine

end Field

end RosSchema

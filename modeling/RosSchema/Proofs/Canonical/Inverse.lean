import RosSchema.Proofs.Canonical.Parsed
import RosSchema.Proofs.Validity.Field

/-!
# Canonical texts read back

Parsing a canonical text of ROS 1 gives the definitions that it was made of. Types as they are written
are words, so every line is read; the only text that is lost is that of an infinite constant, for which
there is no literal. In ROS 2 the same goes for a field of one line, if its default is not an array of
strings.
-/

namespace RosSchema

open Literal (IsFinite)

/-- A field with the literal of its value rendered, and without the sign of a zero. A string keeps its
text, which is its value. -/
def Field.rendered (f : Field) : Field :=
  match f.value with
  | none | some (.string _) => f
  | some v => { f with value := some v.normal, valueText := some (String.ofList v.encode) }

namespace Line.Ros1

/-- All that the canonical line of a derived field changes of it is the literal. -/
theorem Derived.normal_eq_rendered {f : Field} (h : Derived f) : f.normal = f.rendered := by
  cases h with
  | plain type name array =>
    have hplain := Field.plain_eq type name none array
    rw [normal_plain, Field.rendered, hplain.2.2.2.2.2.1]
  | text name text => exact normal_text name text
  | literal type name value text p word literal class_eq type_word folded fits =>
    have hnot := ne_string_of_ofWord literal class_eq fits
    rw [normal_literal type name _ hnot]
    cases value with
    | string s => exact absurd rfl (hnot s)
    | _ => rfl

/-- A canonical text is read as the normal form of its definitions when their types are words and their
values finite. -/
theorem definitions_canonical {first : Definition} {others : List Definition}
    (h : ∀ d ∈ first :: others, IsDerived d)
    (hfield : ∀ d ∈ first :: others, ∀ f ∈ d.fields, IsWord f.type.toList ∧ ∀ v ∈ f.value, IsFinite v) :
    ros1.definitions (canonical (first :: others)) = .ok (normalForm (first :: others)) := by
  refine RosSchema.definitions_canonical separates_ros1 (fun d hd => (h d hd).inLines) ?_ ?_
  · exact fun d hd => header?_trim_headerRow (h d (List.mem_cons_of_mem _ hd)).name
  · intro d hd f hf
    obtain ⟨hword, hfinite⟩ := hfield d hd f hf
    exact ((h d hd).field f hf).field_eq_ok_iff.2 ⟨hword, hfinite, rfl⟩

end Line.Ros1

/-- **Parsing undoes rendering.** The canonical text of definitions of ROS 1 whose types are left as
they are written and whose constants are finite is parsed to their normal form, in which nothing of a
field is new but the literal of its constant. -/
theorem parse_canonical {o : Options} (ho : o.dialect = .ros1) (hkeep : o.keepTypes = true)
    {text : String} {defs : List Definition} (h : parse text o = .ok defs)
    (hfinite : ∀ d ∈ defs, ∀ f ∈ d.fields, ∀ v ∈ f.value, IsFinite v) :
    parse (canonical defs) o = .ok (normalForm defs) ∧
      ∀ d ∈ defs, d.normal = ⟨d.name, (d.constantFields ++ d.variableFields).map Field.rendered⟩ := by
  have hlines : o.dialect.isLineOriented = true := by rw [ho]; rfl
  have hparse (text : String) (defs : List Definition) :
      parse text o = .ok defs ↔ Line.ros1.definitions text = .ok defs := by
    rw [parse_eq_ok hlines, ho, hkeep]
    exact ⟨fun ⟨raw, hraw, hdefs⟩ => hdefs ▸ hraw, fun hraw => ⟨defs, hraw, rfl⟩⟩
  have hderived := Line.Ros1.isDerived_of_definitions ((hparse text defs).1 h)
  constructor
  · obtain ⟨first, others, rfl⟩ := exists_first_of_parse hlines h
    refine (hparse _ _).2 (Line.Ros1.definitions_canonical (fun d hd => (hderived d hd).1) ?_)
    exact fun d hd f hf => ⟨(hderived d hd).2 f hf, hfinite d hd f hf⟩
  · intro d hd
    refine (Definition.mk.injEq ..).mpr ⟨rfl, List.map_congr_left fun f hf => ?_⟩
    exact ((hderived d hd).1.field f (Definition.mem_constantFields_append.1 hf)).normal_eq_rendered

def pointText : String := "Point p\nstring S = a # b\n===\nMSG: x/Point\nfloat64 Z = -0.0 # c"

def pointDefinitions : List Definition :=
  [⟨none, [.variableOf "Point" "p", .constantOf "string" "S" (.string "a # b") (some "a # b")]⟩,
    ⟨some "x/Point", [.constantOf "float64" "Z" (.float (.zero true)) (some "-0.0")]⟩]

theorem parse_canonical_pointDefinitions :
    parse pointText { keepTypes := true } = .ok pointDefinitions ∧
    parse (canonical pointDefinitions) { keepTypes := true } = .ok (normalForm pointDefinitions) ∧
    ∀ d ∈ pointDefinitions,
      d.normal = ⟨d.name, (d.constantFields ++ d.variableFields).map Field.rendered⟩ := by
  have hparse : parse pointText { keepTypes := true } = .ok pointDefinitions := by decide +kernel
  have hfinite : ∀ d ∈ pointDefinitions, ∀ f ∈ d.fields, ∀ v ∈ f.value, IsFinite v := by
    have hzero : (Binary64.zero true).isFinite = true := by decide
    simp [pointDefinitions, Field.variableOf, Field.constantOf, IsFinite, hzero]
  exact ⟨hparse, parse_canonical rfl rfl hparse hfinite⟩

/-! ## Lines of ROS 2 -/

def Value.AllFinite : Value → Prop
  | .array items => ∀ v ∈ items, IsFinite v
  | v => IsFinite v

theorem normalForm_singleton (f : Field) : normalForm [⟨none, [f]⟩] = [⟨none, [f.normal]⟩] := by
  cases h : f.isConstant <;>
    simp [normalForm, Definition.normal, Definition.constantFields, Definition.variableFields, h]

namespace Line.Ros2

open Literal (decodeScalar exists_fits_of_decodeScalar fits_of_decodeArray ofTag?_of_literalType)
open Text (trim)

/-- Items of a type other than a string have no comment mark. -/
theorem noMark_of_fits {p : Primitive} {items : List Value}
    (h : ∀ v ∈ items, Literal.Fits p v) (hp : p.isString = false) : NoMark items := by
  intro s hs
  rw [(h _ hs).isString.2 ⟨s, rfl⟩] at hp
  cases hp

namespace Declared

variable {d : Declaration} {bound : Option Nat} {array : Option (ArrayMark Nat)} {f : Field}

/-- A constant keeps its text only if it is a string, and never its bound. -/
theorem normal_eq (h : Declared d bound array f) : f.normal =
    if f.isConstant then { f.rendered with stringBound := none }
    else { f with defaultValue := f.defaultValue.map Value.normal } := by
  have hy := h.yields
  cases hy with
  | constant raw v =>
    rw [Field.normal_of_isConstant rfl, Field.constantText_constantOf]
    cases v <;> simp [Field.rendered, Field.constantOf, Field.assignment, Value.normal]
  | default raw v =>
    rw [Field.normal]
    split
    · next hconstant => simp [(Field.plain_eq _ _ _ _).2.2.2.2.1, plainField_eq] at hconstant
    · rfl
  | plain =>
    rw [Field.normal]
    split
    · next hconstant => simp [(Field.plain_eq _ _ _ _).2.2.2.2.1, plainField_eq] at hconstant
    · rfl

/-- Finite values of a declared field survive, if they are no array of strings. -/
theorem survives (h : Declared d bound array f)
    (finite : ∀ v, f.value = some v ∨ f.defaultValue = some v → v.AllFinite)
    (items : ∀ vs, f.defaultValue = some (.array vs) → f.type ≠ "string" ∧ f.type ≠ "wstring") :
    f.Survives := by
  have hscalar {type : String} {raw : List Char} {v : Value} (decoded : decodeScalar type raw = .ok v)
      (hv : v.AllFinite) : v.Survives := by
    obtain ⟨p, -, hfits⟩ := exists_fits_of_decodeScalar decoded
    cases hfits <;> exact hv
  have hy := h.yields
  cases hy with
  | constant raw v ending name scalar literal decoded =>
    simpa [Field.Survives, Field.constantOf] using hscalar decoded (finite v (.inl rfl))
  | plain =>
    have hplain := Field.plain_eq d.fieldType (String.ofList d.name) bound array
    simp [Field.Survives, plainField_eq, hplain.2.2.2.2.2]
  | default raw v ending name literal decoded =>
    have hplain := Field.plain_eq d.fieldType (String.ofList d.name) bound array
    suffices hv : v.Survives by simpa [Field.Survives, plainField_eq, hplain.2.2.2.2.2.1] using hv
    cases array with
    | none => exact hscalar decoded (finite v (.inr rfl))
    | some mark =>
      obtain ⟨p, vs, hp, rfl, hfits⟩ := fits_of_decodeArray decoded
      have hstring : p.isString = false := by
        have hname := Primitive.foldAlias_eq_tag (ofTag?_of_literalType hp)
        rw [h.type, h.folded] at hname
        have hne := items vs rfl
        rw [hname] at hne
        cases p <;> first | rfl | simp [Primitive.tag] at hne
      exact ⟨finite _ (.inr rfl), .inr (noMark_of_fits hfits hstring)⟩

end Declared

/-- **Rendering is undone.** The canonical line of a field that a line was read as is read as that field
again, if its numbers are finite and its default is no array of strings. Only the signs of zeros are lost,
and of a constant its bound and the form of its literal. -/
theorem parseLines_canonical_singleton {line : List Char} {f : Field} (hline : '\n' ∉ line)
    (accepted : ros2.field line = .ok f)
    (finite : ∀ v, f.value = some v ∨ f.defaultValue = some v → v.AllFinite)
    (items : ∀ vs, f.defaultValue = some (.array vs) → f.type ≠ "string" ∧ f.type ≠ "wstring") :
    ros2.field (trim f.line) = .ok f.normal ∧
      parseLines (canonical [⟨none, [f]⟩]) .ros2 = .ok [⟨none, [f.normal]⟩] ∧
      f.normal = if f.isConstant then { f.rendered with stringBound := none }
        else { f with defaultValue := f.defaultValue.map Value.normal } := by
  obtain ⟨d, bound, array, hdeclared⟩ := exists_declared_of_field hline accepted
  have hword := word_type_of_field accepted
  have hread : ros2.field (trim f.line) = .ok f.normal :=
    (hdeclared.field_eq_ok_iff_survives hword).2 ⟨hdeclared.survives finite items, rfl⟩
  have hlines : ∀ d ∈ [(⟨none, [f]⟩ : Definition)], d.InLines Declared.readString := by
    simpa using ⟨by simpa using hdeclared.inLine (typeName_of_word hword), by simp⟩
  have hdefinitions : ros2.definitions (canonical [⟨none, [f]⟩]) = .ok (normalForm [⟨none, [f]⟩]) :=
    definitions_canonical separates_ros2 hlines (by simp) (by simpa using hread)
  exact ⟨hread, normalForm_singleton f ▸ hdefinitions, hdeclared.normal_eq⟩

def pairField : Field :=
  { Field.variableOf "float64" "pair" with
    isArray := true
    arrayBound := some 2
    defaultValue := some (.array [.float (.zero true), .float (.ofInt 1000)]) }

theorem parseLines_canonical_singleton_of_pair :
    ('\n' ∉ "float64[<=2] pair [-0.0, +1e3] # c".toList ∧
      ros2.field "float64[<=2] pair [-0.0, +1e3] # c".toList = .ok pairField) ∧
      ros2.field (trim pairField.line) = .ok pairField.normal ∧
      parseLines (canonical [⟨none, [pairField]⟩]) .ros2 = .ok [⟨none, [pairField.normal]⟩] ∧
      pairField.normal = if pairField.isConstant then { pairField.rendered with stringBound := none }
        else { pairField with defaultValue := pairField.defaultValue.map Value.normal } := by
  have hline : '\n' ∉ "float64[<=2] pair [-0.0, +1e3] # c".toList := by decide
  have hread : ros2.field "float64[<=2] pair [-0.0, +1e3] # c".toList = .ok pairField := by decide +kernel
  have hfinite : ∀ v ∈ [Value.float (.zero true), .float (.ofInt 1000)], IsFinite v := by
    have hzero : (Binary64.zero true).isFinite = true := by decide
    have hthousand : (Binary64.ofInt 1000).isFinite = true := by decide
    simp [IsFinite, hzero, hthousand]
  refine ⟨⟨hline, hread⟩, parseLines_canonical_singleton hline hread ?_ ?_⟩
  · simpa [pairField, Field.variableOf, Value.AllFinite] using hfinite
  · exact fun vs _ => ⟨by decide, by decide⟩

end Line.Ros2

end RosSchema

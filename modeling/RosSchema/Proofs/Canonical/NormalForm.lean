import Mathlib
import RosSchema.Canonical

/-!
# Normal forms

The canonical text of some definitions leaves out the name of the first one, the places of constants
among variables, the bounds of constants, the form in which literals were written and the signs of
zeros. The normal form of the definitions has one choice for each of these, and its canonical text is
the same.
-/

namespace RosSchema

/-! ## Values -/

namespace Value

mutual

/-- A value whose zeros have no sign. -/
def normal : Value → Value
  | .float x => .float (if x.isZero then .zero false else x)
  | .array items => .array (normalItems items)
  | .bool b => .bool b
  | .int i => .int i
  | .uint n => .uint n
  | .string s => .string s

def normalItems : List Value → List Value
  | [] => []
  | v :: vs => normal v :: normalItems vs

end

@[simp] theorem normalItems_eq_map (vs : List Value) : normalItems vs = vs.map normal := by
  induction vs with
  | nil => rfl
  | cons v vs ih => rw [normalItems, ih, List.map_cons]

theorem write_of_isZero {x : Binary64} (h : x.isZero = true) : Layout.canonical.write x = ['0'] := by
  have hcode : x.code.val = 0 := by simpa [Binary64.isZero] using h
  have hnan : x.isNaN = false := by simp [Binary64.isNaN, hcode]
  have hinf : x.isInfinite = false := by
    rw [Binary64.isInfinite, hcode]
    decide
  rw [Layout.write, hnan, hinf, h]
  cases x.negative <;> rfl

/-- The sign of a zero is not written. -/
theorem write_normal (x : Binary64) :
    Layout.canonical.write (if x.isZero then .zero false else x) = Layout.canonical.write x := by
  split
  · next h => rw [write_of_isZero h, write_of_isZero (by decide)]
  · rfl

mutual

@[simp] theorem encode_normal : ∀ v : Value, v.normal.encode = v.encode
  | .float x => by rw [normal, encode, encode, write_normal]
  | .array items => by rw [normal, encode, encode, encodeItems_normalItems items]
  | .bool _ | .int _ | .uint _ | .string _ => by rw [normal]

theorem encodeItems_normalItems : ∀ vs : List Value, encodeItems (normalItems vs) = encodeItems vs
  | [] => rfl
  | v :: vs => by
    rw [normalItems, encodeItems, encodeItems, encode_normal v, encodeItems_normalItems vs]

end

end Value

/-! ## Fields -/

namespace Field

/-- A field as its canonical line has it: a constant without a bound and with the text that stands in
the line. -/
def normal (f : Field) : Field :=
  if f.isConstant then
    { f with
      value := f.value.map Value.normal
      valueText := some (String.ofList f.constantText)
      stringBound := none }
  else { f with defaultValue := f.defaultValue.map Value.normal }

theorem normal_of_isConstant {f : Field} (h : f.isConstant = true) : f.normal =
    { f with
      value := f.value.map Value.normal
      valueText := some (String.ofList f.constantText)
      stringBound := none } :=
  if_pos h

theorem normal_of_isVariable {f : Field} (h : f.isConstant = false) :
    f.normal = { f with defaultValue := f.defaultValue.map Value.normal } :=
  if_neg (by simp [h])

@[simp] theorem type_normal (f : Field) : f.normal.type = f.type := by
  unfold normal
  split <;> rfl

@[simp] theorem name_normal (f : Field) : f.normal.name = f.name := by
  unfold normal
  split <;> rfl

@[simp] theorem isComplex_normal (f : Field) : f.normal.isComplex = f.isComplex := by
  unfold normal
  split <;> rfl

@[simp] theorem isConstant_normal (f : Field) : f.normal.isConstant = f.isConstant := by
  unfold normal
  split <;> rfl

theorem constantText_of_not_string {f : Field} {v : Value} (hv : f.value = some v)
    (h : ∀ s, v ≠ .string s) : f.constantText = v.encode := by
  rw [constantText, hv]
  cases v with
  | string s => exact absurd rfl (h s)
  | _ => rfl

theorem constantText_normal {f : Field} (h : f.isConstant = true) :
    f.normal.constantText = f.constantText := by
  rw [normal_of_isConstant h]
  cases hv : f.value with
  | none => simp [constantText, hv]
  | some v =>
    cases v with
    | string s => simp [constantText, Value.normal]
    | bool b => simp [constantText, hv, Value.normal]
    | int i => simp [constantText, hv, Value.normal]
    | uint n => simp [constantText, hv, Value.normal]
    | float x => simp [constantText, hv, Value.normal, Value.encode, Value.write_normal]
    | array items => simp [constantText, hv, Value.normal, Value.encode, Function.comp_def]

/-- A field and its normal form have one canonical line. -/
@[simp] theorem line_normal (f : Field) : f.normal.line = f.line := by
  cases h : f.isConstant with
  | true =>
    have htext := constantText_normal h
    rw [line, line, isConstant_normal, h]
    simp only [↓reduceIte, constantLine, type_normal, name_normal, htext]
  | false =>
    rw [line, line, isConstant_normal, h, normal_of_isVariable h]
    cases hd : f.defaultValue <;> simp [variableLine, arrayMark, hd]

end Field

/-! ## Definitions -/

namespace Definition

/-- A definition with its constants first, and its fields as their canonical lines have them. -/
def normal (d : Definition) : Definition :=
  { d with fields := (d.constantFields ++ d.variableFields).map Field.normal }

theorem constantFields_normal (d : Definition) :
    d.normal.constantFields = d.constantFields.map Field.normal := by
  have hself : d.constantFields.filter (·.isConstant) = d.constantFields := by
    rw [constantFields, List.filter_filter]
    simp
  have hnone : d.variableFields.filter (·.isConstant) = [] := by
    rw [variableFields, List.filter_filter]
    simp
  rw [normal, constantFields, List.filter_map, List.filter_append]
  simp only [Function.comp_def, Field.isConstant_normal, hself, hnone, List.append_nil]

theorem variableFields_normal (d : Definition) :
    d.normal.variableFields = d.variableFields.map Field.normal := by
  have hself : d.variableFields.filter (!·.isConstant) = d.variableFields := by
    rw [variableFields, List.filter_filter]
    simp
  have hnone : d.constantFields.filter (!·.isConstant) = [] := by
    rw [constantFields, List.filter_filter]
    simp
  rw [normal, variableFields, List.filter_map, List.filter_append]
  simp only [Function.comp_def, Field.isConstant_normal, hself, hnone, List.nil_append]

theorem fieldLines_map_normal (fields : List Field) :
    fieldLines (fields.map Field.normal) = fieldLines fields := by
  rw [fieldLines, fieldLines, List.flatMap_map]
  simp only [Field.line_normal]

@[simp] theorem body_normal (leading : Bool) (d : Definition) : d.normal.body leading = d.body leading := by
  rw [body, body, constantFields_normal, variableFields_normal, fieldLines_map_normal, fieldLines_map_normal]
  simp only [List.isEmpty_map]

end Definition

/-- Definitions as their canonical text has them: the first without its name, and all of them in normal
form. -/
def normalForm : List Definition → List Definition
  | [] => []
  | first :: others => { first.normal with name := none } :: others.map Definition.normal

theorem normalForm_cons (first : Definition) (others : List Definition) :
    normalForm (first :: others) = ⟨none, first.normal.fields⟩ :: others.map Definition.normal := rfl

/-- Definitions and their normal form have one canonical text. -/
theorem canonical_normalForm (defs : List Definition) : canonical (normalForm defs) = canonical defs := by
  cases defs with
  | nil => rfl
  | cons first others =>
    have hfirst : Definition.body true { first.normal with name := none } = first.body true :=
      first.body_normal true
    have hheader (d : Definition) : d.normal.header = d.header := rfl
    rw [canonical, canonical, normalForm, canonicalText, canonicalText, hfirst, List.flatMap_map]
    simp only [hheader, Definition.body_normal]

end RosSchema

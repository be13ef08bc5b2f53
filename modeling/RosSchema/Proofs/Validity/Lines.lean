import RosSchema.Proofs.Canonical.Parsed
import RosSchema.Proofs.Validity.Field

/-!
# Valid fields of lines

Every field of a line is valid, and the text of a constant is read as its value once more, under either
grammar and also after its references are resolved.
-/

namespace RosSchema

open Literal (FitsDefault Fits decodeScalar literalType)
open Text (trim)

/-- Resolving a field with a value does nothing. -/
theorem Field.Valid.resolve_of_value {f g : Field} (h : f.Valid) {names : List String}
    (hr : f.resolve names = .ok g) {v : Value} (hv : v ∈ g.value) : g = f := by
  rw [Field.resolve_eq_ok] at hr
  split at hr
  · next hc =>
    obtain ⟨type, -, rfl⟩ := hr
    have hsome : f.value = some v := hv
    rw [(h.none_of_isComplex hc).1] at hsome
    cases hsome
  · exact hr

namespace Line

namespace Ros1

/-- The text of a constant is the string that is its value, or it is decoded to the value. -/
def Rereads (f : Field) : Prop :=
  ∀ v ∈ f.value, ∃ text, f.valueText = some text ∧
    if f.type = "string" then v = .string text else decodeScalar f.type text.toList = .ok v

theorem valid_of_field {line : List Char} {f : Field} (h : field line = .ok f) : f.Valid ∧ Rereads f := by
  obtain ⟨d, hd, h⟩ := field_eq_ok.1 h
  have hmem : d ∈ derivations line := hd ▸ List.mem_singleton_self d
  obtain ⟨-, produced⟩ := spelled_of_mem_derivations hmem
  have hfold : foldAlias d.fieldType = d.fieldType := foldAlias_foldAlias _
  cases (Derivation.field_eq_ok.1 h).2 with
  | plain assigned =>
    rw [Field.markField_variableOf, ← Field.plain_eq_self]
    refine ⟨Field.valid_plain hfold (by simp) d.array (by simp) _, fun v hv => ?_⟩
    have hnone := (Field.plain_eq d.fieldType (String.ofList d.name) none d.array).2.2.2.2.2.1
    exact absurd (hnone.symm.trans hv) (by simp)
  | text raw assigned string =>
    have htype : d.fieldType = "string" := by
      rw [Derivation.fieldType, ofList_of_ofWord (produced.class_eq.trans string)]
      rfl
    refine ⟨Field.valid_constant hfold (p := .string) (by rw [htype]; rfl) (.string _ rfl) (by simp) _ _, ?_⟩
    rintro v ⟨⟩
    exact ⟨_, rfl, by rw [if_pos (show Field.type _ = "string" from htype)]⟩
  | literal raw value assigned other decoded =>
    obtain ⟨p, hp, hfits⟩ := Literal.exists_fits_of_decodeScalar decoded
    refine ⟨Field.valid_constant hfold hp hfits (by simp) _ _, ?_⟩
    rintro v ⟨⟩
    have hclass := class_of_mem_derivations hmem (by rw [assigned]; rfl) other
    have htype : d.fieldType ≠ "string" := by
      intro heq
      rw [heq] at hclass
      exact absurd hclass (by decide)
    refine ⟨_, rfl, ?_⟩
    rw [if_neg (show ¬ Field.type _ = "string" from htype), String.toList_ofList]
    exact decoded

end Ros1

namespace Ros2

def Rereads (f : Field) : Prop :=
  ∀ v ∈ f.value, ∃ text, f.valueText = some text ∧ decodeScalar f.type text.toList = .ok v

theorem valid_of_field {line : List Char} {f : Field} (h : field line = .ok f) : f.Valid ∧ Rereads f := by
  obtain ⟨d, -, h⟩ := field_eq_ok.1 h
  obtain ⟨bound, -, array, -, hstring, hy⟩ := Declaration.field_eq_ok.1 h
  have hfold : foldAlias d.fieldType = d.fieldType := foldAlias_foldAlias _
  have hbound : bound.isSome → d.fieldType = "string" ∨ d.fieldType = "wstring" := by
    intro hsome
    by_contra hne
    simp only [not_or] at hne
    simp [hsome, hne.1, hne.2] at hstring
  have hnone := (Field.plain_eq d.fieldType (String.ofList d.name) bound array).2.2.2.2.2.1
  cases hy with
  | constant raw value ending name scalar type decoded =>
    obtain ⟨p, hp, hfits⟩ := Literal.exists_fits_of_decodeScalar decoded
    refine ⟨Field.valid_constant hfold hp hfits hbound _ _, ?_⟩
    rintro v ⟨⟩
    exact ⟨_, rfl, by rw [String.toList_ofList]; exact decoded⟩
  | default raw value ending name type decoded =>
    refine ⟨Field.valid_plain hfold hbound array ?_ _, fun v hv => absurd (hnone.symm.trans hv) (by simp)⟩
    rintro v ⟨⟩
    exact .of_decode decoded
  | plain ending name =>
    have hplain : d.plainField bound array =
        { Field.plain d.fieldType (String.ofList d.name) bound array with defaultValue := none } :=
      (Field.plain_eq_self _ _ _ _).symm
    rw [hplain]
    exact ⟨Field.valid_plain hfold hbound array (by simp) _, fun v hv => absurd (hnone.symm.trans hv) (by simp)⟩

end Ros2

/-! ## Parsed lines -/

/-- What holds of the valid fields of lines and is about constants holds of what is parsed. -/
theorem valid_of_parse {o : Options} {g : Grammar} (ho : o.dialect.isLineOriented = true)
    (hg : ∀ text, parseLines text o.dialect = g.definitions text) {P : Field → Prop}
    (hP : ∀ f, f.value = none → P f)
    (hfield : ∀ {line : List Char} {f : Field}, g.field line = .ok f → f.Valid ∧ P f)
    {text : String} {defs : List Definition} (h : parse text o = .ok defs) :
    ∀ d ∈ defs, ∀ f ∈ d.fields, f.Valid ∧ P f := by
  refine fun d hd => (forall_of_parse ho (fun f => f.Valid ∧ P f) (fun _ => True) ?_ ?_ h d hd).1
  · rintro names f r - ⟨hvalid, hf⟩ hr
    refine ⟨hvalid.resolve hr, ?_⟩
    cases hvalue : r.value with
    | none => exact hP r hvalue
    | some v => exact hvalid.resolve_of_value hr hvalue ▸ hf
  · intro text raw hraw d hd
    rw [hg] at hraw
    refine ⟨fun f hf => ?_, fun _ _ => trivial⟩
    obtain ⟨line, -, -, hread⟩ := (Grammar.exists_line_of_definitions hraw hd).1 f hf
    exact hfield hread

theorem Ros1.valid_of_parse {o : Options} (ho : o.dialect = .ros1) {text : String} {defs : List Definition}
    (h : parse text o = .ok defs) : ∀ d ∈ defs, ∀ f ∈ d.fields, f.Valid ∧ Ros1.Rereads f :=
  Line.valid_of_parse (g := ros1) (by rw [ho]; rfl) (fun _ => by rw [ho]; rfl)
    (fun f hf v hv => by rw [hf] at hv; cases hv) Ros1.valid_of_field h

theorem Ros2.valid_of_parse {o : Options} (ho : o.dialect = .ros2) {text : String} {defs : List Definition}
    (h : parse text o = .ok defs) : ∀ d ∈ defs, ∀ f ∈ d.fields, f.Valid ∧ Ros2.Rereads f :=
  Line.valid_of_parse (g := ros2) (by rw [ho]; rfl) (fun _ => by rw [ho]; rfl)
    (fun f hf v hv => by rw [hf] at hv; cases hv) Ros2.valid_of_field h

end Line

end RosSchema

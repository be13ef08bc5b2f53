import RosSchema.Proofs.Line.Field
import RosSchema.Proofs.Line.Spelling

/-!
# The types of fields in lines

Whatever the grammar, the type of a field is a word of letters, digits, underscores and slashes, and
the type of a constant is primitive. A full type name built from such a word is read back from a
header as it stands.
-/

namespace RosSchema

/-! ## Folded types -/

theorem foldAlias_of_ne {type : String} (h₁ : type ≠ "char") (h₂ : type ≠ "byte") :
    foldAlias type = type := by
  unfold foldAlias
  split
  · exact absurd rfl h₁
  · exact absurd rfl h₂
  · rfl

@[simp] theorem foldAlias_foldAlias (type : String) : foldAlias (foldAlias type) = foldAlias type := by
  by_cases h₁ : type = "char"
  · subst h₁
    decide
  by_cases h₂ : type = "byte"
  · subst h₂
    decide
  rw [foldAlias_of_ne h₁ h₂, foldAlias_of_ne h₁ h₂]

/-- A type with a slash is neither an older name nor the name of a primitive type. -/
theorem folded_of_slash {type : String} (h : '/' ∈ type.toList) :
    foldAlias type = type ∧ isComplexType type = true := by
  have hne (other : String) (hother : '/' ∉ other.toList) : type ≠ other := by
    rintro rfl
    exact hother h
  have hfold : foldAlias type = type :=
    foldAlias_of_ne (hne "char" (by decide)) (hne "byte" (by decide))
  refine ⟨hfold, ?_⟩
  rw [isComplexType, Primitive.ofTag?, hfold]
  split <;> first | rfl | exact absurd h (by decide)

namespace Line

open Reader
open Ros2 (isTypePart)

theorem word_foldAlias {cs : List Char} (h : Word isTypePart cs) :
    Word isTypePart (foldAlias (String.ofList cs)).toList := by
  unfold foldAlias
  split
  · exact word_of_all (by decide) (by decide)
  · exact word_of_all (by decide) (by decide)
  · rwa [String.toList_ofList]

theorem isComplexType_eq_false {type : String} {p : Primitive}
    (h : Primitive.ofTag? type = some p) : isComplexType type = false := by
  simp [isComplexType, h]

/-- A type that a literal was decoded by is primitive. -/
theorem isComplexType_of_decodeScalar {type : String} {text : List Char} {value : Value}
    (h : Literal.decodeScalar type text = .ok value) : isComplexType type = false := by
  obtain ⟨p, hp, -⟩ := Steps.bind_eq_ok.1 h
  unfold Literal.literalType at hp
  split at hp
  · next q hq => exact isComplexType_eq_false hq
  · cases hp

@[simp] theorem type_markField (f : Field) (m : Option (ArrayMark Nat)) :
    (markField f m).type = f.type := by
  rcases m with _ | (_ | _ | _) <;> rfl

@[simp] theorem isConstant_markField (f : Field) (m : Option (ArrayMark Nat)) :
    (markField f m).isConstant = f.isConstant := by
  rcases m with _ | (_ | _ | _) <;> rfl

theorem Ros2.word_type_of_field {line : List Char} {f : Field} (h : Ros2.field line = .ok f) :
    Word isTypePart f.type.toList := by
  obtain ⟨d, hd, h⟩ := Ros2.field_eq_ok.1 h
  obtain ⟨gap, tail, w⟩ := Ros2.declaration_eq_some.1 hd
  obtain ⟨bound, -, array, -, -, hy⟩ := Ros2.Declaration.field_eq_ok.1 h
  have htype := word_foldAlias w.type
  cases hy with
  | constant => exact htype
  | default => simpa [Ros2.Declaration.plainField, Ros2.Declaration.fieldType, Field.variableOf] using htype
  | plain => simpa [Ros2.Declaration.plainField, Ros2.Declaration.fieldType, Field.variableOf] using htype

theorem Ros1.word_type_of_field {line : List Char} {f : Field} (h : Ros1.field line = .ok f) :
    Word isTypePart f.type.toList := by
  obtain ⟨d, hd, h⟩ := Ros1.field_eq_ok.1 h
  have htype := word_foldAlias (Ros1.isWord_of_mem_derivations (hd ▸ List.mem_singleton_self d)).word
  cases (Ros1.Derivation.field_eq_ok.1 h).2 with
  | plain => simpa [Field.variableOf, Ros1.Derivation.fieldType] using htype
  | text => exact htype
  | literal => exact htype

theorem Ros2.isComplex_of_field {line : List Char} {f : Field} (h : Ros2.field line = .ok f)
    (hc : f.isConstant = true) : f.isComplex = false := by
  obtain ⟨d, -, h⟩ := Ros2.field_eq_ok.1 h
  obtain ⟨bound, -, array, -, -, hy⟩ := Ros2.Declaration.field_eq_ok.1 h
  cases hy with
  | constant raw value ending name scalar type decoded => exact isComplexType_of_decodeScalar decoded
  | default => simp [Ros2.Declaration.plainField, Field.variableOf] at hc
  | plain => simp [Ros2.Declaration.plainField, Field.variableOf] at hc

/-- The only word of the class of strings is the type of that name. -/
theorem Ros1.ofList_of_ofWord {word : List Char} (h : Ros1.TypeClass.ofWord word = .string) :
    String.ofList word = "string" := by
  unfold Ros1.TypeClass.ofWord at h
  split at h <;> first | assumption | cases h

theorem Ros1.isComplex_of_field {line : List Char} {f : Field} (h : Ros1.field line = .ok f)
    (hc : f.isConstant = true) : f.isComplex = false := by
  obtain ⟨d, hd, h⟩ := Ros1.field_eq_ok.1 h
  have produced := (Ros1.spelled_of_mem_derivations (hd ▸ List.mem_singleton_self d)).2
  cases (Ros1.Derivation.field_eq_ok.1 h).2 with
  | plain => simp [Field.variableOf] at hc
  | text raw assigned string =>
    have htype := Ros1.ofList_of_ofWord (produced.class_eq.trans string)
    simp only [Field.constantOf, Ros1.Derivation.fieldType, htype]
    decide
  | literal raw value assigned other decoded => exact isComplexType_of_decodeScalar decoded

end Line

end RosSchema

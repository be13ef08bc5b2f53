import RosSchema.Line.Ros1
import RosSchema.Proofs.Line.Declaration
import RosSchema.Proofs.Steps

/-!
# Derivations of ROS 1 lines

A line yields a field when it has exactly one derivation and that one yields the field.
-/

namespace RosSchema.Line.Ros1

open RosSchema.Text (trim before)

theorem field_eq_ok {line : List Char} {f : Field} :
    field line = .ok f ↔ ∃ d, derivations line = [d] ∧ d.field = .ok f := by
  rw [field]
  rcases derivations line with _ | ⟨d, _ | ⟨e, ds⟩⟩
  · simp
  · simp [Steps.mapError_eq_ok]
  · simp

namespace Derivation

def fieldType (d : Derivation) : String := foldAlias (String.ofList d.type)

inductive Yields (d : Derivation) : Field → Prop where
  | plain (assigned : d.assigned = none) :
      Yields d (markField (.variableOf d.fieldType (String.ofList d.name)) d.array)
  | text (raw : List Char) (assigned : d.assigned = some raw) (string : d.typeClass = .string) :
      Yields d (.constantOf d.fieldType (String.ofList d.name) (.string (String.ofList (trim raw)))
        (some (String.ofList (trim raw))))
  | literal (raw : List Char) (value : Value) (assigned : d.assigned = some raw)
      (other : d.typeClass ≠ .string)
      (decoded : Literal.decodeScalar d.fieldType (trim (before '#' raw)) = .ok value) :
      Yields d (.constantOf d.fieldType (String.ofList d.name) value
        (some (String.ofList (trim (before '#' raw)))))

section Assigned

variable {d : Derivation} {f : Field} {raw : List Char}

theorem yields_plain (h : d.assigned = none) : d.Yields f ↔
    f = markField (.variableOf d.fieldType (String.ofList d.name)) d.array := by
  constructor
  · intro hy
    cases hy with
    | plain => rfl
    | text raw assigned => simp [h] at assigned
    | literal raw value assigned => simp [h] at assigned
  · rintro rfl
    exact .plain h

theorem yields_text (h : d.assigned = some raw) (string : d.typeClass = .string) : d.Yields f ↔
    f = .constantOf d.fieldType (String.ofList d.name) (.string (String.ofList (trim raw)))
      (some (String.ofList (trim raw))) := by
  constructor
  · intro hy
    cases hy with
    | plain assigned => simp [h] at assigned
    | text raw' assigned =>
      cases h.symm.trans assigned
      rfl
    | literal raw' value assigned other => exact absurd string other
  · rintro rfl
    exact .text raw h string

theorem yields_literal (h : d.assigned = some raw) (other : d.typeClass ≠ .string) : d.Yields f ↔
    ∃ value, Literal.decodeScalar d.fieldType (trim (before '#' raw)) = .ok value ∧
      f = .constantOf d.fieldType (String.ofList d.name) value
        (some (String.ofList (trim (before '#' raw)))) := by
  constructor
  · intro hy
    cases hy with
    | plain assigned => simp [h] at assigned
    | text raw' assigned string => exact absurd string other
    | literal raw' value assigned _ decoded =>
      cases h.symm.trans assigned
      exact ⟨value, decoded, rfl⟩
  · rintro ⟨value, decoded, rfl⟩
    exact .literal raw value h other decoded

end Assigned

theorem field_eq_ok {d : Derivation} {f : Field} :
    d.field = .ok f ↔ isFieldName d.name = true ∧ d.Yields f := by
  cases ha : d.assigned with
  | none =>
    simp only [Derivation.field, ha, Steps.ite_throw_bind_eq_ok, Bool.not_eq_true', Bool.not_eq_false]
    exact and_congr_right fun _ => Steps.pure_eq_ok.trans (yields_plain ha).symm
  | some raw =>
    simp only [Derivation.field, ha, Steps.ite_throw_bind_eq_ok, Bool.not_eq_true', Bool.not_eq_false]
    refine and_congr_right fun _ => ?_
    by_cases hc : d.typeClass = .string
    · simp only [hc, ↓reduceIte]
      exact Steps.pure_eq_ok.trans (yields_text ha hc).symm
    · simp only [hc, ↓reduceIte, Steps.bind_eq_ok, yields_literal ha hc]
      exact exists_congr fun value => and_congr_right fun _ => Steps.pure_eq_ok

end Derivation

end RosSchema.Line.Ros1

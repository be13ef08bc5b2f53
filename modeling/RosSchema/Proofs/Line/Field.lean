import RosSchema.Proofs.Line.Declaration
import RosSchema.Proofs.Steps

/-!
# Fields of declarations

A declaration yields a field when its counts fit, its bound is one of a string, its name has the case of
its kind and its literal is one of its type. `field_eq_ok` lists what each of the three endings asks for.
-/

namespace RosSchema.Line.Ros2

open RosSchema.Text (trim)
open Reader

/-- A bound counts where its digits do. -/
theorem mapM_count_eq_ok {line : List Char} {digits : Option (List Char)} {bound : Option Nat} :
    digits.mapM (count line) = .ok bound ↔
      (∀ ds ∈ digits, (count64? ds).isSome) ∧ bound = digits.bind count64? := by
  cases digits with
  | none =>
    change Except.ok none = Except.ok bound ↔ _
    rw [Except.ok.injEq, eq_comm]
    simp
  | some ds =>
    have hcount : (some ds).mapM (count line) = (count line ds).map some := rfl
    have hbind : (some ds).bind count64? = count64? ds := rfl
    have hmem : (∀ cs ∈ some ds, (count64? cs).isSome) ↔ (count64? ds).isSome = true :=
      ⟨fun h => h ds rfl, fun h cs hcs => Option.some.inj hcs ▸ h⟩
    rw [hcount, Steps.map_eq_ok, hbind, hmem, count]
    generalize count64? ds = n
    cases n <;> simp [eq_comm]

namespace Declaration

def fieldType (d : Declaration) : String := foldAlias (String.ofList d.type)

def plainField (d : Declaration) (bound : Option Nat) (array : Option (ArrayMark Nat)) : Field :=
  { markField (.variableOf d.fieldType (String.ofList d.name)) array with stringBound := bound }

inductive Yields (d : Declaration) (bound : Option Nat) (array : Option (ArrayMark Nat)) :
    Field → Prop where
  | constant (raw : List Char) (value : Value) (ending : d.ending = .assigned raw)
      (name : isNameIn Char.isUpper d.name = true) (scalar : array = none)
      (type : takesLiteral d.fieldType = true)
      (decoded : Literal.decodeScalar d.fieldType (trim raw) = .ok value) :
      Yields d bound array
        { Field.constantOf d.fieldType (String.ofList d.name) value
            (some (String.ofList (trim raw))) with stringBound := bound }
  | default (raw : List Char) (value : Value) (ending : d.ending = .default raw)
      (name : isNameIn Char.isLower d.name = true) (type : takesLiteral d.fieldType = true)
      (decoded : (if array.isSome then Literal.decodeArray d.fieldType (trim raw)
        else Literal.decodeScalar d.fieldType (trim raw)) = .ok value) :
      Yields d bound array { d.plainField bound array with defaultValue := some value }
  | plain (ending : d.ending = .nothing) (name : isNameIn Char.isLower d.name = true) :
      Yields d bound array (d.plainField bound array)

section Endings

variable {d : Declaration} {bound : Option Nat} {array : Option (ArrayMark Nat)} {f : Field}
  {raw : List Char}

theorem yields_assigned (h : d.ending = .assigned raw) : d.Yields bound array f ↔
    isNameIn Char.isUpper d.name = true ∧ array = none ∧ takesLiteral d.fieldType = true ∧
      ∃ value, Literal.decodeScalar d.fieldType (trim raw) = .ok value ∧
        f = { Field.constantOf d.fieldType (String.ofList d.name) value
              (some (String.ofList (trim raw))) with stringBound := bound } := by
  constructor
  · intro hy
    cases hy with
    | constant raw' value ending name scalar type decoded =>
      cases h.symm.trans ending
      exact ⟨name, scalar, type, value, decoded, rfl⟩
    | default raw' value ending => simp [h] at ending
    | plain ending => simp [h] at ending
  · rintro ⟨name, scalar, type, value, decoded, rfl⟩
    exact .constant raw value h name scalar type decoded

theorem yields_default (h : d.ending = .default raw) : d.Yields bound array f ↔
    isNameIn Char.isLower d.name = true ∧ takesLiteral d.fieldType = true ∧
      ∃ value, (if array.isSome then Literal.decodeArray d.fieldType (trim raw)
          else Literal.decodeScalar d.fieldType (trim raw)) = .ok value ∧
        f = { d.plainField bound array with defaultValue := some value } := by
  constructor
  · intro hy
    cases hy with
    | constant raw' value ending => simp [h] at ending
    | default raw' value ending name type decoded =>
      cases h.symm.trans ending
      exact ⟨name, type, value, decoded, rfl⟩
    | plain ending => simp [h] at ending
  · rintro ⟨name, type, value, decoded, rfl⟩
    exact .default raw value h name type decoded

theorem yields_nothing (h : d.ending = .nothing) : d.Yields bound array f ↔
    isNameIn Char.isLower d.name = true ∧ f = d.plainField bound array := by
  constructor
  · intro hy
    cases hy with
    | constant raw' value ending => simp [h] at ending
    | default raw' value ending => simp [h] at ending
    | plain ending name => exact ⟨name, rfl⟩
  · rintro ⟨name, rfl⟩
    exact .plain h name

end Endings

theorem field_eq_ok {d : Declaration} {line : List Char} {f : Field} :
    d.field line = .ok f ↔ ∃ bound, d.bound.mapM (count line) = .ok bound ∧
      ∃ array, d.array.mapM (countMark line) = .ok array ∧
      (bound.isSome && d.fieldType != "string" && d.fieldType != "wstring") = false ∧
      d.Yields bound array f := by
  simp only [Declaration.field, Steps.bind_eq_ok, Steps.ite_throw_bind_eq_ok]
  refine exists_congr fun bound => and_congr_right fun _ => exists_congr fun array =>
    and_congr_right fun _ => and_congr (by rw [Bool.not_eq_true]; rfl) ?_
  cases hd : d.ending with
  | assigned raw =>
    have hscalar : ¬ (array.isSome || !takesLiteral d.fieldType) = true ↔
        array = none ∧ takesLiteral d.fieldType = true := by simp
    simp only [yields_assigned hd, Steps.ite_throw_bind_eq_ok, Steps.bind_eq_ok, Bool.not_eq_true',
      Bool.not_eq_false]
    exact and_congr_right fun _ => (and_congr hscalar (exists_congr fun value =>
      and_congr_right fun _ => Steps.pure_eq_ok)).trans and_assoc
  | default raw =>
    simp only [yields_default hd, Steps.ite_throw_bind_eq_ok, Bool.not_eq_true', Bool.not_eq_false]
    refine and_congr_right fun _ => and_congr_right fun _ => ?_
    -- the two readers of a literal stand in branches of their own
    cases array.isSome <;>
      exact Steps.bind_eq_ok.trans (exists_congr fun value => and_congr_right fun _ => Steps.pure_eq_ok)
  | nothing =>
    simp only [yields_nothing hd, Steps.ite_throw_bind_eq_ok, Bool.not_eq_true', Bool.not_eq_false]
    exact and_congr_right fun _ => Steps.pure_eq_ok

end Declaration

/-- A line yields a field when the grammar reads it as a declaration that does. -/
theorem field_eq_ok {line : List Char} {f : Field} :
    field line = .ok f ↔ ∃ d, whole? declaration line = some d ∧ d.field line = .ok f := by
  rw [field]
  cases whole? declaration line with
  | none => simp
  | some d => simp [Steps.mapError_eq_ok]

end RosSchema.Line.Ros2

import RosSchema.Proofs.Line.FieldLine

/-!
# Valid fields

Whatever a field was read from, a constant has a value of its type and nothing that only variables have,
a default is a value of the type or an array of such values, and the marks of a type stand where they mean
something. Resolving a reference keeps all of that: only complex types have references, and a full name is
complex like the written one.
-/

namespace RosSchema

open Literal (Fits FitsDefault literalType)

/-! ## Primitive types by their names -/

theorem Primitive.foldAlias_eq_tag {type : String} {p : Primitive} (h : ofTag? type = some p) :
    foldAlias type = p.tag := by
  unfold ofTag? at h
  split at h <;> cases h <;> assumption

/-- A type whose literals are read has the name of their primitive type. -/
theorem Literal.ofTag?_of_literalType {type : String} {p : Primitive} (h : literalType type = .ok p) :
    Primitive.ofTag? type = some p := by
  unfold literalType at h
  split at h
  · next q hq =>
    split at h
    · cases h
      exact hq
    · cases h
  · cases h

theorem isComplexType_iff {type : String} (hfold : foldAlias type = type) :
    isComplexType type = true ↔ ∀ p : Primitive, type ≠ p.tag := by
  rw [isComplexType, Option.isNone_iff_eq_none]
  constructor
  · rintro h p rfl
    rw [Primitive.ofTag?_tag] at h
    cases h
  · intro h
    cases hp : Primitive.ofTag? type with
    | none => rfl
    | some p => exact absurd (hfold.symm.trans (Primitive.foldAlias_eq_tag hp)) (h p)

theorem ne_alias_of_folded {type : String} (hfold : foldAlias type = type) :
    type ≠ "char" ∧ type ≠ "byte" := by
  refine ⟨?_, ?_⟩ <;>
    · rintro rfl
      exact absurd hfold (by decide)

/-- The types of strings are primitive. -/
theorem isComplexType_of_string {type : String} (h : type = "string" ∨ type = "wstring") :
    isComplexType type = false := by
  rcases h with rfl | rfl <;> decide

/-! ## The invariant -/

namespace Field

structure Valid (f : Field) : Prop where
  value : f.value.isSome = f.isConstant
  constant : ∀ v ∈ f.value, f.isArray = false ∧ f.defaultValue = none ∧
    ∃ p, literalType f.type = .ok p ∧ Fits p v
  default : ∀ v ∈ f.defaultValue, FitsDefault f.type f.isArray v
  count : f.arrayLength = none ∨ f.arrayBound = none
  array : f.isArray = false → f.arrayLength = none ∧ f.arrayBound = none
  string : f.stringBound.isSome → f.type = "string" ∨ f.type = "wstring"
  complex : f.isComplex = true ↔ ∀ p : Primitive, f.type ≠ p.tag
  folded : f.type ≠ "char" ∧ f.type ≠ "byte"

theorem valid_constant {type : String} (hfold : foldAlias type = type) {p : Primitive} {v : Value}
    (hp : literalType type = .ok p) (fits : Fits p v) {bound : Option Nat}
    (hbound : bound.isSome → type = "string" ∨ type = "wstring") (name : String) (text : Option String) :
    Valid { constantOf type name v text with stringBound := bound } where
  value := rfl
  constant := by
    rintro w ⟨⟩
    exact ⟨rfl, rfl, p, hp, fits⟩
  default := by simp [constantOf]
  count := .inl rfl
  array _ := ⟨rfl, rfl⟩
  string := hbound
  complex := isComplexType_iff hfold
  folded := ne_alias_of_folded hfold

theorem valid_variable {type : String} (hfold : foldAlias type = type) {isArray : Bool}
    {length most bound : Option Nat} {default : Option Value} (hcount : length = none ∨ most = none)
    (harray : isArray = false → length = none ∧ most = none)
    (hbound : bound.isSome → type = "string" ∨ type = "wstring")
    (hdefault : ∀ v ∈ default, FitsDefault type isArray v) (name : String) :
    Valid { variableOf type name with
      isArray, arrayLength := length, arrayBound := most, stringBound := bound,
      defaultValue := default } where
  value := rfl
  constant := by
    rintro w ⟨⟩
  default := hdefault
  count := hcount
  array := harray
  string := hbound
  complex := isComplexType_iff hfold
  folded := ne_alias_of_folded hfold

/-- A variable that is marked like the field of a line is valid. -/
theorem valid_plain {type : String} (hfold : foldAlias type = type) {bound : Option Nat}
    (hbound : bound.isSome → type = "string" ∨ type = "wstring") (array : Option (Line.ArrayMark Nat))
    {default : Option Value} (hdefault : ∀ v ∈ default, FitsDefault type array.isSome v) (name : String) :
    Valid { plain type name bound array with defaultValue := default } := by
  rcases array with _ | (_ | n | n)
  · exact valid_variable hfold (.inl rfl) (fun _ => ⟨rfl, rfl⟩) hbound hdefault name
  · exact valid_variable hfold (.inl rfl) (fun h => by cases h) hbound hdefault name
  · have hcount : some n = none ∨ (none : Option Nat) = none := .inr rfl
    exact valid_variable hfold hcount (fun h => by cases h) hbound hdefault name
  · have hcount : (none : Option Nat) = none ∨ some n = none := .inl rfl
    exact valid_variable hfold hcount (fun h => by cases h) hbound hdefault name

namespace Valid

variable {f g : Field}

theorem isComplex_eq (h : f.Valid) : f.isComplex = isComplexType f.type :=
  Bool.eq_iff_iff.2 (h.complex.trans (isComplexType_iff (foldAlias_of_ne h.folded.1 h.folded.2)).symm)

/-- A complex field is nothing but a variable with the marks of an array. -/
theorem none_of_isComplex (h : f.Valid) (hc : f.isComplex = true) :
    f.value = none ∧ f.defaultValue = none ∧ f.stringBound = none := by
  have htype : isComplexType f.type = true := h.isComplex_eq ▸ hc
  refine ⟨?_, ?_, ?_⟩
  · refine Option.eq_none_iff_forall_ne_some.2 fun v hv => ?_
    obtain ⟨-, -, p, hp, -⟩ := h.constant v hv
    rw [Literal.isComplexType_of_literalType hp] at htype
    cases htype
  · refine Option.eq_none_iff_forall_ne_some.2 fun v hv => ?_
    rw [(h.default v hv).isComplexType] at htype
    cases htype
  · refine Option.eq_none_iff_forall_ne_some.2 fun n hn => ?_
    rw [isComplexType_of_string (h.string (by rw [hn]; rfl))] at htype
    cases htype

/-- Resolving a field keeps it valid. -/
theorem resolve (h : f.Valid) {names : List String} (hr : f.resolve names = .ok g) : g.Valid := by
  rw [resolve_eq_ok] at hr
  split at hr
  · next hc =>
    obtain ⟨type, htype, rfl⟩ := hr
    obtain ⟨hvalue, hdefault, hbound⟩ := h.none_of_isComplex hc
    have hmem : type ∈ names.filter (refersTo f.type) := by
      rw [resolveType_eq_ok.1 htype]
      exact List.mem_singleton_self type
    obtain ⟨hfold, hcomplex⟩ := folded_of_refersTo (foldAlias_of_ne h.folded.1 h.folded.2)
      (h.isComplex_eq ▸ hc) (List.mem_filter.1 hmem).2
    refine ⟨h.value, ?_, ?_, h.count, h.array, ?_, ?_, ne_alias_of_folded hfold⟩
    · simp [hvalue]
    · simp [hdefault]
    · simp [hbound]
    · exact ⟨fun _ => (isComplexType_iff hfold).1 hcomplex, fun _ => hc⟩
  · obtain rfl := hr
    exact h

end Valid

end Field

end RosSchema

import RosSchema.Canonical
import RosSchema.Proofs.Line.ArrayEndings
import RosSchema.Proofs.Line.FieldLine

/-!
# Declared fields

A field that was read from a line and resolved is one that a declaration with its own type yields. What
the canonical line of the field is made of follows from that declaration.
-/

namespace RosSchema

namespace Line.Ros2

open Reader (Word isNamePart)

/-! ## The declaration of a field -/

def CountFits : ArrayMark Nat → Prop
  | .any => True
  | .exactly n | .atMost n => n < 2 ^ 64

/-- A declaration with its counts yields a field of its own type. -/
structure Declared (d : Declaration) (bound : Option Nat) (array : Option (ArrayMark Nat)) (f : Field) :
    Prop where
  type : d.fieldType = f.type
  folded : foldAlias f.type = f.type
  name : Word isNamePart d.name
  boundFits : ∀ n ∈ bound, n < 2 ^ 64
  arrayFits : ∀ m ∈ array, CountFits m
  string : (bound.isSome && d.fieldType != "string" && d.fieldType != "wstring") = false
  yields : d.Yields bound array f
  text : ∀ raw, d.ending = .assigned raw → '\n' ∉ raw ∧ ∃ cs, assigned? cs = some raw

theorem lt_of_count {line digits : List Char} {n : Nat} (h : count line digits = .ok n) : n < 2 ^ 64 := by
  unfold count at h
  split at h
  · next k hk =>
    cases h
    exact (Reader.count64?_eq_some.1 hk).2
  · cases h

theorem countFits_of_countMark {line : List Char} {m : ArrayMark (List Char)} {k : ArrayMark Nat}
    (h : countMark line m = .ok k) : CountFits k := by
  cases m with
  | any =>
    cases h
    trivial
  | exactly digits =>
    obtain ⟨n, hn, rfl⟩ := Steps.map_eq_ok.1 h
    exact lt_of_count hn
  | atMost digits =>
    obtain ⟨n, hn, rfl⟩ := Steps.map_eq_ok.1 h
    exact lt_of_count hn

theorem mapM_eq_ok {α β : Type} {f : α → Except Error β} {a : Option α} {b : Option β} :
    a.mapM f = .ok b ↔ (a = none ∧ b = none) ∨ ∃ x y, a = some x ∧ f x = .ok y ∧ b = some y := by
  cases a with
  | none =>
    change Except.ok none = Except.ok b ↔ _
    simp [eq_comm]
  | some x =>
    change (f x).map some = .ok b ↔ _
    rw [Steps.map_eq_ok]
    simp [eq_comm]

@[simp] theorem isComplex_plainField (d : Declaration) (bound : Option Nat)
    (array : Option (ArrayMark Nat)) :
    (d.plainField bound array).isComplex = isComplexType d.fieldType := by
  rcases array with _ | (_ | _ | _) <;> rfl

/-- Only a literal after an equality sign is read as an assigned text. -/
theorem assigned?_of_read? {tail raw : List Char} (h : Ending.read? tail = some (.assigned raw)) :
    assigned? tail = some raw := by
  unfold Ending.read? at h
  cases hassigned : assigned? tail with
  | some text =>
    rw [hassigned] at h
    cases h
    rfl
  | none =>
    rw [hassigned] at h
    cases hdefault : default? tail with
    | some text =>
      rw [hdefault] at h
      cases h
    | none =>
      rw [hdefault] at h
      change (if isFinished tail then some Ending.nothing else none) = _ at h
      split at h <;> cases h

/-- A line without a line end that is read as a field declares it. -/
theorem exists_declared_of_field {line : List Char} {f : Field} (hline : '\n' ∉ line)
    (h : field line = .ok f) : ∃ d bound array, Declared d bound array f := by
  obtain ⟨d, hd, h⟩ := field_eq_ok.1 h
  obtain ⟨gap, tail, w⟩ := declaration_eq_some.1 hd
  obtain ⟨bound, hbound, array, harray, hstring, hy⟩ := Declaration.field_eq_ok.1 h
  have htype : d.fieldType = f.type := by
    cases hy <;> simp [Field.constantOf, Declaration.plainField, Field.variableOf]
  refine ⟨d, bound, array, htype, ?_, w.name, ?_, ?_, hstring, hy, ?_⟩
  · rw [← htype, Declaration.fieldType, foldAlias_foldAlias]
  · rintro n hn
    rcases mapM_eq_ok.1 hbound with ⟨-, rfl⟩ | ⟨digits, n', -, hcount, rfl⟩
    · cases hn
    · cases hn
      exact lt_of_count hcount
  · rintro m hm
    rcases mapM_eq_ok.1 harray with ⟨-, rfl⟩ | ⟨mark, m', -, hmark, rfl⟩
    · cases hm
    · cases hm
      exact countFits_of_countMark hmark
  · intro raw hraw
    have hread := w.ending
    rw [hraw] at hread
    have hassigned := assigned?_of_read? hread
    refine ⟨fun hm => hline ?_, tail, hassigned⟩
    rw [w.eq]
    simp [subset_of_assigned? hassigned hm]

/-- No literal has a type that can be resolved. -/
theorem takesLiteral_eq_false {type : String} (h : isComplexType type = true) : takesLiteral type = false := by
  rw [isComplexType, Option.isNone_iff_eq_none] at h
  rw [takesLiteral, h]
  rfl

namespace Declared

variable {d : Declaration} {bound : Option Nat} {array : Option (ArrayMark Nat)} {f g : Field}

theorem isComplexType_of_isComplex (h : Declared d bound array f) (hcomplex : f.isComplex = true) :
    isComplexType f.type = true := by
  rw [← h.type]
  have hy := h.yields
  cases hy with
  | constant => exact hcomplex
  | default => simpa using hcomplex
  | plain => simpa using hcomplex

/-- A field of a type that can be resolved is a variable without a bound or a default. -/
theorem plain_of_isComplexType (h : Declared d bound array f) (hcomplex : isComplexType f.type = true) :
    bound = none ∧ d.ending = .nothing ∧ isNameIn Char.isLower d.name = true ∧
      f = d.plainField bound array := by
  have hliteral : takesLiteral d.fieldType = false := takesLiteral_eq_false (h.type ▸ hcomplex)
  have hne : d.fieldType ≠ "string" ∧ d.fieldType ≠ "wstring" := by
    rw [h.type]
    refine ⟨?_, ?_⟩ <;>
      · intro heq
        rw [heq] at hcomplex
        exact absurd hcomplex (by decide)
  have hbound : bound = none := by
    have hstring := h.string
    cases bound with
    | none => rfl
    | some n => simp [hne.1, hne.2] at hstring
  have hy := h.yields
  cases hy with
  | constant raw value ending name scalar literal => simp [hliteral] at literal
  | default raw value ending name literal => simp [hliteral] at literal
  | plain ending name => exact ⟨hbound, ending, name, rfl⟩

/-- Resolving a field leaves its declaration as it is, but for the type. -/
theorem resolve {names : List String} (h : Declared d bound array f) (hr : f.resolve names = .ok g) :
    ∃ d', Declared d' bound array g := by
  rw [Field.resolve_eq_ok] at hr
  split at hr
  · next hcomplex =>
    obtain ⟨type, hresolve, rfl⟩ := hr
    have hmem : type ∈ names.filter (refersTo f.type) := by
      rw [resolveType_eq_ok.1 hresolve]
      exact List.mem_singleton_self type
    have hcomplexType := h.isComplexType_of_isComplex hcomplex
    obtain ⟨hfold, hnew⟩ := folded_of_refersTo h.folded hcomplexType (List.mem_filter.1 hmem).2
    have htype : (Declaration.fieldType { d with type := type.toList }) = type := by
      rw [Declaration.fieldType, String.ofList_toList, hfold]
    obtain ⟨rfl, ending, name, rfl⟩ := h.plain_of_isComplexType hcomplexType
    refine ⟨{ d with type := type.toList }, htype, hfold, h.name, h.boundFits, h.arrayFits, rfl, ?_, h.text⟩
    have hplain : Declaration.plainField { d with type := type.toList } none array =
        { d.plainField none array with type } := by
      rcases array with _ | (_ | _ | _) <;>
        simp_all [Declaration.plainField, markField, Field.variableOf, Field.asArray]
    rw [← hplain]
    exact .plain ending name
  · subst hr
    exact ⟨d, h⟩

end Declared

end Line.Ros2

end RosSchema

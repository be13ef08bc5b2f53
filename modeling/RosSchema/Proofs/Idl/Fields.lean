import RosSchema.Proofs.Idl.Names
import RosSchema.Proofs.Literal.Failures

/-!
# Fields of members

A member becomes a field by its shape, in which the typedef of its type is inlined. The literals of the
shape are all that the constants of a scope have a say in: scopes that agree on the names among them
give the same field.
-/

namespace RosSchema.Idl

/-! ## Errors -/

def IsUnresolved : Error → Prop
  | .unresolvedConstant .. => True
  | _ => False

theorem not_isUnresolved_of_inline {typedefs : Typedefs} {m : Member} {e : Error}
    (h : typedefs.inline m = .error e) : ¬ IsUnresolved e := by
  unfold Typedefs.inline at h
  split at h
  · cases h
  · split at h
    · cases h
      exact id
    · cases h

/-- Fitting a value to a type never misses a constant. -/
theorem not_isUnresolved_of_isLiteral {e : Error} (h : e.IsLiteral) : ¬ IsUnresolved e := by
  cases h <;> exact id

namespace Scope

/-! ## Literals -/

theorem substitute_constant_eq_ok {s : Scope} {name field parent : String} {v : ConstantValue} :
    s.substitute (.constant name) field parent = .ok v ↔ lookup? s.constants name = some v := by
  rw [substitute]
  cases lookup? s.constants name <;> simp

/-- A literal misses a constant only if it is a name that stands for none. -/
theorem substitute_eq_error {s : Scope} {l : Literal} {field parent : String} {e : Error}
    (h : s.substitute l field parent = .error e) :
    ∃ name, l = .constant name ∧ lookup? s.constants name = none := by
  cases l with
  | value v => cases h
  | constant name =>
    refine ⟨name, rfl, ?_⟩
    cases hl : lookup? s.constants name with
    | none => rfl
    | some v => simp [substitute, hl] at h

theorem count_eq_ok {s : Scope} {l : Option Literal} {m : Member} {parent : String}
    {n : Option Nat} : s.count l m parent = .ok n ↔
      (l = none ∧ n = none) ∨ ∃ lit v k, l = some lit ∧ n = some k ∧
        s.substitute lit m.name parent = .ok v ∧ v.value.count? = some k := by
  cases l with
  | none => simp [count, eq_comm]
  | some lit =>
    rw [count, Steps.bind_eq_ok]
    constructor
    · rintro ⟨v, hv, h⟩
      cases hk : v.value.count? with
      | none => simp [hk] at h
      | some k =>
        simp only [hk] at h
        cases h
        exact .inr ⟨lit, v, k, rfl, rfl, hv, hk⟩
    · rintro (⟨h, -⟩ | ⟨lit', v, k, h, rfl, hv, hk⟩)
      · cases h
      · cases h
        exact ⟨v, hv, by simp [hk, pure, Except.pure]⟩

theorem count_eq_error {s : Scope} {l : Option Literal} {m : Member} {parent : String} {e : Error}
    (h : s.count l m parent = .error e) (he : IsUnresolved e) :
    ∃ name, l = some (.constant name) ∧ lookup? s.constants name = none := by
  cases l with
  | none => cases h
  | some lit =>
    rcases Steps.bind_eq_error.1 h with h | ⟨v, -, h⟩
    · obtain ⟨name, rfl, hnone⟩ := substitute_eq_error h
      exact ⟨name, rfl, hnone⟩
    · split at h
      · cases h
      · cases h
        exact he.elim

/-! ## Constants -/

def constantText (m : Member) (l : Literal) (v : ConstantValue) : Option String :=
  match l with
  | .value _ => m.valueText
  | .constant _ => v.text

/-- The field of a constant, step by step. -/
theorem constantField_eq (s : Scope) (parent : String) (declared : Member) :
    s.constantField parent declared =
      (s.typedefs.inline declared >>= fun m => s.count m.stringBound m parent >>= fun bound =>
        if m.isArray then
          .error (.malformed "constant (constants must be non-array primitives)" (shownMember m))
        else match m.value with
          | none => .error (.malformed "constant without a value" m.name)
          | some l => s.substitute l m.name parent >>= fun v =>
            (Literal.coerce (fieldType m) false v.value).map fun value =>
              { Field.constantOf (fieldType m) m.name value (constantText m l v) with
                stringBound := bound }) := by
  refine bind_congr fun m => bind_congr fun bound => ?_
  cases m.isArray with
  | true => rfl
  | false =>
    cases hl : m.value with
    | none => rfl
    | some l =>
      refine bind_congr fun v => ?_
      cases l <;> cases Literal.coerce (fieldType m) false v.value <;> rfl

theorem constantField_eq_ok {s : Scope} {parent : String} {declared : Member} {f : Field} :
    s.constantField parent declared = .ok f ↔ ∃ m, s.typedefs.inline declared = .ok m ∧
      ∃ bound, s.count m.stringBound m parent = .ok bound ∧ m.isArray = false ∧
      ∃ l, m.value = some l ∧ ∃ v, s.substitute l m.name parent = .ok v ∧
      ∃ value, Literal.coerce (fieldType m) false v.value = .ok value ∧
      f = { Field.constantOf (fieldType m) m.name value (constantText m l v) with
        stringBound := bound } := by
  simp only [constantField_eq, Steps.bind_eq_ok]
  refine exists_congr fun m => and_congr_right fun _ => exists_congr fun bound =>
    and_congr_right fun _ => ?_
  cases m.isArray with
  | true => simp
  | false =>
    cases m.value with
    | none => simp
    | some l =>
      simp only [Bool.false_eq_true, ↓reduceIte, Steps.bind_eq_ok, Steps.map_eq_ok, true_and,
        Option.some.injEq, exists_eq_left']
      exact exists_congr fun v => and_congr_right fun _ => exists_congr fun value =>
        and_congr_right fun _ => eq_comm

/-- A constant that becomes a field has a value. -/
theorem exists_value_of_constantField {s : Scope} {parent : String} {declared : Member} {f : Field}
    (h : s.constantField parent declared = .ok f) : ∃ v, f.value = some v := by
  obtain ⟨m, -, bound, -, -, l, -, v, -, value, -, rfl⟩ := constantField_eq_ok.1 h
  exact ⟨value, rfl⟩

/-- All references of a constant that becomes a field have values. -/
theorem lookup?_of_constantField {s : Scope} {parent : String} {declared m : Member} {f : Field}
    (h : s.constantField parent declared = .ok f) (hm : s.typedefs.inline declared = .ok m) :
    ∀ name ∈ m.references, ∃ v, lookup? s.constants name = some v := by
  obtain ⟨m', hm', bound, hbound, -, l, hl, v, hv, -⟩ := constantField_eq_ok.1 h
  cases hm.symm.trans hm'
  intro name hname
  obtain ⟨lit, hlit, hsome⟩ := List.mem_filterMap.1 hname
  cases lit with
  | value w => cases hsome
  | constant other =>
    cases hsome
    rcases List.mem_append.1 hlit with hlit | hlit
    · rw [hl, Option.mem_toList] at hlit
      cases hlit
      exact ⟨v, substitute_constant_eq_ok.1 hv⟩
    · rw [Option.mem_toList] at hlit
      rcases count_eq_ok.1 hbound with ⟨hnone, -⟩ | ⟨lit, w, k, hsome, -, hw, -⟩
      · rw [hnone] at hlit
        cases hlit
      · cases hlit.symm.trans hsome
        exact ⟨w, substitute_constant_eq_ok.1 hw⟩

/-- A constant misses another one only by a name among its references. -/
theorem constantField_eq_error {s : Scope} {parent : String} {declared : Member} {e : Error}
    (h : s.constantField parent declared = .error e) (he : IsUnresolved e) :
    ∃ m, s.typedefs.inline declared = .ok m ∧
      ∃ name ∈ m.references, lookup? s.constants name = none := by
  rw [constantField_eq] at h
  rcases Steps.bind_eq_error.1 h with h | ⟨m, hm, h⟩
  · exact absurd he (not_isUnresolved_of_inline h)
  refine ⟨m, hm, ?_⟩
  rcases Steps.bind_eq_error.1 h with h | ⟨bound, -, h⟩
  · obtain ⟨name, hl, hnone⟩ := count_eq_error h he
    exact ⟨name, by simp [Member.references, hl], hnone⟩
  split at h
  · cases h
    exact he.elim
  split at h
  · cases h
    exact he.elim
  · next l hl =>
    rcases Steps.bind_eq_error.1 h with h | ⟨v, -, h⟩
    · obtain ⟨name, rfl, hnone⟩ := substitute_eq_error h
      exact ⟨name, by simp [Member.references, hl], hnone⟩
    · cases hv : Literal.coerce (fieldType m) false v.value with
      | ok value => simp [hv, Except.map] at h
      | error e' =>
        simp only [hv, Except.map, Except.error.injEq] at h
        subst h
        exact absurd he (not_isUnresolved_of_isLiteral (Literal.coerce_fails _ _ _ _ hv))

theorem substitute_congr {s t : Scope} {l : Literal}
    (h : ∀ name, l = .constant name → lookup? s.constants name = lookup? t.constants name)
    (field parent : String) : s.substitute l field parent = t.substitute l field parent := by
  cases l with
  | value v => rfl
  | constant name => simp only [substitute, h name rfl]

theorem count_congr {s t : Scope} {l : Option Literal}
    (h : ∀ name, l = some (.constant name) → lookup? s.constants name = lookup? t.constants name)
    (m : Member) (parent : String) : s.count l m parent = t.count l m parent := by
  cases l with
  | none => rfl
  | some l => simp only [count, substitute_congr fun name hl => h name (hl ▸ rfl)]

/-- The field of a constant depends on the values of the constants it refers to, and on no other. -/
theorem constantField_congr {s t : Scope} (htypedefs : s.typedefs = t.typedefs) {declared : Member}
    (h : ∀ m, s.typedefs.inline declared = .ok m → ∀ name ∈ m.references,
      lookup? s.constants name = lookup? t.constants name) (parent : String) :
    s.constantField parent declared = t.constantField parent declared := by
  rw [constantField_eq, constantField_eq, ← htypedefs]
  cases hm : s.typedefs.inline declared with
  | error e => rfl
  | ok m =>
    change (s.count m.stringBound m parent >>= _) = (t.count m.stringBound m parent >>= _)
    rw [count_congr fun name hb => h m hm name (by simp [Member.references, hb])]
    refine bind_congr fun bound => ?_
    split
    · rfl
    · split
      · rfl
      · next l hl =>
        rw [substitute_congr fun name hname => h m hm name (by simp [Member.references, hl, hname])]

/-- The field of a variable, step by step. -/
theorem variableField_eq_ok {s : Scope} {parent : String} {declared : Member} {f : Field} :
    s.variableField parent declared = .ok f ↔ ∃ m, s.typedefs.inline declared = .ok m ∧
      ∃ bound, s.count m.stringBound m parent = .ok bound ∧
      ∃ length, s.count m.arrayLength m parent = .ok length ∧
      ∃ most, s.count m.arrayBound m parent = .ok most ∧
      ∃ default, (m.defaultValue.mapM fun l => do
        let v ← s.substitute l m.name parent
        Literal.coerce (fieldType m) m.isArray v.value) = .ok default ∧
      f = { (if m.isArray then (Field.variableOf (fieldType m) m.name).asArray length most
          else Field.variableOf (fieldType m) m.name) with
        stringBound := bound, defaultValue := default } := by
  simp only [variableField, Steps.bind_eq_ok]
  refine exists_congr fun m => and_congr_right fun _ => exists_congr fun bound =>
    and_congr_right fun _ => exists_congr fun length => and_congr_right fun _ =>
    exists_congr fun most => and_congr_right fun _ => exists_congr fun default =>
    and_congr_right fun _ => ?_
  constructor
  · intro h
    cases h
    rfl
  · rintro rfl
    rfl

theorem variableField_congr {s t : Scope} (htypedefs : s.typedefs = t.typedefs)
    (h : ∀ name, lookup? s.constants name = lookup? t.constants name) (parent : String)
    (declared : Member) : s.variableField parent declared = t.variableField parent declared := by
  have hsub : ∀ l field parent, s.substitute l field parent = t.substitute l field parent :=
    fun l => substitute_congr fun name _ => h name
  have hcount : ∀ l m parent, s.count l m parent = t.count l m parent :=
    fun l => count_congr fun name _ => h name
  simp only [variableField, htypedefs, hsub, hcount]

end Scope

end RosSchema.Idl

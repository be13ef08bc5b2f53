import RosSchema.Proofs.Idl.Numerals
import RosSchema.Proofs.Literal.Integers

/-!
# Values fitted to a type

Fitting a value to a type either fails or gives a value of the type, and the values of a type are those that
fitting leaves alone. An integer is fitted to an integer type where it lies in the range of the type, and
stays the same number.
-/

namespace RosSchema.Literal

/-- A value of the kind of a primitive type. The literals of a floating point type are numbers; its other
values may be none. -/
inductive OfKind (p : Primitive) : Value → Prop where
  | literal {v : Value} (fits : Fits p v) : OfKind p v
  | notNumber {x : Binary64} (type : p.isFloat = true) (nan : x.isNaN = true) : OfKind p (.float x)

inductive HasKind (type : String) : Bool → Value → Prop where
  | scalar {p : Primitive} {v : Value} (literal : literalType type = .ok p) (kind : OfKind p v) :
      HasKind type false v
  | array {items : List Value} (kinds : ∀ v ∈ items, HasKind type false v) : HasKind type true (.array items)

variable {type : String} {p : Primitive} {v w : Value}

/-! ## Scalars -/

/-- A value is fitted to one that is a literal of the type, or it is no number and left alone. -/
theorem fits_or_notNumber_of_coerceScalar (h : coerceScalar type v = .ok w) :
    ∃ p, literalType type = .ok p ∧
      (Fits p w ∨ ∃ x : Binary64, p.isFloat = true ∧ x.isNaN = true ∧ v = .float x ∧ w = .float x) := by
  obtain ⟨p, literal, h⟩ := Steps.bind_eq_ok.1 h
  refine ⟨p, literal, ?_⟩
  have hinteger {i : Int} {text : String} {misfit : Error}
      (h : (if p.isFloat then Except.ok (.float (.ofInt i)) else
        if p.range?.isSome then integerValue p i text else .error misfit) = .ok w) : Fits p w := by
    split at h
    · next hfloat =>
      cases h
      exact .float _ hfloat (isNaN_nearest _ _ _)
    split at h
    · exact fits_of_integerValue h
    · cases h
  -- the other scalars are left alone or refused
  have hsame {c : Prop} [Decidable c] {u : Value} {misfit : Error}
      (h : (if c then Except.ok u else .error misfit) = .ok w) : c ∧ w = u := by
    split at h
    · next hc =>
      cases h
      exact ⟨hc, rfl⟩
    · cases h
  cases v with
  | bool b =>
    obtain ⟨hbool, rfl⟩ := hsame h
    exact .inl (.bool b hbool)
  | int i => exact .inl (hinteger h)
  | uint n => exact .inl (hinteger h)
  | float x =>
    obtain ⟨hfloat, rfl⟩ := hsame h
    cases hnan : x.isNaN with
    | true => exact .inr ⟨x, hfloat, hnan, rfl, rfl⟩
    | false => exact .inl (.float x hfloat hnan)
  | string s =>
    obtain ⟨hstring, rfl⟩ := hsame h
    exact .inl (.string s hstring)
  | array items => cases h

/-- A value of some primitive type that is fitted to a type is a value of it. -/
theorem fits_of_coerceScalar {q : Primitive} (hv : Fits q v) (h : coerceScalar type v = .ok w) :
    ∃ p, literalType type = .ok p ∧ Fits p w := by
  obtain ⟨p, literal, fits | ⟨x, -, nan, rfl, -⟩⟩ := fits_or_notNumber_of_coerceScalar h
  · exact ⟨p, literal, fits⟩
  · obtain _ | ⟨_, _, number⟩ := hv
    simp [nan] at number

/-- What a value is fitted to is a value of the type. -/
theorem hasKind_of_coerceScalar (h : coerceScalar type v = .ok w) : HasKind type false w := by
  obtain ⟨p, literal, fits | ⟨x, hfloat, nan, -, rfl⟩⟩ := fits_or_notNumber_of_coerceScalar h
  · exact .scalar literal (.literal fits)
  · exact .scalar literal (.notNumber hfloat nan)

/-- A value of a type is fitted to itself. -/
theorem coerceScalar_of_hasKind (h : HasKind type false v) : coerceScalar type v = .ok v := by
  obtain @⟨p, v, literal, kind⟩ := h
  cases kind with
  | notNumber hfloat nan =>
    rw [coerceScalar, literal]
    exact if_pos hfloat
  | literal fits =>
    cases fits with
    | bool b hbool =>
      rw [coerceScalar, literal]
      exact if_pos hbool
    | float x hfloat _ =>
      rw [coerceScalar, literal]
      exact if_pos hfloat
    | string s hstring =>
      rw [coerceScalar, literal]
      exact if_pos hstring
    | signed i least greatest range sign hin =>
      obtain ⟨text, htext⟩ := coerceScalar_of_range literal range .int
      rw [htext, integerValue_signed range sign hin]
    | unsigned n greatest range sign hin =>
      obtain ⟨text, htext⟩ := coerceScalar_of_range literal range (.uint n rfl)
      rw [htext, integerValue_unsigned range sign hin]

/-! ## Arrays -/

theorem coerce_array_eq_ok {items : List Value} : coerce type true (.array items) = .ok w ↔
    ∃ items', List.Forall₂ (fun v w => coerceScalar type v = .ok w) items items' ∧ w = .array items' := by
  rw [coerce, if_pos rfl, Steps.bind_eq_ok]
  constructor
  · rintro ⟨items', hitems, h⟩
    exact ⟨items', Steps.mapM_eq_ok_iff.1 hitems, (Except.ok.inj h).symm⟩
  · rintro ⟨items', hitems, rfl⟩
    exact ⟨items', Steps.mapM_eq_ok_iff.2 hitems, rfl⟩

/-- What is fitted is of the type. -/
theorem hasKind_of_coerce {isArray : Bool} (h : coerce type isArray v = .ok w) : HasKind type isArray w := by
  cases isArray with
  | false => exact hasKind_of_coerceScalar h
  | true =>
    cases v with
    | string text =>
      obtain ⟨p, items, literal, rfl, fits⟩ := fits_of_decodeArray h
      exact .array fun v hv => .scalar literal (.literal (fits v hv))
    | array items =>
      obtain ⟨items', hitems, rfl⟩ := coerce_array_eq_ok.1 h
      refine .array fun w hw => ?_
      obtain ⟨v, -, hv⟩ := Steps.exists_of_mem_right hitems hw
      exact hasKind_of_coerceScalar hv
    | _ => cases h

/-- The values of a type, and the arrays of them, are those that fitting leaves alone. -/
theorem coerce_eq_self_iff {isArray : Bool} : coerce type isArray v = .ok v ↔ HasKind type isArray v := by
  refine ⟨hasKind_of_coerce, fun h => ?_⟩
  cases h with
  | scalar literal kind => exact coerceScalar_of_hasKind (.scalar literal kind)
  | array kinds =>
    exact coerce_array_eq_ok.2 ⟨_, List.forall₂_same.2 fun v hv => coerceScalar_of_hasKind (kinds v hv), rfl⟩

/-! ## Integers -/

/-- The numbers from the least one of a type on have values that stand for them. -/
theorem exists_holds {t : IntegerType} {i : Int} (h : t.least ≤ i) : ∃ v, t.Holds v i := by
  cases hsigned : t.signed with
  | true => exact ⟨_, .int i hsigned⟩
  | false =>
    have hi : 0 ≤ i := by simpa [IntegerType.least, hsigned] using h
    exact ⟨_, (IntegerType.holds_of_unsigned hsigned).2 ⟨hi, rfl⟩⟩

/-- An integer is fitted to an integer type where it lies in the range of the type, and to the value that
stands for it. -/
theorem coerce_integer {t : IntegerType} (named : (type, t) ∈ IntegerType.named) {i : Int} (hv : v.IsInteger i) :
    coerce type false v = .ok w ↔ t.least ≤ i ∧ i ≤ t.greatest ∧ t.Holds w i := by
  obtain ⟨p, literal, range, sign, -⟩ := exists_literalType named
  obtain ⟨text, htext⟩ := coerceScalar_of_range literal range hv
  have hcoerce : coerce type false v = integerValue p i text := htext
  rw [hcoerce, integerValue_eq_ok range sign]

/-- Fitting projects onto the values of a type: what it gives is of the type and is fitted to itself, an array
keeps its length, and integers are kept exactly within the range of an integer type. -/
theorem coerce_projects (type : String) (isArray : Bool) (v : Value) :
    (∀ w, coerce type isArray v = .ok w → HasKind type isArray w ∧ coerce type isArray w = .ok w) ∧
    (HasKind type isArray v → coerce type isArray v = .ok v) ∧
    (∀ items w, v = .array items → isArray = true → coerce type isArray v = .ok w →
      ∃ items', w = .array items' ∧ items'.length = items.length) ∧
    ∀ t i, isArray = false → (type, t) ∈ IntegerType.named → v.IsInteger i →
      ((∃ w, coerce type isArray v = .ok w) ↔ t.least ≤ i ∧ i ≤ t.greatest) ∧
        ∀ w, coerce type isArray v = .ok w → t.Holds w i := by
  refine ⟨fun w h => ?_, coerce_eq_self_iff.2, ?_, ?_⟩
  · have hkind := hasKind_of_coerce h
    exact ⟨hkind, coerce_eq_self_iff.2 hkind⟩
  · rintro items w rfl rfl h
    obtain ⟨items', hitems, rfl⟩ := coerce_array_eq_ok.1 h
    exact ⟨items', rfl, hitems.length_eq.symm⟩
  · rintro t i rfl named hv
    simp only [coerce_integer named hv]
    refine ⟨⟨fun ⟨w, hlow, hhigh, _⟩ => ⟨hlow, hhigh⟩, fun ⟨hlow, hhigh⟩ => ?_⟩, fun w h => h.2.2⟩
    obtain ⟨w, hw⟩ := exists_holds hlow
    exact ⟨w, hlow, hhigh, hw⟩

/-- The elements of an array become values of one kind, and the first number above a type has none in it. -/
theorem coerce_projects_of_wordBoundary :
    (coerce "uint64" true (.array [.int 5, .uint (2 ^ 64 - 1)]) = .ok (.array [.uint 5, .uint (2 ^ 64 - 1)]) ∧
      HasKind "uint64" true (.array [.uint 5, .uint (2 ^ 64 - 1)])) ∧
    (¬ ∃ w, coerce "int64" false (.uint (2 ^ 63)) = .ok w) ∧
    ∃ w, coerce "int64" false (.uint (2 ^ 63 - 1)) = .ok w := by
  have hcoerce : coerce "uint64" true (.array [.int 5, .uint (2 ^ 64 - 1)]) =
      .ok (.array [.uint 5, .uint (2 ^ 64 - 1)]) := rfl
  have hrange (n : Nat) := ((coerce_projects "int64" false (.uint n)).2.2.2 ⟨true, 64⟩ n rfl (by decide)
    (.uint n rfl)).1
  refine ⟨⟨hcoerce, ((coerce_projects _ _ _).1 _ hcoerce).1⟩, ?_, (hrange _).2 (by decide)⟩
  intro h
  exact absurd ((hrange _).1 h) (by decide)

end RosSchema.Literal

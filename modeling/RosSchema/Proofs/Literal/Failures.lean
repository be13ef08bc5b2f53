import RosSchema.Literal.Coerce
import RosSchema.Proofs.Literal.Arrays

/-!
# How computations fail

A property of errors is carried through a computation step by step. Literals fail in two ways only: they
are not of their type, or their number is not in its range.
-/

namespace RosSchema

def FailsWith {α : Type} (P : Error → Prop) (x : Except Error α) : Prop := ∀ e, x = .error e → P e

namespace FailsWith

variable {α β : Type} {P Q : Error → Prop} {x : Except Error α}

theorem ok (a : α) : FailsWith P (.ok a) := by
  rintro e ⟨⟩

theorem error {e : Error} (h : P e) : FailsWith P (.error e : Except Error α) := by
  rintro _ ⟨⟩
  exact h

theorem mono (h : FailsWith P x) (hPQ : ∀ e, P e → Q e) : FailsWith Q x := fun e he => hPQ e (h e he)

theorem bind {f : α → Except Error β} (h : FailsWith P x) (hf : ∀ a, FailsWith P (f a)) :
    FailsWith P (x >>= f) := by
  intro e he
  rcases Steps.bind_eq_error.1 he with he | ⟨a, -, he⟩
  · exact h e he
  · exact hf a e he

theorem map (h : FailsWith P x) (f : α → β) : FailsWith P (x.map f) := by
  cases x with
  | error e => exact error (h e rfl)
  | ok a => exact ok (f a)

theorem mapError (h : FailsWith P x) {f : Error → Error} (hf : ∀ e, P e → P (f e)) :
    FailsWith P (x.mapError f) := by
  cases x with
  | error e => exact error (hf e (h e rfl))
  | ok a => exact ok a

theorem ite {c : Prop} [Decidable c] {y : Except Error α} (hx : FailsWith P x) (hy : FailsWith P y) :
    FailsWith P (if c then x else y) := by
  split
  · exact hx
  · exact hy

theorem mapM {f : α → Except Error β} {xs : List α} (h : ∀ a ∈ xs, FailsWith P (f a)) :
    FailsWith P (xs.mapM f) := by
  intro e he
  obtain ⟨before, a, after, rfl, -, ha⟩ := Steps.mapM_eq_error_iff.1 he
  exact h a (by simp) e ha

theorem optionMapM {f : α → Except Error β} (a : Option α) (h : ∀ b, FailsWith P (f b)) :
    FailsWith P (a.mapM f) := by
  cases a with
  | none => exact ok none
  | some b => exact (h b).map some

theorem foldlM {f : β → α → Except Error β} (h : ∀ b a, FailsWith P (f b a)) (xs : List α) (b : β) :
    FailsWith P (xs.foldlM f b) := by
  induction xs generalizing b with
  | nil => exact ok b
  | cons a xs ih =>
    rw [List.foldlM_cons]
    exact (h b a).bind ih

end FailsWith

inductive Error.IsLiteral : Error → Prop where
  | badLiteral (type : String) (fault : Fault) : IsLiteral (.badLiteral type fault)
  | outOfRange (value : String) (least greatest : Int) : IsLiteral (.outOfRange value least greatest)

namespace Literal

open Error.IsLiteral (badLiteral)

theorem literalType_fails (type : String) : FailsWith Error.IsLiteral (literalType type) := by
  unfold literalType
  split
  · exact .ite (.ok _) (.error (badLiteral ..))
  · exact .error (badLiteral ..)

theorem decodeString_fails (text : List Char) : FailsWith Error.IsLiteral (decodeString text) := by
  unfold decodeString
  split
  · exact .ok _
  · exact .error (badLiteral ..)

theorem decodeBool_fails (type : String) (text : List Char) :
    FailsWith Error.IsLiteral (decodeBool type text) := by
  unfold decodeBool
  split <;> first | exact .ok _ | exact .error (badLiteral ..)

theorem decodeFloat_fails (type : String) (text : List Char) :
    FailsWith Error.IsLiteral (decodeFloat type text) := by
  unfold decodeFloat
  split
  · exact .ok _
  · exact .error (badLiteral ..)

theorem integerValue_fails (p : Primitive) (i : Int) (text : String) :
    FailsWith Error.IsLiteral (integerValue p i text) := by
  unfold integerValue
  split
  · exact .error (badLiteral ..)
  · exact .ite (.error (.outOfRange ..)) (.ok _)

theorem decodeInteger_fails (p : Primitive) (text : List Char) :
    FailsWith Error.IsLiteral (decodeInteger p text) := by
  unfold decodeInteger
  split
  · exact integerValue_fails _ _ _
  · exact .error (badLiteral ..)

theorem decodeScalar_fails (type : String) (raw : List Char) :
    FailsWith Error.IsLiteral (decodeScalar type raw) := by
  refine (literalType_fails type).bind fun p => ?_
  split
  · exact decodeBool_fails _ _
  · exact decodeFloat_fails _ _
  · exact decodeFloat_fails _ _
  · exact (decodeString_fails _).bind fun _ => .ok _
  · exact (decodeString_fails _).bind fun _ => .ok _
  · exact decodeInteger_fails _ _

theorem elementLength_fails (type : String) (cs : List Char) :
    FailsWith Error.IsLiteral (elementLength type cs) := by
  unfold elementLength
  split
  · exact .ok _
  · split
    · split
      · exact .ok _
      · exact .error (badLiteral ..)
    · exact .ok _

theorem decodeElements_fails (type : String) (cs : List Char) :
    FailsWith Error.IsLiteral (decodeElements type cs) := by
  induction cs using decodeElements.induct with
  | case1 cs hcs =>
    rw [decodeElements_of_nil hcs]
    exact .ok _
  | case2 cs rest hcs =>
    rw [decodeElements]
    split
    · exact .ok _
    · exact .error (badLiteral ..)
    · next hcomma => exact absurd hcs (hcomma rest)
  | case3 cs hnil hcomma ih =>
    rw [decodeElements]
    split
    · exact .ok _
    · exact .error (badLiteral ..)
    · refine (elementLength_fails _ _).bind fun n => (decodeString_fails _).bind fun first => ?_
      split
      · exact .ok _
      · next rest hrest => exact (ih n rest hrest).bind fun _ => .ok _
      · exact .error (badLiteral ..)

theorem decodeArray_fails (type : String) (raw : List Char) :
    FailsWith Error.IsLiteral (decodeArray type raw) := by
  unfold decodeArray
  split
  · exact .error (badLiteral ..)
  · refine (literalType_fails type).bind fun p => ?_
    refine .ite ?_ (.ite (.ok _) ?_)
    · exact (decodeElements_fails _ _).bind fun _ => .ok _
    · exact (FailsWith.mapM fun part _ => decodeScalar_fails _ _).bind fun _ => .ok _

theorem coerceScalar_fails (type : String) (value : Value) :
    FailsWith Error.IsLiteral (coerceScalar type value) := by
  refine (literalType_fails type).bind fun p => ?_
  have misfit : FailsWith Error.IsLiteral (.error (.badLiteral type (.wrongKind value type)) :
    Except Error Value) := .error (badLiteral ..)
  cases value with
  | bool b => exact .ite (.ok _) misfit
  | int i => exact .ite (.ok _) (.ite (integerValue_fails _ _ _) misfit)
  | uint n => exact .ite (.ok _) (.ite (integerValue_fails _ _ _) misfit)
  | float x => exact .ite (.ok _) misfit
  | string s => exact .ite (.ok _) misfit
  | array items => exact misfit

theorem coerce_fails (type : String) (isArray : Bool) (value : Value) :
    FailsWith Error.IsLiteral (coerce type isArray value) := by
  unfold coerce
  refine .ite ?_ (coerceScalar_fails _ _)
  split
  · exact decodeArray_fails _ _
  · exact (FailsWith.mapM fun item _ => coerceScalar_fails _ _).bind fun _ => .ok _
  · exact .error (badLiteral ..)

end Literal

end RosSchema

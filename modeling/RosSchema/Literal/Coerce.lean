import RosSchema.Literal.Decode

/-!
# Fitting values to a declared type

Where literals are decoded by their own form, their values are fitted to the declared type afterwards,
under the same ranges as `Literal.decodeScalar`.
-/

namespace RosSchema.Literal

/-- Fit a value to a scalar type. Integers become numbers of a floating point type, and values of an
integer type only in its range. -/
def coerceScalar (type : String) (value : Value) : Except Error Value := do
  let p ← literalType type
  let misfit : Except Error Value := .error (.badLiteral type (.wrongKind value type))
  match value with
  | .bool b => if p = .bool then return .bool b else misfit
  | .int i =>
    if p.isFloat then return .float (.ofInt i)
    else if p.range?.isSome then integerValue p i (String.ofList (Numeral.ofInt i))
    else misfit
  | .uint n =>
    if p.isFloat then return .float (.ofInt n)
    else if p.range?.isSome then integerValue p n (String.ofList (Numeral.ofNat n))
    else misfit
  | .float x => if p.isFloat then return .float x else misfit
  | .string s => if p.isString then return .string s else misfit
  | .array _ => misfit

/-- Fit a value to a type or to an array of it. A string for an array is read as an array literal. -/
def coerce (type : String) (isArray : Bool) (value : Value) : Except Error Value :=
  if isArray then
    match value with
    | .string text => decodeArray type text.toList
    | .array items => return .array (← items.mapM (coerceScalar type))
    | other => .error (.badLiteral type (.notArray other))
  else coerceScalar type value

end RosSchema.Literal

import RosSchema.Literal.Escape
import RosSchema.Number.Decimal
import RosSchema.Text.Blank

/-!
# Decoding literals by their declared type

The declared type decides how a literal is read, never the form of the literal: `1` is true for a
`bool`, one for an `int8` and a character for a `string`.
-/

namespace RosSchema.Literal

open RosSchema.Text (trim trimLeft trimRight)

/-- The primitive type of a literal, which the types of time and complex types do not have. -/
def literalType (type : String) : Except Error Primitive :=
  match Primitive.ofTag? type with
  | some p => if p.hasLiterals then .ok p else .error (.badLiteral type .noLiterals)
  | none => .error (.badLiteral type .noLiterals)

/-- Faults in the text of a string literal are reported for `string`. -/
def decodeString (text : List Char) : Except Error String :=
  match unquote text with
  | .ok cs => .ok (String.ofList cs)
  | .error fault => .error (.badLiteral "string" fault)

def decodeBool (type : String) (text : List Char) : Except Error Value :=
  match String.ofList text with
  | "true" | "True" | "1" => .ok (.bool true)
  | "false" | "False" | "0" => .ok (.bool false)
  | other => .error (.badLiteral type (.notBoolean other))

/-- Decode a floating point number. Numerals beyond the greatest finite number are infinite. -/
def decodeFloat (type : String) (text : List Char) : Except Error Value :=
  match Numeral.ofText? text with
  | some n => .ok (.float (Decimal.ofNumeral n).toBinary64)
  | none => .error (.badLiteral type (.notNumber (String.ofList text)))

/-- An integer as a value of an integer type, whose range it has to lie in. The text is the one to
show if it does not. -/
def integerValue (p : Primitive) (i : Int) (text : String) : Except Error Value :=
  match p.range? with
  | none => .error (.badLiteral p.tag (.notInteger text))
  | some (least, greatest) =>
    if i < least || greatest < i then .error (.outOfRange text least greatest)
    else .ok (if p.isSigned then .int i else .uint i.toNat)

def decodeInteger (p : Primitive) (text : List Char) : Except Error Value :=
  match Numeral.integer? text with
  | some i => integerValue p i (String.ofList text)
  | none => .error (.badLiteral p.tag (.notInteger (String.ofList text)))

/-- Decode a literal of a type. Blanks around it do not count. -/
def decodeScalar (type : String) (raw : List Char) : Except Error Value := do
  let text := trim raw
  match ← literalType type with
  | .bool => decodeBool type text
  | .float32 | .float64 => decodeFloat type text
  | .string | .wstring => return .string (← decodeString text)
  | p => decodeInteger p text

/-! ## Arrays of strings -/

/-- The length of the text up to and including the first quote that is not escaped. -/
def lengthToQuote? (quote : Char) : List Char → Option Nat
  | [] => none
  | '\\' :: _ :: rest => (lengthToQuote? quote rest).map (· + 2)
  | c :: rest => if c = quote then some 1 else (lengthToQuote? quote rest).map (· + 1)

/-- The length of the text before the first comma, closing bracket or `#` that is not escaped. -/
def bareLength : List Char → Nat
  | [] => 0
  | '\\' :: _ :: rest => bareLength rest + 2
  | c :: rest => if c = ',' || c = ']' || c = '#' then 0 else bareLength rest + 1

/-- The length of the array element at the front of a text: a quoted run, or bare text. -/
def elementLength (type : String) (cs : List Char) : Except Error Nat :=
  match cs with
  | [] => .ok 0
  | c :: rest =>
    if isQuote c then
      match lengthToQuote? c rest with
      | some n => .ok (n + 1)
      | none => .error (.badLiteral type (.unterminatedElement c (String.ofList cs)))
    else .ok (bareLength cs)

theorem length_trimLeft_le (cs : List Char) : (trimLeft cs).length ≤ cs.length :=
  (List.dropWhile_sublist _).length_le

/-- Decode string elements that commas separate. One comma may follow the last element. -/
def decodeElements (type : String) (cs : List Char) : Except Error (List Value) :=
  match _h₁ : trimLeft cs with
  | [] => .ok []
  | ',' :: _ => .error (.badLiteral type .emptyElement)
  | text => do
    let n ← elementLength type text
    let first ← decodeString (trimRight (text.take n))
    match _h₂ : trimLeft (text.drop n) with
    | [] => return [.string first]
    | ',' :: rest => return .string first :: (← decodeElements type rest)
    | _ => .error (.badLiteral type .noComma)
termination_by cs.length
decreasing_by
  have le₁ := length_trimLeft_le cs
  have le₂ := length_trimLeft_le (text.drop n)
  rw [_h₁] at le₁
  rw [_h₂, List.length_cons, List.length_drop] at le₂
  omega

def insideBrackets? : List Char → Option (List Char)
  | '[' :: rest => if rest.getLast? = some ']' then some rest.dropLast else none
  | _ => none

/-- Decode an array literal whose elements have a type. Elements other than strings end at the next
comma, and there are none between empty brackets. -/
def decodeArray (type : String) (raw : List Char) : Except Error Value := do
  match insideBrackets? (trim raw) with
  | none => .error (.badLiteral type .noBrackets)
  | some inner =>
    let p ← literalType type
    if p.isString then return .array (← decodeElements type inner)
    else if (trim inner).isEmpty then return .array []
    else return .array (← (inner.splitOn ',').mapM fun part => decodeScalar type (trim part))

end RosSchema.Literal

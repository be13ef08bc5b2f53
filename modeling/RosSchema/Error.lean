import RosSchema.Number.Layout
import RosSchema.Primitive
import RosSchema.Text.Printable
import RosSchema.Value

/-!
# Errors

What can be wrong with a definition, as causes. The wording of each is fixed in `Fault.message` and
`Error.message`. An error can carry the line and the section in which it arose; `Error.innermost`
takes such context away again.
-/

namespace RosSchema

/-- The numbers in an error text: a point from `10 ^ -4` to below `10 ^ 16`, and whole numbers end in
`.0`. -/
def Value.shownNumber : Layout where
  plainFrom := -4
  plainBelow := 16
  wholePoint := true
  plusPower := false
  tie := .up
  zero := "0.0"
  negativeZero := "-0.0"
  infinity := "inf"
  negativeInfinity := "-inf"
  nan := "NaN"

/-- A character of a string in an error text. Characters without a visible form are shown by their
code point. -/
def Value.shownChar (c : Char) : List Char :=
  if c = '"' then ['\\', '"']
  else if c = '\\' then ['\\', '\\']
  else if c = '\n' then ['\\', 'n']
  else if c = '\r' then ['\\', 'r']
  else if c = '\t' then ['\\', 't']
  else if c = '\x00' then ['\\', '0']
  else if Text.isPrintable c then [c]
  else ['\\', 'u', '\x7b'] ++ Nat.toDigits 16 c.toNat ++ ['\x7d']

namespace Value

mutual

def shown : Value → List Char
  | .bool true => "Bool(true)".toList
  | .bool false => "Bool(false)".toList
  | .int i => "Int(".toList ++ Numeral.ofInt i ++ [')']
  | .uint n => "UInt(".toList ++ Numeral.ofNat n ++ [')']
  | .float x => "Float(".toList ++ shownNumber.write x ++ [')']
  | .string s => "String(\"".toList ++ s.toList.flatMap shownChar ++ ['"', ')']
  | .array items => "Array([".toList ++ [',', ' '].intercalate (shownItems items) ++ [']', ')']

def shownItems : List Value → List (List Char)
  | [] => []
  | v :: vs => shown v :: shownItems vs

end

end Value

/-- What is wrong with a literal. The texts are the parts of the literal that the wording quotes. -/
inductive Fault where
  | noLiterals
  | notBoolean (text : String)
  | notNumber (text : String)
  | notInteger (text : String)
  | unterminated (quote : Char) (text : String)
  | strayQuote (quote : Char) (body : String)
  | danglingEscape (body : String)
  | tooFewHexDigits (escape : Char) (width : Nat) (body : String)
  | unknownEscape (escape : Char) (body : String)
  | noCodePoint (code : Nat) (body : String)
  | noBrackets
  | emptyElement
  | unterminatedElement (quote : Char) (text : String)
  | noComma
  | notArray (value : Value)
  | wrongKind (value : Value) (type : String)
  | notCount (field : String)
  /-- A fault known only by its description. -/
  | described (detail : String)
  deriving DecidableEq, Repr

def Fault.message : Fault → String
  | .noLiterals => "literals are only allowed for bool, numeric and string types"
  | .notBoolean text => s!"'{text}' is not a boolean"
  | .notNumber text => s!"'{text}' is not a number"
  | .notInteger text => s!"'{text}' is not an integer"
  | .unterminated quote text => s!"expected terminating {quote} in string literal: {text}"
  | .strayQuote quote body => s!"unescaped {quote} in string literal: {body}"
  | .danglingEscape body => s!"dangling escape in string literal: {body}"
  | .tooFewHexDigits escape width body =>
    let digits := String.ofList (Numeral.ofNat width)
    s!"\\{escape} expects {digits} hex digits in string literal: {body}"
  | .unknownEscape escape body => s!"invalid escape \\{escape} in string literal: {body}"
  | .noCodePoint code body =>
    let digits := String.ofList ((Nat.toDigits 16 code).map Char.toUpper)
    s!"escape U+{digits} is not a valid code point in: {body}"
  | .noBrackets => "array must start with [ and end with ]"
  | .emptyElement => "expected array element before comma"
  | .unterminatedElement quote text => s!"expected terminating {quote} in array element: {text}"
  | .noComma => "expected comma or end of array"
  | .notArray value =>
    let text := String.ofList value.shown
    s!"expected an array literal, found {text}"
  | .wrongKind value type =>
    let text := String.ofList value.shown
    s!"{text} is not a valid {type} literal"
  | .notCount field => s!"bound of {field} must be a non-negative integer"
  | .described detail => detail

inductive NameKind where
  | field
  | constant
  deriving DecidableEq, Repr

def NameKind.word : NameKind → String
  | field => "field"
  | constant => "constant"

inductive Error where
  /-- A text is not in the grammar of what it should be. -/
  | malformed (context text : String)
  /-- A line is derived in more than one way. -/
  | ambiguousLine (line : String)
  /-- An identifier breaks the naming rule of its dialect. -/
  | badName (kind : NameKind) (name : String)
  /-- An integer lies outside the values of its type. -/
  | outOfRange (value : String) (least greatest : Int)
  /-- A literal is not one of its type. -/
  | badLiteral (type : String) (fault : Fault)
  /-- No definition has the name that a field's type refers to. -/
  | unresolvedType (type : String)
  /-- Several definitions have the name that a field's type refers to. -/
  | ambiguousType (type : String) (candidates : List String)
  /-- No constant of the document has the name that is referred to. -/
  | unresolvedConstant (constant field parent : String)
  /-- No dialect has this name, or it is not one for this use. -/
  | unsupportedDialect (dialect : String)
  /-- An error and the line in which it arose. -/
  | atLine (line : String) (cause : Error)
  /-- An error and the section in which it arose. -/
  | inSection (path : String) (cause : Error)
  deriving DecidableEq, Repr

namespace Error

def message : Error → String
  | malformed context text => s!"could not parse {context}: '{text}'"
  | ambiguousLine line => s!"ambiguous line: '{line}'"
  | badName kind name =>
    let word := kind.word
    s!"invalid {word} name: {name}"
  | outOfRange value least greatest =>
    let low := String.ofList (Numeral.ofInt least)
    let high := String.ofList (Numeral.ofInt greatest)
    s!"number {value} out of range [{low}, {high}]"
  | badLiteral type fault =>
    let detail := fault.message
    s!"invalid literal of type {type}: {detail}"
  | unresolvedType type => s!"missing type definition for {type}"
  | ambiguousType type candidates =>
    let names := ", ".intercalate candidates
    s!"ambiguous type reference {type}, candidates: {names}"
  | unresolvedConstant constant field parent =>
    s!"could not find constant {constant} for field {field} in {parent}"
  | unsupportedDialect dialect => s!"dialect '{dialect}' is not supported by this build"
  | atLine line cause =>
    let inner := cause.message
    s!"{inner} (line: '{line}')"
  | inSection path cause =>
    let inner := cause.message
    s!"{inner} (in {path})"

/-- Errors that quote the line they arose in, or carry it already. -/
def showsLine : Error → Bool
  | malformed _ _ | ambiguousLine _ | atLine _ _ => true
  | _ => false

/-- Add the line in which an error arose, unless the error shows it. -/
def withLine (line : String) (e : Error) : Error :=
  if e.showsLine then e else atLine line e

def withSection (path : String) (e : Error) : Error := inSection path e

/-- The error under all context. -/
def innermost : Error → Error
  | atLine _ cause | inSection _ cause => cause.innermost
  | e => e

/-- The errors that an error wraps, from the outside in. -/
def causes : Error → List Error
  | atLine _ cause | inSection _ cause => cause :: cause.causes
  | _ => []

end Error

end RosSchema

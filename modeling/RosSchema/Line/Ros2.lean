import RosSchema.Line.Block
import RosSchema.Literal.Decode
import RosSchema.Text.Reader

/-!
# The lines of ROS 2

A line declares a type with an optional bound and an optional array mark, and a name. After that comes
an assigned constant, a default or nothing, and last an optional comment. Where the text after the
name has several readings, an assignment comes first, then a default, then neither, and each of them
has to leave nothing but a comment.
-/

namespace RosSchema.Line.Ros2

open RosSchema.Literal (isQuote lengthToQuote?)
open RosSchema.Text (isBlank trim trimLeft)
open Reader

/-! ## Literals inside a line -/

/-- The length of the text before the first character of a class. A backslash and the character after
it count as one, and a backslash at the end of the line is not part of the text. -/
def lengthBefore (ends : Char → Bool) : List Char → Nat
  | [] => 0
  | '\\' :: _ :: rest => lengthBefore ends rest + 2
  | c :: rest => if c == '\\' || ends c then 0 else lengthBefore ends rest + 1

/-- The length of a literal: text in quotes, or bare text that does not start with a blank. -/
def literalLength? (ends : Char → Bool) : List Char → Option Nat
  | [] => none
  | c :: rest =>
    if isQuote c then (lengthToQuote? c rest).map (· + 1)
    else if isBlank c then none
    else match lengthBefore ends (c :: rest) with
      | 0 => none
      | n => some n

/-- Bare text of a line ends where a comment starts. -/
def endsLine (c : Char) : Bool := c == '#'

/-- Bare text of an array element ends at a comma, at a closing bracket or where a comment starts. -/
def endsElement (c : Char) : Bool := c == ']' || c == ',' || c == '#'

/-- The length of array elements with commas right after them, up to and including the closing
bracket. -/
def elementsLength? (cs : List Char) : Option Nat :=
  if cs.head? = some ']' then some 1
  else
    match literalLength? endsElement cs with
    | none => none
    | some n =>
      match _h : cs.drop n with
      | ',' :: rest => (elementsLength? rest).map (· + n + 1)
      | ']' :: _ => some (n + 1)
      | _ => none
termination_by cs.length
decreasing_by
  have le := congrArg List.length _h
  rw [List.length_drop, List.length_cons] at le
  omega

/-! ## What follows a name -/

/-- Nothing is left of a line but blanks and a comment. -/
def isFinished (cs : List Char) : Bool :=
  match trimLeft cs with
  | [] => true
  | c :: _ => c == '#'

/-- The first part of a text, if the line is finished after it. -/
def finished? (cs : List Char) (length : Option Nat) : Option (List Char) :=
  length.bind fun n => if isFinished (cs.drop n) then some (cs.take n) else none

/-- The text of an assigned constant, which may be missing after the equality sign. -/
def assigned? (cs : List Char) : Option (List Char) :=
  match trimLeft cs with
  | '=' :: rest =>
    let text := trimLeft rest
    finished? text (literalLength? endsLine text) <|> finished? text (some 0)
  | _ => none

/-- The text of a default, which a blank separates from the name. -/
def default? : List Char → Option (List Char)
  | [] => none
  | c :: rest =>
    if !isBlank c then none
    else
      match trimLeft rest with
      | '[' :: elements =>
        finished? ('[' :: elements) ((elementsLength? elements).map (· + 1)) <|>
          finished? ('[' :: elements) (literalLength? endsLine ('[' :: elements))
      | text => finished? text (literalLength? endsLine text)

inductive Ending where
  | assigned (text : List Char)
  | default (text : List Char)
  | nothing
  deriving DecidableEq, Repr

def Ending.read? (cs : List Char) : Option Ending :=
  (assigned? cs).map assigned <|> (default? cs).map default <|>
    (if isFinished cs then some nothing else none)

/-! ## Declarations -/

structure Declaration where
  type : List Char
  /-- The digits of the bound of a string type. -/
  bound : Option (List Char)
  array : Option (ArrayMark (List Char))
  name : List Char
  ending : Ending
  deriving DecidableEq, Repr

def isTypePart (c : Char) : Bool := isNamePart c || c == '/'

def upperBound : Reader (List Char) := token "<=" *> run1 Char.isDigit

def arrayMark : Reader (ArrayMark (List Char)) := do
  mark '['
  let count ← (some <$> (.exactly <$> run1 Char.isDigit <|> .atMost <$> upperBound)) <|> pure none
  mark ']'
  return count.getD .any

def declaration : Reader Declaration := do
  let type ← run1 isTypePart
  let bound ← optional upperBound
  let array ← optional arrayMark
  let _ ← run1 isBlank
  let name ← run1 isNamePart
  let ending ← given (Ending.read? (← rest))
  return ⟨type, bound, array, name, ending⟩

/-- Names of one letter case: a letter, then letters and digits, with single underscores among
them. -/
def isNameTail (isLetter : Char → Bool) : List Char → Bool
  | [] => true
  | '_' :: c :: rest => (isLetter c || c.isDigit) && isNameTail isLetter rest
  | c :: rest => (isLetter c || c.isDigit) && isNameTail isLetter rest

def isNameIn (isLetter : Char → Bool) : List Char → Bool
  | [] => false
  | c :: rest => isLetter c && isNameTail isLetter rest

/-- The number of written digits, which has to fit in 64 bits. -/
def count (line digits : List Char) : Except Error Nat :=
  match count64? digits with
  | some n => .ok n
  | none =>
    let text := String.ofList digits
    .error (.malformed s!"count {text}" (String.ofList line))

def countMark (line : List Char) : ArrayMark (List Char) → Except Error (ArrayMark Nat)
  | .any => .ok .any
  | .exactly digits => (count line digits).map .exactly
  | .atMost digits => (count line digits).map .atMost

def takesLiteral (type : String) : Bool := ((Primitive.ofTag? type).map (·.hasLiterals)).getD false

/-- The field of a declaration. Constants are upper case and scalar, variables are lower case, and
only strings have a bound. -/
def Declaration.field (line : List Char) (d : Declaration) : Except Error Field := do
  let type := foldAlias (String.ofList d.type)
  let name := String.ofList d.name
  let malformed (context : String) : Error := .malformed context (String.ofList line)
  let bound ← d.bound.mapM (count line)
  let array ← d.array.mapM (countMark line)
  if bound.isSome && type != "string" && type != "wstring" then
    throw (malformed s!"string bound for type {type}")
  if let .assigned raw := d.ending then
    if !isNameIn Char.isUpper d.name then throw (.badName .constant name)
    if array.isSome || !takesLiteral type then
      throw (malformed "constant (constants must be non-array primitives)")
    let text := trim raw
    let value ← Literal.decodeScalar type text
    return { Field.constantOf type name value (some (String.ofList text)) with stringBound := bound }
  if !isNameIn Char.isLower d.name then throw (.badName .field name)
  let field := { markField (.variableOf type name) array with stringBound := bound }
  if let .default raw := d.ending then
    if !takesLiteral type then throw (notALine line)
    let text := trim raw
    let value ←
      if array.isSome then Literal.decodeArray type text else Literal.decodeScalar type text
    return { field with defaultValue := some value }
  return field

def field (line : List Char) : Except Error Field :=
  match whole? declaration line with
  | none => .error (notALine line)
  | some d => (d.field line).mapError (·.withLine (String.ofList line))

/-! ## Headers -/

/-- Nothing is left of a header but blanks and a comment that is not empty. -/
def isHeaderFinished (cs : List Char) : Bool :=
  match trimLeft cs with
  | [] => true
  | ['#'] => false
  | c :: _ => c == '#'

/-- The longest name without a space after which a header is finished. -/
def longestName? : List Char → Option (List Char)
  | [] => none
  | c :: rest =>
    if c == ' ' then none
    else
      match longestName? rest with
      | some name => some (c :: name)
      | none => if isHeaderFinished rest then some [c] else none

def header? (line : List Char) : Option (Option String) :=
  (("MSG: ".toList.isPrefixOf? line).bind longestName?).map (some ∘ String.ofList)

end Ros2

def ros2 : Grammar := ⟨Ros2.header?, Ros2.field⟩

end RosSchema.Line

import RosSchema.Idl.Comment
import RosSchema.Idl.Tree
import RosSchema.Literal.Decode
import RosSchema.Text.Reader

/-!
# The grammar of documents

Readers for the declarations of a document. Alternatives are tried in order, and the first that
succeeds counts. A limit, the length of the document, bounds every repetition and the depth of
modules inside modules.
-/

namespace RosSchema.Idl

open Reader
open RosSchema.Literal (hexDigit? hexNumber? lengthToQuote? unquote)

/-! ## Gaps and names -/

def isGap (c : Char) : Bool := c == ' ' || c == '\t' || c == '\r' || c == '\n'

/-- A gap that may be empty. -/
def gap : Reader Unit := discard (run isGap)

/-- A gap of at least one character. -/
def gap1 : Reader Unit := discard (run1 isGap)

/-- A mark with gaps around it that may be empty. -/
def spaced (c : Char) : Reader Unit := gap *> mark c *> gap

def name : Reader String := String.ofList <$> identifier

def scopePart : Reader (List Char) := do
  token "::"
  return ':' :: ':' :: (← identifier)

/-- Identifiers with two colons between every two. -/
def scopedName (limit : Nat) : Reader String := do
  let first ← identifier
  return String.ofList (first ++ (← many scopePart limit).flatten)

/-! ## Literals -/

/-- Text between double quotes, quotes included. -/
def stringPiece : Reader (List Char)
  | '"' :: rest => (lengthToQuote? '"' rest).map fun n => ('"' :: rest.take n, rest.drop n)
  | _ => none

def decodePiece (piece : List Char) : Reader (List Char) := given (unquote piece).toOption

/-- String pieces, which count as one string. A single piece is the text of the literal. -/
def stringLiteral (limit : Nat) : Reader (Literal × Option (List Char)) := do
  let first ← stringPiece
  let others ← many (gap *> stringPiece) limit
  let text ← decodePiece first
  let more ← others.mapM decodePiece
  let value := Value.string (String.ofList (text ++ more.flatten))
  return (.value value, if others.isEmpty then some first else none)

/-- A word that no identifier goes on from. -/
def word (s : String) : Reader Unit := token s *> stop isNamePart

def boolLiteral : Reader (Literal × Option (List Char)) :=
  let choice (s : String) (b : Bool) : Reader (Literal × Option (List Char)) := do
    token s
    return (.value (.bool b), some s.toList)
  (choice "TRUE" true <|> choice "FALSE" false <|> choice "true" true <|> choice "false" false) <*
    stop isNamePart

def hexLiteral : Reader (Literal × Option (List Char)) := do
  mark '0'
  let x ← one fun c => c == 'x' || c == 'X'
  let digits ← run1 fun c => (hexDigit? c).isSome
  let n ← given (hexNumber? digits)
  guard (n < Nat.pow 2 64)
  return (.value (.uint n), some ('0' :: x :: digits))

/-- The value of a numeral. Whole numerals are signed where 64 bits allow it, else unsigned, and all
other numerals are floating point numbers. -/
def numeralValue? (n : Numeral) : Option Value :=
  if n.isWhole then
    let i := Numeral.signed n.sign (Numeral.natOfDigits n.whole)
    if -(Nat.pow 2 63 : Nat) ≤ i && i < (Nat.pow 2 63 : Nat) then some (.int i)
    else if 0 ≤ i && i < (Nat.pow 2 64 : Nat) then some (.uint i.toNat)
    else none
  else some (.float (Decimal.ofNumeral n).toBinary64)

def numeralLiteral : Reader (Literal × Option (List Char)) := do
  let n ← (Numeral.read? : Reader Numeral)
  return (.value (← given (numeralValue? n)), some n.text)

def constantName (limit : Nat) : Reader (Literal × Option (List Char)) := do
  let name ← scopedName limit
  return (.constant name, some name.toList)

/-- A literal, with its text if it is a single token. -/
def literal (limit : Nat) : Reader (Literal × Option (List Char)) :=
  stringLiteral limit <|> boolLiteral <|> hexLiteral <|> numeralLiteral <|> constantName limit

/-- A count, or the name of a constant that is one. -/
def bound (limit : Nat) : Reader Literal :=
  (do return .value (.uint (← given (count64? (← run1 Char.isDigit))))) <|>
  (do return .constant (← scopedName limit))

/-! ## Types -/

/-- What stands before the name of a member: the type of its elements, the bound of a string, and for
a sequence its bound. -/
structure TypeSpec where
  type : String
  stringBound : Option Literal := none
  sequence : Option (Option Literal) := none
  deriving DecidableEq, Repr

def boundedString (limit : Nat) : Reader TypeSpec := do
  let type ← (token "wstring" *> pure "wstring") <|> (token "string" *> pure "string")
  spaced '<'
  let n ← bound limit
  gap
  mark '>'
  return { type, stringBound := some n }

def phrase : List String → Reader Unit
  | [] => pure ()
  | [s] => token s
  | s :: rest => token s *> gap1 *> phrase rest

/-- Integer types of more than one word, the longer ones first. -/
def phraseType : Reader String :=
  ((phrase ["unsigned", "long", "long"] *> pure "uint64") <|>
    (phrase ["long", "long"] *> pure "int64") <|>
    (phrase ["unsigned", "short"] *> pure "uint16") <|>
    (phrase ["unsigned", "long"] *> pure "uint32")) <*
    stop isNamePart

/-- The type that a keyword stands for; any other name is the type itself. -/
def keywordType (name : String) : String :=
  match name with
  | "boolean" => "bool"
  | "octet" => "uint8"
  | "short" => "int16"
  | "long" => "int32"
  | "float" => "float32"
  | "double" => "float64"
  | other => other

def elementType (limit : Nat) : Reader TypeSpec :=
  boundedString limit <|>
  (do return { type := ← phraseType }) <|>
  (do return { type := keywordType (← scopedName limit) })

def sequenceType (limit : Nat) : Reader TypeSpec := do
  token "sequence"
  spaced '<'
  let element ← elementType limit
  let n ← optional (spaced ',' *> bound limit)
  gap
  mark '>'
  return { element with sequence := some n }

def typeSpec (limit : Nat) : Reader TypeSpec := sequenceType limit <|> elementType limit

/-! ## Members -/

/-- A name, with a count in brackets if it is an array. -/
def declarator (limit : Nat) : Reader (String × Option Literal) := do
  let name ← name
  let length ← optional do
    spaced '['
    let n ← bound limit
    gap
    mark ']'
    return n
  return (name, length)

/-- The member of a type and a name. There are no arrays of sequences. -/
def TypeSpec.member? (spec : TypeSpec) (name : String) (length : Option Literal) : Option Member :=
  let member : Member := { type := spec.type, name, stringBound := spec.stringBound }
  match spec.sequence, length with
  | some _, some _ => none
  | some n, none => some { member with isArray := true, arrayBound := n }
  | none, some n => some { member with isArray := true, arrayLength := some n }
  | none, none => some member

def typedName (limit : Nat) : Reader Member := do
  let spec ← typeSpec limit
  gap1
  let (name, length) ← declarator limit
  given (spec.member? name length)

def typedef (limit : Nat) : Reader Node := do
  token "typedef"
  gap1
  return .typedef (← typedName limit)

def field (limit : Nat) : Reader Node := Node.field <$> typedName limit

def constant (limit : Nat) : Reader Node := do
  token "const"
  gap1
  let spec ← typeSpec limit
  guard spec.sequence.isNone
  gap1
  let name ← name
  spaced '='
  let (value, text) ← literal limit
  return .constant
    { type := spec.type
      name
      stringBound := spec.stringBound
      value := some value
      valueText := text.map String.ofList }

/-! ## Notes -/

structure Note where
  name : String
  parameters : List (Option String × Literal)
  deriving DecidableEq, Repr

def parameter (limit : Nat) : Reader (Option String × Literal) :=
  (do
    let key ← name
    spaced '='
    return (some key, (← literal limit).1)) <|>
  (do return (none, (← literal limit).1))

def parameters (limit : Nat) : Reader (List (Option String × Literal)) := do
  gap
  mark '('
  gap
  let all ← separated (spaced ',') (parameter limit) limit
  gap
  mark ')'
  return all

def note (limit : Nat) : Reader Note := do
  mark '@'
  let name ← scopedName limit
  return ⟨name, (← optional (parameters limit)).getD []⟩

/-- The default that notes give: the first parameter of a `default` that has no name or is named
`value`. -/
def annotatedDefault? (notes : List Note) : Option Literal :=
  ((notes.filter (·.name == "default")).flatMap (·.parameters)).findSome? fun (key, value) =>
    if key.getD "value" == "value" then some value else none

/-- A declaration with the default that its notes give. Only fields have one. -/
def annotate (notes : List Note) : Node → Node
  | .field m =>
    match annotatedDefault? notes with
    | some value => .field { m with defaultValue := some value }
    | none => .field m
  | node => node

def annotated (limit : Nat) (p : Reader Node) : Reader Node := do
  let notes ← many (note limit <* gap) limit
  return annotate notes (← p)

/-! ## Declarations -/

def braced (keyword : String) (inner : Reader α) (limit : Nat) : Reader (String × List α) := do
  token keyword
  gap1
  let name ← name
  gap
  mark '\x7b'
  gap
  let members ← many (inner <* gap) limit
  mark '\x7d'
  return (name, members)

def semicolon : Reader Unit := gap *> mark ';'

def structMember (limit : Nat) : Reader Node :=
  annotated limit ((constant limit <|> field limit) <* semicolon)

def struct (limit : Nat) : Reader Node := do
  let (name, members) ← braced "struct" (structMember limit) limit
  return .struct name members

def includeFile : Reader Unit := do
  token "#include"
  let _ ← run fun c => c == ' ' || c == '\t'
  discard stringPiece <|>
    (do
      mark '<'
      let _ ← run1 fun c => c != '>' && c != '\n'
      mark '>')

/-- A declaration, given what the members of a module are. -/
def declaration (limit : Nat) (inner : Reader (Option Node)) : Reader Node :=
  annotated limit <|
    (do
      let (name, members) ← braced "module" inner limit
      return .module name (members.filterMap id)) <|>
    struct limit <|> typedef limit <|> constant limit <|> field limit

/-- A declaration with its semicolon, or an include, inside at most a number of modules. -/
def item (limit : Nat) : Nat → Reader (Option Node)
  | 0 => failure
  | depth + 1 =>
    (includeFile *> pure none) <|> (some <$> (declaration limit (item limit depth) <* semicolon))

def items (limit : Nat) : Reader (List Node) := do
  gap
  return (← many (item limit limit <* gap) limit).filterMap id

def nodes (document : List Char) : Except Error (List Node) :=
  match whole? (items document.length) (stripComments document) with
  | some nodes => .ok nodes
  | none => .error (.malformed "message definition" (String.ofList document))

end RosSchema.Idl

import RosSchema.Line.Block
import RosSchema.Literal.Decode
import RosSchema.Text.Reader

/-!
# The lines of ROS 1

The grammar has one production for the variables of each class of types, and one for the constants of
each class that has constants. A line has to be derived by exactly one of them. Gaps inside a line
are spaces and tabs.
-/

namespace RosSchema.Line.Ros1

open RosSchema.Text (trim before firstWord?)
open Reader

/-- The classes of types that the grammar tells apart. -/
inductive TypeClass where
  | bool
  | numeric
  | string
  | time
  | other
  deriving DecidableEq, Repr

def TypeClass.ofWord (word : List Char) : TypeClass :=
  match String.ofList word with
  | "bool" => bool
  | "byte" | "char" | "float32" | "float64" | "int8" | "uint8" | "int16" | "uint16" | "int32"
  | "uint32" | "int64" | "uint64" => numeric
  | "string" => string
  | "time" | "duration" => time
  | _ => other

structure Derivation where
  typeClass : TypeClass
  type : List Char
  array : Option (ArrayMark Nat)
  name : List Char
  /-- The text after the equality sign of a constant. -/
  assigned : Option (List Char)
  deriving DecidableEq, Repr

def isGap (c : Char) : Bool := c == ' ' || c == '\t'

/-- A gap that may be empty. -/
def gap : Reader Unit := discard (run isGap)

/-- A gap of at least one character. -/
def gap1 : Reader Unit := discard (run1 isGap)

def localPart : Reader (List Char) := do
  mark '/'
  let first ← one Char.isAlpha
  return '/' :: first :: (← run isNamePart)

/-- A type or a name: an identifier, and maybe a second one after a slash. -/
def word : Reader (List Char) := do
  let first ← identifier
  return first ++ (← optional localPart).getD []

def arrayMark : Reader (ArrayMark Nat) :=
  (do
    mark '['
    gap
    mark ']'
    return .any) <|>
  (do
    mark '['
    gap
    let n ← given (count64? (← run1 Char.isDigit))
    gap
    mark ']'
    return .exactly n)

def comment : Reader Unit := do
  mark '#'
  let _ ← rest

def variableLine (c : TypeClass) : Reader Derivation := do
  gap
  let type ← word
  guard (TypeClass.ofWord type = c)
  let array ← optional arrayMark
  gap1
  let name ← word
  gap
  let _ ← optional comment
  gap
  return ⟨c, type, array, name, none⟩

def constantLine (c : TypeClass) : Reader Derivation := do
  gap
  let type ← word
  guard (TypeClass.ofWord type = c)
  gap1
  let name ← word
  gap
  mark '='
  let assigned ← rest
  guard (assigned ≠ [])
  return ⟨c, type, none, name, some assigned⟩

def productions : List (Reader Derivation) :=
  [.bool, .numeric, .string, .time, .other].map variableLine ++
    [.bool, .numeric, .string].map constantLine

/-- All derivations of a line. -/
def derivations (line : List Char) : List Derivation := productions.filterMap (whole? · line)

/-- Names start with a letter and have no slash. -/
def isFieldName : List Char → Bool
  | [] => false
  | c :: rest => c.isAlpha && rest.all isNamePart

/-- The field of a derivation. A string constant is all of its text, comments included; other
constants end where a comment starts. -/
def Derivation.field (d : Derivation) : Except Error Field := do
  let type := foldAlias (String.ofList d.type)
  let name := String.ofList d.name
  match d.assigned with
  | none =>
    if !isFieldName d.name then throw (.badName .field name)
    return markField (.variableOf type name) d.array
  | some assigned =>
    if !isFieldName d.name then throw (.badName .constant name)
    if d.typeClass = .string then
      let text := String.ofList (trim assigned)
      return .constantOf type name (.string text) (some text)
    else
      let text := trim (before '#' assigned)
      return .constantOf type name (← Literal.decodeScalar type text) (some (String.ofList text))

def field (line : List Char) : Except Error Field :=
  match derivations line with
  | [] => .error (notALine line)
  | [d] => d.field.mapError (·.withLine (String.ofList line))
  | _ => .error (.ambiguousLine (String.ofList line))

/-- The name that a header gives: its first word before any comment. A header without a word takes
the name away. -/
def header? (line : List Char) : Option (Option String) :=
  ("MSG:".toList.isPrefixOf? line).map fun rest => (firstWord? (before '#' rest)).map String.ofList

end Ros1

def ros1 : Grammar := ⟨Ros1.header?, Ros1.field⟩

end RosSchema.Line

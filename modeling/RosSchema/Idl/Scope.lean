import RosSchema.Definition
import RosSchema.Idl.Tree
import RosSchema.Literal.Coerce

/-!
# Typedefs and constants of a document

Names of typedefs and constants are known to all of a document, whatever module declares them. A scoped
name stands for its last part where it is not known itself. With the typedefs and the constants of
a document at hand, a member of its tree becomes a field of a definition.
-/

namespace RosSchema.Idl

/-- The text after the last two colons, if there are two. -/
def afterColons? : List Char → Option (List Char)
  | [] => none
  | c :: rest =>
    match afterColons? rest with
    | some last => some last
    | none => if c = ':' then ([':'].isPrefixOf? rest) else none

def lastPart (name : String) : String :=
  match afterColons? name.toList with
  | some last => String.ofList last
  | none => name

/-- What a name stands for: as it is written, or by its last part. The first entry counts. -/
def lookup? (entries : List (String × α)) (name : String) : Option α :=
  entries.lookup name <|> entries.lookup (lastPart name)

/-- A name with slashes for its pairs of colons. -/
def slashes : List Char → List Char
  | [] => []
  | ':' :: ':' :: rest => '/' :: slashes rest
  | c :: rest => c :: slashes rest

/-- The typedefs seen so far, the last one first. -/
abbrev Typedefs := List (String × Member)

/-- Replace the type of a member by the shape of its typedef. The member keeps its name, its literals
and its own array; an array of arrays is none. -/
def Typedefs.inline (typedefs : Typedefs) (m : Member) : Except Error Member :=
  match lookup? typedefs m.type with
  | none => .ok m
  | some known =>
    if known.isArray && m.isArray then
      let (type, name) := (m.type, m.name)
      .error (.malformed "nested array type" s!"{type} {name}")
    else
      let shape := if m.isArray then m else known
      .ok
        { m with
          type := known.type
          isArray := shape.isArray
          arrayLength := shape.arrayLength
          arrayBound := shape.arrayBound
          stringBound := known.stringBound }

structure ConstantValue where
  value : Value
  text : Option String
  deriving DecidableEq, Repr

/-- What the names of a document stand for. -/
structure Scope where
  typedefs : Typedefs := []
  /-- The constants, the last one first. -/
  constants : List (String × ConstantValue) := []

namespace Scope

def substitute (s : Scope) (l : Literal) (field parent : String) : Except Error ConstantValue :=
  match l with
  | .value v => .ok ⟨v, none⟩
  | .constant name =>
    match lookup? s.constants name with
    | some c => .ok c
    | none => .error (.unresolvedConstant name field parent)

def count (s : Scope) (l : Option Literal) (m : Member) (parent : String) :
    Except Error (Option Nat) :=
  match l with
  | none => .ok none
  | some l => do
    let c ← s.substitute l m.name parent
    match c.value.count? with
    | some n => return some n
    | none => .error (.badLiteral m.type (.notCount m.name))

def shownMember (m : Member) : String :=
  let (type, name) := (m.type, m.name)
  s!"{type} {name}"

def fieldType (m : Member) : String := foldInterface (String.ofList (slashes m.type.toList))

def constantField (s : Scope) (parent : String) (declared : Member) : Except Error Field := do
  let m ← s.typedefs.inline declared
  let type := fieldType m
  let bound ← s.count m.stringBound m parent
  if m.isArray then
    throw (.malformed "constant (constants must be non-array primitives)" (shownMember m))
  let some l := m.value | throw (.malformed "constant without a value" m.name)
  let c ← s.substitute l m.name parent
  let text := match l with
    | .value _ => m.valueText
    | .constant _ => c.text
  let value ← Literal.coerce type false c.value
  return { Field.constantOf type m.name value text with stringBound := bound }

def variableField (s : Scope) (parent : String) (declared : Member) : Except Error Field := do
  let m ← s.typedefs.inline declared
  let type := fieldType m
  let bound ← s.count m.stringBound m parent
  let length ← s.count m.arrayLength m parent
  let most ← s.count m.arrayBound m parent
  let defaultValue ← m.defaultValue.mapM fun l => do
    let c ← s.substitute l m.name parent
    Literal.coerce type m.isArray c.value
  let field := Field.variableOf type m.name
  let field := if m.isArray then field.asArray length most else field
  return { field with stringBound := bound, defaultValue }

end Scope

end RosSchema.Idl

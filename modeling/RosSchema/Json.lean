import RosSchema.Definition
import RosSchema.Number.Layout
import RosSchema.Text.Quoted

/-!
# JSON

Definitions as JSON. Objects keep the order of their members. The text is either without any blanks,
or laid out on lines with an indentation of two for each level.
-/

namespace RosSchema

/-- A JSON value. Numbers are kept by their text. -/
inductive Json where
  | null
  | bool (b : Bool)
  | number (text : List Char)
  | string (s : String)
  | array (items : List Json)
  | object (members : List (String × Json))

namespace Json

def quoted (s : String) : List Char := Text.quote s.toList

/-- A line break and the indentation of a level. -/
def newLine (level : Nat) : List Char := '\n' :: List.replicate (2 * level) ' '

mutual

def compact : Json → List Char
  | .null => "null".toList
  | .bool true => "true".toList
  | .bool false => "false".toList
  | .number text => text
  | .string s => quoted s
  | .array items => '[' :: [','].intercalate (compactItems items) ++ [']']
  | .object members => '\x7b' :: [','].intercalate (compactMembers members) ++ ['\x7d']

def compactItems : List Json → List (List Char)
  | [] => []
  | j :: js => compact j :: compactItems js

def compactMembers : List (String × Json) → List (List Char)
  | [] => []
  | (key, j) :: rest => (quoted key ++ ':' :: compact j) :: compactMembers rest

end

mutual

/-- The text on lines, at a level of indentation. Empty arrays and objects stay on one line. -/
def pretty (level : Nat) : Json → List Char
  | .array [] => ['[', ']']
  | .array items => '[' :: [','].intercalate (prettyItems (level + 1) items) ++ newLine level ++ [']']
  | .object [] => ['\x7b', '\x7d']
  | .object members =>
    '\x7b' :: [','].intercalate (prettyMembers (level + 1) members) ++ newLine level ++ ['\x7d']
  | .null => "null".toList
  | .bool true => "true".toList
  | .bool false => "false".toList
  | .number text => text
  | .string s => quoted s

def prettyItems (level : Nat) : List Json → List (List Char)
  | [] => []
  | j :: js => (newLine level ++ pretty level j) :: prettyItems level js

def prettyMembers (level : Nat) : List (String × Json) → List (List Char)
  | [] => []
  | (key, j) :: rest =>
    (newLine level ++ quoted key ++ ':' :: ' ' :: pretty level j) :: prettyMembers level rest

end

def ofNat (n : Nat) : Json := .number (Numeral.ofNat n)

end Json

/-- JSON numbers: a point from `10 ^ -5` to below `10 ^ 16`, and whole numbers end in `.0`. What is no
finite number is `null`. -/
def Layout.json : Layout where
  plainFrom := -5
  plainBelow := 16
  wholePoint := true
  plusPower := true
  tie := .even
  zero := "0.0"
  negativeZero := "-0.0"
  infinity := "null"
  negativeInfinity := "null"
  nan := "null"

namespace Value

mutual

def json : Value → Json
  | .bool b => .bool b
  | .int i => .number (Numeral.ofInt i)
  | .uint n => .ofNat n
  | .float x => .number (Layout.json.write x)
  | .string s => .string s
  | .array items => .array (jsonItems items)

def jsonItems : List Value → List Json
  | [] => []
  | v :: vs => json v :: jsonItems vs

end

end Value

/-- A member that is present if its value is. -/
def Json.member? (key : String) (value : Option Json) : List (String × Json) :=
  value.toList.map (key, ·)

/-- A field as JSON. Constants report the two flags only if they are set. -/
def Field.json (f : Field) : Json :=
  .object <|
    [("type", .string f.type), ("name", .string f.name)] ++
    (if !f.isConstant || f.isComplex then [("isComplex", .bool f.isComplex)] else []) ++
    (if !f.isConstant || f.isArray then [("isArray", .bool f.isArray)] else []) ++
    Json.member? "arrayLength" (f.arrayLength.map .ofNat) ++
    Json.member? "arrayUpperBound" (f.arrayBound.map .ofNat) ++
    Json.member? "upperBound" (f.stringBound.map .ofNat) ++
    (if f.isConstant then
      [("isConstant", .bool true), ("value", (f.value.map Value.json).getD .null)] ++
        Json.member? "valueText" (f.valueText.map .string)
    else []) ++
    Json.member? "defaultValue" (f.defaultValue.map Value.json)

def Definition.json (d : Definition) : Json :=
  .object (Json.member? "name" (d.name.map .string) ++ [("definitions", .array (d.fields.map Field.json))])

def Json.ofDefinitions (definitions : List Definition) : Json := .array (definitions.map Definition.json)

end RosSchema

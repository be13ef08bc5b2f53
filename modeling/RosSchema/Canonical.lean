import RosSchema.Definition
import RosSchema.Literal.Encode

/-!
# The canonical text

The canonical text of a list of definitions identifies its type. It has one line for each field, the
constants of a definition before its variables, a blank line before the variables, and a divider and
a header before every definition but the first.
-/

namespace RosSchema

def divider : List Char := List.replicate 80 '='

namespace Field

/-- The value of a constant in the canonical text. Strings keep the text they were written with. -/
def constantText (f : Field) : List Char :=
  match f.value, f.valueText with
  | some (.string _), some text => text.toList
  | some value, _ => value.encode
  | none, _ => []

def arrayMark (f : Field) : List Char :=
  if f.isArray then
    match f.arrayLength, f.arrayBound with
    | some n, _ => '[' :: Numeral.ofNat n ++ [']']
    | none, some n => '[' :: '<' :: '=' :: Numeral.ofNat n ++ [']']
    | none, none => ['[', ']']
  else []

def constantLine (f : Field) : List Char :=
  f.type.toList ++ ' ' :: f.name.toList ++ " = ".toList ++ f.constantText

def variableLine (f : Field) : List Char :=
  f.type.toList ++
    (match f.stringBound with
      | some n => '<' :: '=' :: Numeral.ofNat n
      | none => []) ++
    f.arrayMark ++ ' ' :: f.name.toList ++
    (match f.defaultValue with
      | some value => ' ' :: value.encode
      | none => [])

def line (f : Field) : List Char := if f.isConstant then f.constantLine else f.variableLine

end Field

namespace Definition

def fieldLines (fields : List Field) : List Char := fields.flatMap fun f => f.line ++ ['\n']

/-- The fields of a definition: its constants, and after a blank line its variables. There is no blank
line where the text would start with it. -/
def body (leading : Bool) (d : Definition) : List Char :=
  let gap := if d.variableFields.isEmpty || (leading && d.constantFields.isEmpty) then [] else ['\n']
  fieldLines d.constantFields ++ gap ++ fieldLines d.variableFields

/-- The divider and the header of a definition. -/
def header (d : Definition) : List Char :=
  '\n' :: divider ++ '\n' :: "MSG: ".toList ++ (d.name.getD "").toList ++ ['\n']

end Definition

def canonicalText : List Definition → List Char
  | [] => []
  | first :: others => first.body true ++ others.flatMap fun d => d.header ++ d.body false

def canonical (definitions : List Definition) : String := String.ofList (canonicalText definitions)

end RosSchema

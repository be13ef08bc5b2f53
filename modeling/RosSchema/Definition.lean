import RosSchema.Primitive
import RosSchema.Value

/-!
# Definitions

A message definition is a list of fields, and all definitions of a text but the first have a name. A
field is a variable of the message or a constant.
-/

namespace RosSchema

structure Field where
  /-- A primitive type, or the name of another definition. -/
  type : String
  name : String
  /-- The type is the name of another definition. -/
  isComplex : Bool := false
  isArray : Bool := false
  /-- The number of elements of an array, if it is fixed. -/
  arrayLength : Option Nat := none
  /-- The greatest number of elements of an array, if there is one. -/
  arrayBound : Option Nat := none
  /-- The greatest number of characters of a string, if there is one. -/
  stringBound : Option Nat := none
  isConstant : Bool := false
  /-- The value of a constant. -/
  value : Option Value := none
  /-- The text that the value of a constant was decoded from. -/
  valueText : Option String := none
  /-- The default of a variable. -/
  defaultValue : Option Value := none
  deriving DecidableEq, Repr

namespace Field

def variableOf (type name : String) : Field := { type, name, isComplex := isComplexType type }

def constantOf (type name : String) (value : Value) (valueText : Option String) : Field :=
  { type, name, isComplex := isComplexType type, isConstant := true, value := some value, valueText }

/-- The same field as an array, with a fixed length, with a greatest length or with neither. -/
def asArray (f : Field) (length bound : Option Nat) : Field :=
  { f with isArray := true, arrayLength := length, arrayBound := bound }

end Field

/-- A message definition: a name, which the first one of a text can lack, and its fields. -/
structure Definition where
  name : Option String
  fields : List Field
  deriving DecidableEq, Repr

namespace Definition

def constantFields (d : Definition) : List Field := d.fields.filter (·.isConstant)

def variableFields (d : Definition) : List Field := d.fields.filter (!·.isConstant)

end Definition

end RosSchema

/-!
# Primitive types

A field has either one of the primitive types or names another definition. `char` and `byte` are
older names of two integer types and are folded into them before anything else is decided.
-/

namespace RosSchema

inductive Primitive where
  | bool
  | int8
  | int16
  | int32
  | int64
  | uint8
  | uint16
  | uint32
  | uint64
  | float32
  | float64
  | string
  | wstring
  | time
  | duration
  deriving DecidableEq, Repr

/-- Fold the older type names into the integer types they stand for. -/
def foldAlias (type : String) : String :=
  match type with
  | "char" => "uint8"
  | "byte" => "int8"
  | other => other

/-- Fold the time types of `builtin_interfaces`, written with slashes, into the primitive ones, and
the older names as well. -/
def foldInterface (type : String) : String :=
  match type with
  | "builtin_interfaces/Time" => "time"
  | "builtin_interfaces/msg/Time" => "time"
  | "builtin_interfaces/Duration" => "duration"
  | "builtin_interfaces/msg/Duration" => "duration"
  | other => foldAlias other

namespace Primitive

def tag : Primitive → String
  | bool => "bool"
  | int8 => "int8"
  | int16 => "int16"
  | int32 => "int32"
  | int64 => "int64"
  | uint8 => "uint8"
  | uint16 => "uint16"
  | uint32 => "uint32"
  | uint64 => "uint64"
  | float32 => "float32"
  | float64 => "float64"
  | string => "string"
  | wstring => "wstring"
  | time => "time"
  | duration => "duration"

/-- The primitive type of a name, older names included. -/
def ofTag? (type : String) : Option Primitive :=
  match foldAlias type with
  | "bool" => some bool
  | "int8" => some int8
  | "int16" => some int16
  | "int32" => some int32
  | "int64" => some int64
  | "uint8" => some uint8
  | "uint16" => some uint16
  | "uint32" => some uint32
  | "uint64" => some uint64
  | "float32" => some float32
  | "float64" => some float64
  | "string" => some string
  | "wstring" => some wstring
  | "time" => some time
  | "duration" => some duration
  | _ => none

@[simp] theorem ofTag?_tag (p : Primitive) : ofTag? p.tag = some p := by
  cases p <;> decide

/-- The least and the greatest value of an integer type. -/
def range? : Primitive → Option (Int × Int)
  | int8 => some (-128, 127)
  | int16 => some (-32768, 32767)
  | int32 => some (-2147483648, 2147483647)
  | int64 => some (-9223372036854775808, 9223372036854775807)
  | uint8 => some (0, 255)
  | uint16 => some (0, 65535)
  | uint32 => some (0, 4294967295)
  | uint64 => some (0, 18446744073709551615)
  | _ => none

def isSigned : Primitive → Bool
  | int8 | int16 | int32 | int64 => true
  | _ => false

def isFloat : Primitive → Bool
  | float32 | float64 => true
  | _ => false

def isString : Primitive → Bool
  | string | wstring => true
  | _ => false

/-- Types that have literals: all but the two of time. -/
def hasLiterals : Primitive → Bool
  | time | duration => false
  | _ => true

end Primitive

/-- A type is complex when it names another definition. -/
def isComplexType (type : String) : Bool := (Primitive.ofTag? type).isNone

end RosSchema

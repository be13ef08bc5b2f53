import RosSchema.Error

/-!
# Dialects

Definitions are written in one of three dialects: two that are read line by line, and one that is read
as a document.
-/

namespace RosSchema

inductive Dialect where
  | ros1
  | ros2
  | idl
  deriving DecidableEq, Repr

namespace Dialect

def name : Dialect → String
  | ros1 => "ros1msg"
  | ros2 => "ros2msg"
  | idl => "ros2idl"

/-- The dialect of a name, registered or short. -/
def ofName (name : String) : Except Error Dialect :=
  match name with
  | "ros1msg" | "ros1" => .ok ros1
  | "ros2msg" | "ros2" => .ok ros2
  | "ros2idl" | "idl" => .ok idl
  | other => .error (.unsupportedDialect other)

def isLineOriented : Dialect → Bool
  | idl => false
  | _ => true

end Dialect

/-- How a text is parsed. With neither flag the dialect is ROS 1, and the flag of the document dialect
outranks that of ROS 2. -/
structure Options where
  ros2 : Bool := false
  idl : Bool := false
  /-- Leave the types of complex fields as they are written. -/
  keepTypes : Bool := false
  deriving DecidableEq, Repr

namespace Options

def dialect (o : Options) : Dialect :=
  if o.idl then .idl else if o.ros2 then .ros2 else .ros1

def withDialect (o : Options) (d : Dialect) : Options :=
  { o with ros2 := d = .ros2, idl := d = .idl }

/-- The options for a dialect, with types resolved. -/
def ofDialect (d : Dialect) : Options := withDialect {} d

@[simp] theorem dialect_withDialect (o : Options) (d : Dialect) : (o.withDialect d).dialect = d := by
  cases d <;> rfl

end Options

end RosSchema

import RosSchema.Canonical
import RosSchema.Dialect
import RosSchema.Idl.Flatten
import RosSchema.Line.Ros1
import RosSchema.Line.Ros2
import RosSchema.Reference

/-!
# Parsing message definitions

`parse` reads a text in any dialect into its definitions, the root first.
-/

namespace RosSchema

/-- The definitions of a text in lines, with types as they are written. -/
def parseLines (text : String) (d : Dialect) : Except Error (List Definition) :=
  match d with
  | .ros1 => Line.ros1.definitions text
  | .ros2 => Line.ros2.definitions text
  | .idl => .error (.unsupportedDialect d.name)

/-- The definitions of a text. In the line-oriented dialects the types of complex fields become the
full names of definitions, unless the options keep them; documents name types in full. -/
def parse (text : String) (o : Options) : Except Error (List Definition) :=
  if o.dialect.isLineOriented then do
    let definitions ← parseLines text o.dialect
    if o.keepTypes then return definitions else resolveReferences definitions
  else Idl.definitions text

end RosSchema

import RosSchema.Definition
import RosSchema.Error

/-!
# References between definitions

A complex field refers to a definition by its full name or by the end of it after a slash. Resolving a
list of definitions replaces every such reference by the full name; a reference without a definition,
or with several, is an error.
-/

namespace RosSchema

/-- A written type refers to a definition of a name when it is that name or its end after a slash. -/
def refersTo (type name : String) : Bool :=
  name == type || ('/' :: type.toList).isSuffixOf name.toList

/-- The only name that a written type refers to. -/
def resolveType (names : List String) (type : String) : Except Error String :=
  match names.filter (refersTo type) with
  | [] => .error (.unresolvedType type)
  | [name] => .ok name
  | candidates => .error (.ambiguousType type candidates)

def Field.resolve (names : List String) (f : Field) : Except Error Field :=
  if f.isComplex then return { f with type := ← resolveType names f.type } else return f

def Definition.resolve (names : List String) (d : Definition) : Except Error Definition := do
  return { d with fields := ← d.fields.mapM (Field.resolve names) }

/-- The names that definitions are referred to by; one without a name has the empty one. -/
def referenceNames (definitions : List Definition) : List String := definitions.map (·.name.getD "")

def resolveReferences (definitions : List Definition) : Except Error (List Definition) :=
  definitions.mapM (Definition.resolve (referenceNames definitions))

/-- The types that variables refer to, each once, in the order of first use. -/
def referencedTypes (definitions : List Definition) : List String :=
  (definitions.flatMap (·.variableFields.filter (·.isComplex))).map (·.type) |>.eraseDups

end RosSchema

import RosSchema.Idl.Constants
import RosSchema.Idl.Grammar
import RosSchema.Idl.Section

/-!
# Definitions of a document

Every struct of a document becomes a definition, and so does every module that holds constants and
nothing else but typedefs. A definition is named by its path, and comes after those inside it.
-/

namespace RosSchema.Idl

def Node.isTypedef : Node → Bool
  | .typedef _ => true
  | _ => false

def Node.isConstant : Node → Bool
  | .constant _ => true
  | _ => false

/-- Members that are constants, typedefs aside, and of which there is one. -/
def isConstantGroup (children : List Node) : Bool :=
  let members := children.filter (!·.isTypedef)
  !members.isEmpty && members.all (·.isConstant)

def Scope.field? (s : Scope) (parent : String) : Node → Option (Except Error Field)
  | .field m => some (s.variableField parent m)
  | .constant m => some (s.constantField parent m)
  | _ => none

def Scope.definition (s : Scope) (path : List String) (children : List Node) :
    Except Error Definition := do
  let name := joinPath path
  return { name := some name, fields := ← (children.filterMap (s.field? name)).mapM id }

mutual

def Scope.flatten (s : Scope) (path : List String) : Node → Except Error (List Definition)
  | .struct name children => do
    let inner ← s.flattenAll (path ++ [name]) children
    return inner ++ [← s.definition (path ++ [name]) children]
  | .module name children => do
    let inner ← s.flattenAll (path ++ [name]) children
    if isConstantGroup children then return inner ++ [← s.definition (path ++ [name]) children]
    return inner
  | .typedef _ | .field _ | .constant _ => .ok []

def Scope.flattenAll (s : Scope) (path : List String) : List Node → Except Error (List Definition)
  | [] => .ok []
  | node :: rest => do
    let first ← s.flatten path node
    return first ++ (← s.flattenAll path rest)

end

/-- The definitions of a node at the top of a document, which is a scope of its own. -/
def Node.definitions (root : Node) : Except Error (List Definition) := do
  (← Scope.ofNode root).flatten [] root

def resolve (roots : List Node) : Except Error (List Definition) := do
  return (← roots.mapM Node.definitions).flatten

/-- The definitions of a section. Errors name the section if it has a path. -/
def Section.definitions (s : Section) : Except Error (List Definition) :=
  (nodes s.body >>= resolve).mapError fun e =>
    match s.path with
    | some path => e.withSection path
    | none => e

def definitions (text : String) : Except Error (List Definition) := do
  return (← (sections text).mapM Section.definitions).flatten

end RosSchema.Idl

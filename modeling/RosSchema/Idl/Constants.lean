import RosSchema.Idl.Scope

/-!
# The values of constants

A constant can refer to any other constant of its document, also to one that is declared later. Each
is decoded after the constants that it refers to; constants that refer to each other in a circle have
no value.
-/

namespace RosSchema.Idl

structure Declared where
  member : Member
  parent : String
  deriving DecidableEq, Repr

def joinPath (path : List String) : String := "/".intercalate path

mutual

def Node.constants (path : List String) : Node → List Declared
  | .module name children | .struct name children => constantsIn (path ++ [name]) children
  | .constant m => [⟨m, joinPath path⟩]
  | .typedef _ | .field _ => []

def constantsIn (path : List String) : List Node → List Declared
  | [] => []
  | node :: rest => node.constants path ++ constantsIn path rest

end

mutual

def Node.typedefs : Node → List Member
  | .module _ children | .struct _ children => typedefsIn children
  | .typedef m => [m]
  | .constant _ | .field _ => []

def typedefsIn : List Node → List Member
  | [] => []
  | node :: rest => node.typedefs ++ typedefsIn rest

end

/-- Typedefs with the typedefs before them inlined. -/
def Typedefs.ofMembers (members : List Member) : Except Error Typedefs :=
  members.foldlM (fun typedefs m => do return (m.name, ← typedefs.inline m) :: typedefs) []

/-- The constants that a member refers to by its value and by the bound of its type. -/
def Member.references (m : Member) : List String :=
  (m.value.toList ++ m.stringBound.toList).filterMap fun
    | .constant name => some name
    | .value _ => none

structure Settled where
  places : List Nat := []
  values : List (String × ConstantValue) := []

structure Constants where
  typedefs : Typedefs
  declared : List Declared

namespace Constants

/-- The place of the constant that a name refers to. Of several with one name it is the last. -/
def place? (c : Constants) (name : String) : Option Nat :=
  lookup? (c.declared.map (·.member.name)).zipIdx.reverse name

/-- Decode the constant at a place after those it refers to. The places under way are those of the
constants that are waiting for this one; the first argument bounds their number. -/
def settle (c : Constants) : Nat → List Nat → Nat → Settled → Except Error Settled
  | 0, _, _, done => .ok done
  | n + 1, underWay, place, done =>
    if place ∈ done.places then .ok done
    else
      match c.declared[place]? with
      | none => .ok done
      | some d => do
        let shape ← c.typedefs.inline d.member
        let done ← shape.references.foldlM (fun done name =>
          match c.place? name with
          | none => .ok done
          | some other =>
            if other ∈ place :: underWay then
              .error (.unresolvedConstant name d.member.name d.parent)
            else c.settle n (place :: underWay) other done) done
        let field ← Scope.constantField ⟨c.typedefs, done.values⟩ d.parent d.member
        let values := match field.value with
          | some v => (d.member.name, ⟨v, field.valueText⟩) :: done.values
          | none => done.values
        return { places := place :: done.places, values }

/-- The values of all constants. No more constants are under way at a time than there are. -/
def values (c : Constants) : Except Error (List (String × ConstantValue)) := do
  let n := c.declared.length
  let done ← (List.range n).foldlM (fun done place => c.settle n [] place done) {}
  return done.values

end Constants

def Scope.ofNode (root : Node) : Except Error Scope := do
  let typedefs ← Typedefs.ofMembers root.typedefs
  return { typedefs, constants := ← Constants.values ⟨typedefs, root.constants []⟩ }

end RosSchema.Idl

import RosSchema.Value

/-!
# Document trees

A document is a list of declarations, of which modules and structs hold others. Where a literal is
allowed, the name of a constant can stand for it.
-/

namespace RosSchema.Idl

inductive Literal where
  | value (v : Value)
  | constant (name : String)
  deriving DecidableEq, Repr

/-- What a typedef, a field or a constant declares. -/
structure Member where
  /-- The type as it is written; keywords are replaced by the types they stand for. -/
  type : String
  name : String
  isArray : Bool := false
  arrayLength : Option Literal := none
  arrayBound : Option Literal := none
  stringBound : Option Literal := none
  /-- The value of a constant. -/
  value : Option Literal := none
  /-- The text of that value, if it is a single token. -/
  valueText : Option String := none
  /-- The default of a field. -/
  defaultValue : Option Literal := none
  deriving DecidableEq, Repr

inductive Node where
  | module (name : String) (children : List Node)
  | struct (name : String) (children : List Node)
  | typedef (member : Member)
  | field (member : Member)
  | constant (member : Member)
  deriving Repr

namespace Node

mutual

/-- Two declarations are the same when they have one constructor and the same parts. -/
def same : Node → Node → Bool
  | .module a as, .module b bs | .struct a as, .struct b bs => a == b && sameChildren as bs
  | .typedef a, .typedef b | .field a, .field b | .constant a, .constant b => a == b
  | _, _ => false

def sameChildren : List Node → List Node → Bool
  | [], [] => true
  | a :: as, b :: bs => same a b && sameChildren as bs
  | _, _ => false

end

mutual

theorem same_iff : ∀ a b : Node, same a b = true ↔ a = b
  | .module _ as, b | .struct _ as, b => by cases b <;> simp [same, sameChildren_iff as]
  | .typedef _, b | .field _, b | .constant _, b => by cases b <;> simp [same]

theorem sameChildren_iff : ∀ as bs : List Node, sameChildren as bs = true ↔ as = bs
  | [], bs => by cases bs <;> simp [sameChildren]
  | a :: as, bs => by cases bs <;> simp [sameChildren, same_iff a, sameChildren_iff as]

end

instance : DecidableEq Node := fun a b => decidable_of_iff _ (same_iff a b)

end Node

end RosSchema.Idl

import RosSchema.Number.Binary64

/-!
# Values

The value of a literal: of a constant, or of a field's default. Integers keep the kind of type they
were decoded for, signed or unsigned.
-/

namespace RosSchema

inductive Value where
  | bool (b : Bool)
  /-- The value of a signed integer type. -/
  | int (i : Int)
  /-- The value of an unsigned integer type. -/
  | uint (n : Nat)
  | float (x : Binary64)
  | string (s : String)
  | array (items : List Value)
  deriving Repr

namespace Value

mutual

/-- Two values are the same when they have one constructor and the same parts. -/
def same : Value → Value → Bool
  | .bool a, .bool b => a == b
  | .int a, .int b => a == b
  | .uint a, .uint b => a == b
  | .float a, .float b => a == b
  | .string a, .string b => a == b
  | .array a, .array b => sameItems a b
  | _, _ => false

def sameItems : List Value → List Value → Bool
  | [], [] => true
  | a :: as, b :: bs => same a b && sameItems as bs
  | _, _ => false

end

mutual

theorem same_iff : ∀ a b : Value, same a b = true ↔ a = b
  | .bool _, b | .int _, b | .uint _, b | .float _, b | .string _, b => by cases b <;> simp [same]
  | .array as, b => by cases b <;> simp [same, sameItems_iff as]

theorem sameItems_iff : ∀ as bs : List Value, sameItems as bs = true ↔ as = bs
  | [], bs => by cases bs <;> simp [sameItems]
  | a :: as, bs => by cases bs <;> simp [sameItems, same_iff a, sameItems_iff as]

end

instance : DecidableEq Value := fun a b => decidable_of_iff _ (same_iff a b)

/-- A value as a count, which no negative integer is. -/
def count? : Value → Option Nat
  | .int (.ofNat n) => some n
  | .uint n => some n
  | _ => none

end Value

end RosSchema

import RosSchema.Number.Layout
import RosSchema.Text.Quoted
import RosSchema.Value

/-!
# The canonical text of values

Each value has one canonical text, in which decoding by the declared type finds the value again.
-/

namespace RosSchema

/-- Canonical numbers: a point from `10 ^ -6` to below `10 ^ 21`, whole numbers without one, and a
zero without a sign. -/
def Layout.canonical : Layout where
  plainFrom := -6
  plainBelow := 21
  wholePoint := false
  plusPower := true
  tie := .up
  zero := "0"
  negativeZero := "0"
  infinity := "Infinity"
  negativeInfinity := "-Infinity"
  nan := "NaN"

namespace Value

mutual

def encode : Value → List Char
  | .bool true => "true".toList
  | .bool false => "false".toList
  | .int i => Numeral.ofInt i
  | .uint n => Numeral.ofNat n
  | .float x => Layout.canonical.write x
  | .string s => Text.quote s.toList
  | .array items => '[' :: [',', ' '].intercalate (encodeItems items) ++ [']']

def encodeItems : List Value → List (List Char)
  | [] => []
  | v :: vs => encode v :: encodeItems vs

end

@[simp] theorem encodeItems_eq_map (vs : List Value) : encodeItems vs = vs.map encode := by
  induction vs with
  | nil => rfl
  | cons v vs ih => simp [encodeItems, ih]

end Value

end RosSchema

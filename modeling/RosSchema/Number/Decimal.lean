import RosSchema.Number.Binary64
import RosSchema.Number.Numeral

/-!
# Decimal numbers

A decimal number is a sign, an integer and a power of ten. A numeral stands for one, and the nearest
binary64 number is what the numeral is read as.
-/

namespace RosSchema

/-- The number `mantissa * 10 ^ exponent`, with a sign. -/
structure Decimal where
  negative : Bool
  mantissa : Nat
  exponent : Int
  deriving DecidableEq, Repr

namespace Decimal

def ofNumeral (n : Numeral) : Decimal where
  negative := n.sign = some .minus
  mantissa := Numeral.natOfDigits (n.whole ++ n.fraction.getD [])
  exponent :=
    (match n.power with
      | some p => Numeral.signed p.sign (Numeral.natOfDigits p.digits)
      | none => 0) - (n.fraction.getD []).length

/-- The nearest binary64 number. Below `10 ^ -324` everything is zero and from `10 ^ 309` on
everything is infinite, so the power of ten is only formed between these. -/
def toBinary64 (x : Decimal) : Binary64 :=
  let size := (Nat.toDigits 10 x.mantissa).length + x.exponent
  if x.mantissa = 0 || size ≤ -324 then .zero x.negative
  else if 310 ≤ size then .infinity x.negative
  else
    let (n, d) := scaleDown 10 (-x.exponent) x.mantissa 1
    .nearest x.negative n d

/-- The same number with no zero at the end of its mantissa; the first argument bounds the zeros
that are taken off. -/
def dropZeros : Nat → Nat → Int → Nat × Int
  | 0, mantissa, exponent => (mantissa, exponent)
  | n + 1, mantissa, exponent =>
    if mantissa % 10 = 0 && mantissa != 0 then dropZeros n (mantissa / 10) (exponent + 1)
    else (mantissa, exponent)

end Decimal

end RosSchema

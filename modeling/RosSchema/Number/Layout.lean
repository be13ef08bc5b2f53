import RosSchema.Number.Shortest

/-!
# Layouts of floating point text

The shortest digits of a number can be laid out with a point among them or with a power of ten. A
`Layout` holds the decisions that one written form takes, and `Layout.write` follows them.
-/

namespace RosSchema

/-- The decisions of one written form of numbers. -/
structure Layout where
  /-- The least power of ten of a first digit that is written with a point. -/
  plainFrom : Int
  /-- The least power of ten of a first digit, above that, that is not. -/
  plainBelow : Int
  /-- Whole numbers end in a zero after a point. -/
  wholePoint : Bool
  /-- Positive powers of ten carry a plus. -/
  plusPower : Bool
  /-- Which of two equally near decimals is written. -/
  tie : Tie
  /-- The zero without a sign. -/
  zero : String
  /-- The zero with a minus. -/
  negativeZero : String
  /-- The infinity without a sign. -/
  infinity : String
  /-- The infinity with a minus. -/
  negativeInfinity : String
  /-- The text for what is no number. -/
  nan : String
  deriving DecidableEq, Repr

namespace Layout

/-- Digits with a point, the first of them standing for `10 ^ top`. -/
def plain (wholePoint : Bool) (digits : List Char) (top : Int) : List Char :=
  if top < 0 then '0' :: '.' :: List.replicate (-top - 1).toNat '0' ++ digits
  else
    let places := top.toNat + 1
    if digits.length ≤ places then
      digits ++ List.replicate (places - digits.length) '0' ++ (if wholePoint then ['.', '0'] else [])
    else digits.take places ++ '.' :: digits.drop places

/-- One digit, a point if more follow, and the power of ten of the first. -/
def powered (plusPower : Bool) (digits : List Char) (top : Int) : List Char :=
  let mantissa := match digits with
    | first :: second :: rest => first :: '.' :: second :: rest
    | _ => digits
  mantissa ++ 'e' :: (if plusPower && 0 ≤ top then ['+'] else []) ++ Numeral.ofInt top

def writeDecimal (l : Layout) (x : Decimal) : List Char :=
  let digits := Numeral.ofNat x.mantissa
  let top := x.exponent + digits.length - 1
  (if x.negative then ['-'] else []) ++
    (if l.plainFrom ≤ top && top < l.plainBelow then plain l.wholePoint digits top
    else powered l.plusPower digits top)

def write (l : Layout) (x : Binary64) : List Char :=
  if x.isNaN then l.nan.toList
  else if x.isInfinite then (if x.negative then l.negativeInfinity else l.infinity).toList
  else if x.isZero then (if x.negative then l.negativeZero else l.zero).toList
  else l.writeDecimal (x.shortest l.tie)

end Layout

end RosSchema

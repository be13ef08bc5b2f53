import RosSchema.Number.Decimal

/-!
# The fewest digits that read back

The reals that are read as one finite binary64 number form an interval around it. Among the decimals
in that interval, those with the fewest digits are candidates, and the nearest of them is written.
-/

namespace RosSchema

/-- Which of two equally near decimals is written. -/
inductive Tie where
  | up
  | even
  deriving DecidableEq, Repr

/-- A positive real `value / unit` with the ends of its interval `low / unit` and `high / unit`, and
whether the ends belong to it. -/
structure Interval where
  low : Nat
  value : Nat
  high : Nat
  unit : Nat
  closed : Bool
  deriving DecidableEq, Repr

namespace Interval

/-- The reals that are read as `m * 2 ^ q`, in quarters of `2 ^ q`. The gap below the least
significand of an exponent is half as wide, and the ends are read as the even neighbour. -/
def ofBinary (m : Nat) (q : Int) : Interval :=
  let scale := Nat.pow 2 (q - 2).toNat
  { low := (4 * m - (if m = Nat.pow 2 52 && q != -1074 then 1 else 2)) * scale
    value := 4 * m * scale
    high := (4 * m + 2) * scale
    unit := Nat.pow 2 (2 - q).toNat
    closed := m % 2 = 0 }

def inTens (i : Interval) (power : Int) : Interval :=
  let scale := Nat.pow 10 (-power).toNat
  { i with
    low := i.low * scale
    value := i.value * scale
    high := i.high * scale
    unit := i.unit * Nat.pow 10 power.toNat }

def holds (i : Interval) (n : Nat) : Bool :=
  let x := n * i.unit
  if i.closed then i.low ≤ x && x ≤ i.high else i.low < x && x < i.high

/-- The integer in the interval that is nearest to the value, if one of the value's two neighbours is
in it. -/
def neighbour? (tie : Tie) (i : Interval) : Option Nat :=
  let n := i.value / i.unit
  match i.holds n, i.holds (n + 1) with
  | true, true =>
    let below := 2 * (i.value % i.unit)
    let upper := i.unit < below ||
      (below == i.unit && (match tie with
        | .up => true
        | .even => n % 2 == 1))
    some (if upper then n + 1 else n)
  | true, false => some n
  | false, true => some (n + 1)
  | false, false => none

/-- The first grid, from coarse to fine, with a decimal in the interval. Seventeen digits always
suffice, so the search ends before its grids do. -/
def search (tie : Tie) (i : Interval) : List Int → Option (Nat × Int)
  | [] => none
  | power :: powers =>
    match (i.inTens power).neighbour? tie with
    | some n => some (n, power)
    | none => search tie i powers

end Interval

namespace Binary64

def shortest (tie : Tie) (x : Binary64) : Decimal :=
  if x.isZero then ⟨x.negative, 0, 0⟩
  else
    let i := Interval.ofBinary x.significand x.exponent
    let top := leadingPower 10 i.value i.unit
    match i.search tie ((List.range 17).map fun (k : Nat) => top - k) with
    | some (n, power) =>
      let (mantissa, exponent) := Decimal.dropZeros 17 n power
      ⟨x.negative, mantissa, exponent⟩
    | none => ⟨x.negative, i.value, 0⟩

end Binary64

end RosSchema

/-!
# Binary floating point numbers

A binary64 number is a sign and the code of a magnitude. The codes are ordered as the magnitudes are:
`code = (q + 1074) * 2 ^ 52 + m` for the finite magnitude `m * 2 ^ q`, then infinity, then the
numbers that are none. Numbers here are read, compared and written, never computed with.
-/

namespace RosSchema

/-- A binary64 number by its sign and the code of its magnitude. -/
structure Binary64 where
  negative : Bool
  code : Fin (Nat.pow 2 63)
  deriving DecidableEq, Repr

namespace Binary64

def infinityCode : Nat := 2047 * Nat.pow 2 52

/-- The number with a sign and a magnitude code, of which codes above infinity count as infinity. -/
def ofCode (negative : Bool) (code : Nat) : Binary64 :=
  ⟨negative, ⟨min code infinityCode,
    Nat.lt_of_le_of_lt (Nat.min_le_right _ _) (by decide)⟩⟩

def zero (negative : Bool) : Binary64 := ofCode negative 0

def infinity (negative : Bool) : Binary64 := ofCode negative infinityCode

/-- The number of a 64-bit word, whose top bit is the sign. -/
def ofBits (bits : UInt64) : Binary64 :=
  ⟨bits.toNat / Nat.pow 2 63 == 1, ⟨bits.toNat % Nat.pow 2 63, Nat.mod_lt _ (by decide)⟩⟩

def toBits (x : Binary64) : UInt64 :=
  UInt64.ofNat ((if x.negative then Nat.pow 2 63 else 0) + x.code.val)

/-- Codes above infinity stand for no number. -/
def isNaN (x : Binary64) : Bool := infinityCode < x.code.val

def isInfinite (x : Binary64) : Bool := x.code.val == infinityCode

def isZero (x : Binary64) : Bool := x.code.val == 0

def isFinite (x : Binary64) : Bool := x.code.val < infinityCode

/-- The integer `m` of a finite magnitude `m * 2 ^ q`. -/
def significand (x : Binary64) : Nat :=
  if x.code.val < Nat.pow 2 52 then x.code.val else Nat.pow 2 52 + x.code.val % Nat.pow 2 52

/-- The exponent `q` of a finite magnitude `m * 2 ^ q`. -/
def exponent (x : Binary64) : Int :=
  if x.code.val < Nat.pow 2 52 then -1074 else (x.code.val / Nat.pow 2 52 : Nat) - 1075

/-- A number equals another when both are zero or both have one sign and one magnitude; what stands
for no number equals nothing. -/
def sameNumber (x y : Binary64) : Bool :=
  !x.isNaN && (x == y || x.isZero && y.isZero)

end Binary64

/-- The quotient `num / den` times `base ^ -shift`, as a numerator and a denominator. -/
def scaleDown (base : Nat) (shift : Int) (num den : Nat) : Nat × Nat :=
  (num * Nat.pow base (-shift).toNat, den * Nat.pow base shift.toNat)

/-- The exponent of the largest power of a base that is not above a positive quotient. -/
def leadingPower (base num den : Nat) : Int :=
  let guess := ((Nat.toDigits base num).length : Int) - (Nat.toDigits base den).length
  let (n, d) := scaleDown base guess num den
  if d ≤ n then guess else guess - 1

/-- The integer nearest to a quotient; a half goes to the even neighbour. -/
def roundHalfEven (num den : Nat) : Nat :=
  let whole := num / den
  let twice := 2 * (num % den)
  if den < twice || (twice == den && whole % 2 == 1) then whole + 1 else whole

namespace Binary64

/-- The number nearest to `num / den`. The unit `2 ^ q` gives the quotient 53 binary digits, or is
the least unit of all; a significand that rounds up to `2 ^ 53` is the next code. -/
def nearest (negative : Bool) (num den : Nat) : Binary64 :=
  if num = 0 then zero negative
  else
    let q := max (leadingPower 2 num den - 52) (-1074)
    let (n, d) := scaleDown 2 q num den
    ofCode negative ((q + 1074).toNat * Nat.pow 2 52 + roundHalfEven n d)

def ofInt (i : Int) : Binary64 := nearest (i < 0) i.natAbs 1

end Binary64

end RosSchema

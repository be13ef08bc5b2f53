/-!
# Numerals

The text of a number: an optional sign, digits with an optional fraction, and an optional exponent.
`Numeral.read?` splits the longest numeral off the front of a text; `Numeral.text` writes it back.
-/

namespace RosSchema

inductive Sign where
  | plus
  | minus
  deriving DecidableEq, Repr

namespace Sign

def char : Sign → Char
  | plus => '+'
  | minus => '-'

def read : List Char → Option Sign × List Char
  | '+' :: rest => (some plus, rest)
  | '-' :: rest => (some minus, rest)
  | rest => (none, rest)

def text (sign : Option Sign) : List Char := sign.toList.map char

theorem text_append_read (cs : List Char) : text (read cs).1 ++ (read cs).2 = cs := by
  unfold read
  split <;> simp [text, char]

end Sign

/-- The power of ten at the end of a numeral. -/
structure TenPower where
  upperCase : Bool
  sign : Option Sign
  digits : List Char
  deriving DecidableEq, Repr

/-- A numeral as it is written. The fraction is `none` without a point, and may be empty after one. -/
structure Numeral where
  sign : Option Sign
  whole : List Char
  fraction : Option (List Char)
  power : Option TenPower
  deriving DecidableEq, Repr

namespace TenPower

def text (p : TenPower) : List Char :=
  (if p.upperCase then 'E' else 'e') :: Sign.text p.sign ++ p.digits

/-- A power written at the front of a text. Once the mark is seen, its digits are mandatory. -/
def read? (upperCase : Bool) (cs : List Char) : Option (TenPower × List Char) :=
  let (sign, rest) := Sign.read cs
  match rest.takeWhile Char.isDigit with
  | [] => none
  | digits => some (⟨upperCase, sign, digits⟩, rest.dropWhile Char.isDigit)

end TenPower

namespace Numeral

def text (n : Numeral) : List Char :=
  Sign.text n.sign ++ n.whole ++
    (match n.fraction with
      | some digits => '.' :: digits
      | none => []) ++
    (match n.power with
      | some power => power.text
      | none => [])

/-- A point and the digits after it. -/
def fraction? : List Char → Option (List Char) × List Char
  | '.' :: rest => (some (rest.takeWhile Char.isDigit), rest.dropWhile Char.isDigit)
  | rest => (none, rest)

/-- An optional power of ten; `none` if its mark has no digits after it. -/
def power? : List Char → Option (Option TenPower × List Char)
  | 'e' :: rest => (TenPower.read? false rest).map fun (p, rest) => (some p, rest)
  | 'E' :: rest => (TenPower.read? true rest).map fun (p, rest) => (some p, rest)
  | rest => some (none, rest)

/-- The numeral at the front of a text, which needs a digit before its point or after it. -/
def read? (cs : List Char) : Option (Numeral × List Char) :=
  let (sign, rest) := Sign.read cs
  let whole := rest.takeWhile Char.isDigit
  let (fraction, rest) := fraction? (rest.dropWhile Char.isDigit)
  if whole.isEmpty && (fraction.getD []).isEmpty then none
  else (power? rest).map fun (power, rest) => (⟨sign, whole, fraction, power⟩, rest)

def ofText? (cs : List Char) : Option Numeral :=
  match read? cs with
  | some (n, []) => some n
  | _ => none

/-- A numeral with neither a point nor a power of ten. -/
def isWhole (n : Numeral) : Bool := n.fraction.isNone && n.power.isNone

def natOfDigits (digits : List Char) : Nat := Nat.ofDigitChars 10 digits 0

def signed (sign : Option Sign) (n : Nat) : Int :=
  if sign = some .minus then -(n : Int) else n

def integer? (cs : List Char) : Option Int :=
  let (sign, digits) := Sign.read cs
  if !digits.isEmpty && digits.all Char.isDigit then some (signed sign (natOfDigits digits)) else none

def ofNat (n : Nat) : List Char := Nat.toDigits 10 n

def ofInt : Int → List Char
  | .ofNat n => ofNat n
  | .negSucc n => '-' :: ofNat (n + 1)

@[simp] theorem natOfDigits_ofNat (n : Nat) : natOfDigits (ofNat n) = n :=
  Nat.ofDigitChars_toDigits (by decide) (by decide)

end Numeral

end RosSchema

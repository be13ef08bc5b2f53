/-!
# Readers

A reader takes a value off the front of a text, or fails. Choice is ordered: `p <|> q` is `q` only
where `p` fails, and a reader that has succeeded is not tried again.
-/

namespace RosSchema

/-- A value off the front of a text, with the text after it. -/
abbrev Reader (α : Type) := StateT (List Char) Option α

namespace Reader

def one (p : Char → Bool) : Reader Char
  | c :: rest => if p c then some (c, rest) else none
  | [] => none

def mark (c : Char) : Reader Unit := discard (one (· == c))

def token (s : String) : Reader Unit := fun cs => (s.toList.isPrefixOf? cs).map ((), ·)

/-- The longest run of characters of a class. -/
def run (p : Char → Bool) : Reader (List Char) := fun cs => some (cs.takeWhile p, cs.dropWhile p)

/-- The longest run of characters of a class, of which there has to be one. -/
def run1 (p : Char → Bool) : Reader (List Char) := do
  let first ← one p
  return first :: (← run p)

def rest : Reader (List Char) := fun cs => some (cs, [])

/-- Succeeds where the text does not go on with a character of a class. -/
def stop (p : Char → Bool) : Reader Unit
  | c :: rest => if p c then none else some ((), c :: rest)
  | [] => some ((), [])

def given (a : Option α) : Reader α := fun cs => a.map (·, cs)

/-- As many values as there are, up to a limit. -/
def many (p : Reader α) : Nat → Reader (List α)
  | 0 => pure []
  | n + 1 => (do
      let first ← p
      return first :: (← many p n)) <|> pure []

/-- Values with a separator between every two, up to a limit. -/
def separated (separator : Reader Unit) (p : Reader α) (limit : Nat) : Reader (List α) :=
  (do
    let first ← p
    return first :: (← many (separator *> p) limit)) <|> pure []

/-- The value of a reader that takes the whole text. -/
def whole? (p : Reader α) (cs : List Char) : Option α :=
  match p cs with
  | some (a, []) => some a
  | _ => none

def isNameStart (c : Char) : Bool := c.isAlpha || c == '_'

def isNamePart (c : Char) : Bool := c.isAlphanum || c == '_'

/-- An identifier: a letter or underscore, then letters, digits and underscores. -/
def identifier : Reader (List Char) := do
  let first ← one isNameStart
  return first :: (← run isNamePart)

end Reader

/-- The number of a run of digits, if it fits in 64 bits. -/
def count64? (digits : List Char) : Option Nat :=
  let n := Nat.ofDigitChars 10 digits 0
  if n < Nat.pow 2 64 then some n else none

end RosSchema

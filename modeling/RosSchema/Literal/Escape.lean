import RosSchema.Error

/-!
# Escapes in string literals

A string literal is bare text, or text between two quotes of one kind. A backslash starts an escape,
in bare text as well. `readEscape` reads one escape and says how many characters it takes;
`unescape` decodes a whole body.
-/

namespace RosSchema.Literal

def isOctalDigit (c : Char) : Bool := '0' ≤ c && c ≤ '7'

def hexDigit? (c : Char) : Option Nat :=
  if c.isDigit then some (c.toNat - '0'.toNat)
  else if 'a' ≤ c && c ≤ 'f' then some (c.toNat - 'a'.toNat + 10)
  else if 'A' ≤ c && c ≤ 'F' then some (c.toNat - 'A'.toNat + 10)
  else none

/-- The number of a run of hexadecimal digits, if all characters are such digits. -/
def hexNumber? (digits : List Char) : Option Nat :=
  digits.foldl (fun n c => n.bind fun n => (hexDigit? c).map (16 * n + ·)) (some 0)

/-- The character of a letter that stands for it after a backslash. -/
def letterEscape? : Char → Option Char
  | '\'' => some '\''
  | '"' => some '"'
  | '\\' => some '\\'
  | 'a' => some '\x07'
  | 'b' => some '\x08'
  | 'f' => some '\x0c'
  | 'n' => some '\n'
  | 'r' => some '\r'
  | 't' => some '\t'
  | 'v' => some '\x0b'
  | _ => none

/-- The number of hexadecimal digits that a letter asks for after a backslash. -/
def hexWidth? : Char → Option Nat
  | 'x' => some 2
  | 'u' => some 4
  | 'U' => some 8
  | _ => none

def scalar (body : String) (code : Nat) : Except Fault Char :=
  if code.isValidChar then .ok (Char.ofNat code) else .error (.noCodePoint code body)

/-- The character of the escape after a backslash, and how many characters the escape takes there.
Octal escapes take all digits that follow, at most three. -/
def readEscape (body : String) : List Char → Except Fault (Char × Nat)
  | [] => .error (.danglingEscape body)
  | c :: rest =>
    match letterEscape? c, hexWidth? c with
    | some d, _ => .ok (d, 1)
    | none, some width =>
      let digits := rest.take width
      match hexNumber? digits with
      | some code =>
        if digits.length = width then (scalar body code).map (·, width + 1)
        else .error (.tooFewHexDigits c width body)
      | none => .error (.tooFewHexDigits c width body)
    | none, none =>
      if isOctalDigit c then
        let digits := ((c :: rest).take 3).takeWhile isOctalDigit
        (scalar body (Nat.ofDigitChars 8 digits 0)).map (·, digits.length)
      else .error (.unknownEscape c body)

/-- Decode the body of a string literal, in which its own quote does not stand alone. -/
def unescape (quote : Option Char) (body : String) : List Char → Except Fault (List Char)
  | [] => .ok []
  | c :: rest =>
    if some c = quote then .error (.strayQuote c body)
    else if c = '\\' then
      match readEscape body rest with
      | .ok (d, n) => (unescape quote body (rest.drop n)).map (d :: ·)
      | .error fault => .error fault
    else (unescape quote body rest).map (c :: ·)
termination_by cs => cs.length
decreasing_by all_goals simp only [List.length_drop, List.length_cons]; omega

def isQuote (c : Char) : Bool := c = '\'' || c = '"'

/-- Decode a string literal. Bare text is decoded as it stands; quoted text has to end with the quote
that it starts with. -/
def unquote : List Char → Except Fault (List Char)
  | [] => .ok []
  | c :: rest =>
    if isQuote c then
      if rest.getLast? = some c then unescape (some c) (String.ofList rest.dropLast) rest.dropLast
      else .error (.unterminated c (String.ofList (c :: rest)))
    else unescape none (String.ofList (c :: rest)) (c :: rest)

end RosSchema.Literal

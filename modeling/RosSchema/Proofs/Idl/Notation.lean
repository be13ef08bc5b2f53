import RosSchema.Idl.Grammar
import RosSchema.Proofs.Text.Reading

/-!
# The notation of documents

What declarations look like in print, as lists of words with gaps between them. `Prints` relates a
declaration to its words; literals can be spelled in more than one way, and everything else has one form.
-/

namespace RosSchema.Idl

open Reader
open RosSchema.Literal (hexNumber? hexWidth? isOctalDigit letterEscape?)

/-! ## Names -/

def reservedWords : List String :=
  ["module", "struct", "typedef", "const", "unsigned", "boolean", "octet", "short", "long", "float", "double",
    "TRUE", "FALSE", "true", "false"]

structure IsName (cs : List Char) : Prop where
  start : ∃ c rest, cs = c :: rest ∧ isNameStart c = true
  parts : ∀ c ∈ cs, isNamePart c = true
  free : ∀ s ∈ reservedWords, cs ≠ s.toList

instance (cs : List Char) : Decidable (IsName cs) :=
  have checks : (cs.head?.any isNameStart = true ∧ cs.all isNamePart = true ∧ ∀ s ∈ reservedWords, cs ≠ s.toList) ↔
      IsName cs := by
    constructor
    · rintro ⟨hstart, hparts, hfree⟩
      obtain ⟨c, hc, hstart⟩ := (Option.any_eq_true _ _).1 hstart
      obtain ⟨rest, rfl⟩ := List.head?_eq_some_iff.1 hc
      exact ⟨⟨c, rest, rfl, hstart⟩, List.all_eq_true.1 hparts, hfree⟩
    · rintro ⟨⟨c, rest, rfl, hstart⟩, hparts, hfree⟩
      exact ⟨hstart, List.all_eq_true.2 hparts, hfree⟩
  decidable_of_iff _ checks

def scopeText (part : List Char) : List Char := ':' :: ':' :: part

/-- Names with two colons between every two. -/
inductive IsScopedName : List Char → Prop where
  | mk {first : List Char} {others : List (List Char)} (hfirst : IsName first)
      (hothers : ∀ part ∈ others, IsName part) : IsScopedName (first ++ others.flatMap scopeText)

/-! ## Literals -/

/-- What stands between the quotes of a string, and the characters that it stands for. -/
inductive Spells : List Char → List Char → Prop where
  | nil : Spells [] []
  | plain {c : Char} {body cs : List Char} (quote : c ≠ '"') (backslash : c ≠ '\\') (rest : Spells body cs) :
      Spells (c :: body) (c :: cs)
  | letter {c d : Char} {body cs : List Char} (hletter : letterEscape? c = some d) (rest : Spells body cs) :
      Spells ('\\' :: c :: body) (d :: cs)
  | hex {c : Char} {width code : Nat} {digits body cs : List Char} (hwidth : hexWidth? c = some width)
      (hlength : digits.length = width) (hcode : hexNumber? digits = some code) (hvalid : code.isValidChar)
      (rest : Spells body cs) : Spells ('\\' :: c :: digits ++ body) (Char.ofNat code :: cs)
  | octal {digits body cs : List Char} (hdigits : Word isOctalDigit digits) (hlength : digits.length ≤ 3)
      (hlast : digits.length = 3 ∨ ∀ c ∈ body.head?, isOctalDigit c = false)
      (hvalid : (Nat.ofDigitChars 8 digits 0).isValidChar) (rest : Spells body cs) :
      Spells ('\\' :: digits ++ body) (Char.ofNat (Nat.ofDigitChars 8 digits 0) :: cs)

inductive LiteralWord : List Char → Literal → Prop where
  | integer (sign : Option Sign) {digits : List Char} (hdigits : Word Char.isDigit digits)
      (hlow : -(2 ^ 63) ≤ Numeral.signed sign (Numeral.natOfDigits digits))
      (hhigh : Numeral.signed sign (Numeral.natOfDigits digits) < 2 ^ 63) :
      LiteralWord (Sign.text sign ++ digits) (.value (.int (Numeral.signed sign (Numeral.natOfDigits digits))))
  | yes : LiteralWord "TRUE".toList (.value (.bool true))
  | no : LiteralWord "FALSE".toList (.value (.bool false))
  | string {body cs : List Char} (hbody : Spells body cs) :
      LiteralWord ('"' :: body ++ ['"']) (.value (.string (String.ofList cs)))
  | constant {name : List Char} (hname : IsScopedName name) : LiteralWord name (.constant (String.ofList name))

inductive BoundWord : List Char → Literal → Prop where
  | count {digits : List Char} (hdigits : Word Char.isDigit digits) (hfits : Numeral.natOfDigits digits < 2 ^ 64) :
      BoundWord digits (.value (.uint (Numeral.natOfDigits digits)))
  | constant {name : List Char} (hname : IsScopedName name) : BoundWord name (.constant (String.ofList name))

/-! ## Declarations -/

/-- The words of a type that is no sequence, with its bound if it is a string with one. -/
inductive ElementWords : String → Option Literal → List (List Char) → Prop where
  | named {name : List Char} (hname : IsScopedName name) : ElementWords (String.ofList name) none [name]
  | bounded {keyword : String} {word : List Char} {n : Literal} (hkeyword : keyword = "string" ∨ keyword = "wstring")
      (hword : BoundWord word n) : ElementWords keyword (some n) [keyword.toList, ['<'], word, ['>']]

/-- The words of a member without its semicolon: its type and its name, which can be that of an array. -/
inductive MemberWords : Member → List (List Char) → Prop where
  | single {type : String} {stringBound : Option Literal} {words : List (List Char)} {name : List Char}
      (htype : ElementWords type stringBound words) (hname : IsName name) :
      MemberWords { type, name := String.ofList name, stringBound } (words ++ [name])
  | array {type : String} {stringBound : Option Literal} {words : List (List Char)} {name word : List Char}
      {n : Literal} (htype : ElementWords type stringBound words) (hname : IsName name) (hword : BoundWord word n) :
      MemberWords { type, name := String.ofList name, stringBound, isArray := true, arrayLength := some n }
        (words ++ [name, ['['], word, [']']])
  | sequence {type : String} {stringBound : Option Literal} {words : List (List Char)} {name : List Char}
      (htype : ElementWords type stringBound words) (hname : IsName name) :
      MemberWords { type, name := String.ofList name, stringBound, isArray := true }
        ("sequence".toList :: ['<'] :: words ++ [['>'], name])
  | boundedSequence {type : String} {stringBound : Option Literal} {words : List (List Char)}
      {name word : List Char} {n : Literal} (htype : ElementWords type stringBound words) (hname : IsName name)
      (hword : BoundWord word n) :
      MemberWords { type, name := String.ofList name, stringBound, isArray := true, arrayBound := some n }
        ("sequence".toList :: ['<'] :: words ++ [[','], word, ['>'], name])

/-- The words of what a struct can hold: a field, which can have a default, or a constant. -/
inductive PrintsMember : Node → List (List Char) → Prop where
  | field {m : Member} {words : List (List Char)} (hm : MemberWords m words) :
      PrintsMember (.field m) (words ++ [[';']])
  | default {m : Member} {words : List (List Char)} {word : List Char} {value : Literal} (hm : MemberWords m words)
      (hword : LiteralWord word value) :
      PrintsMember (.field { m with defaultValue := some value })
        ("@default".toList :: ['('] :: "value".toList :: ['='] :: word :: [')'] :: words ++ [[';']])
  | constant {type : String} {stringBound : Option Literal} {words : List (List Char)} {name word : List Char}
      {value : Literal} (htype : ElementWords type stringBound words) (hname : IsName name)
      (hword : LiteralWord word value) :
      PrintsMember (.constant
          { type
            name := String.ofList name
            stringBound
            value := some value
            valueText := some (String.ofList word) })
        ("const".toList :: words ++ [name, ['='], word, [';']])

/-- The words of a declaration. Those inside a module or a struct stand between its braces, one after the
other. -/
inductive Prints : Node → List (List Char) → Prop where
  | member {node : Node} {words : List (List Char)} (h : PrintsMember node words) : Prints node words
  | typedef {m : Member} {words : List (List Char)} (hm : MemberWords m words) :
      Prints (.typedef m) ("typedef".toList :: words ++ [[';']])
  | struct {name : List Char} {parts : List (Node × List (List Char))} (hname : IsName name)
      (hparts : ∀ part ∈ parts, PrintsMember part.1 part.2) :
      Prints (.struct (String.ofList name) (parts.map Prod.fst))
        ("struct".toList :: name :: ['\x7b'] :: parts.flatMap Prod.snd ++ [['\x7d'], [';']])
  | module {name : List Char} {parts : List (Node × List (List Char))} (hname : IsName name)
      (hparts : ∀ part ∈ parts, Prints part.1 part.2) :
      Prints (.module (String.ofList name) (parts.map Prod.fst))
        ("module".toList :: name :: ['\x7b'] :: parts.flatMap Prod.snd ++ [['\x7d'], [';']])

/-! ## Text -/

/-- A text of words with a gap of at least one character between every two. -/
inductive Spaced : List (List Char) → List Char → Prop where
  | nil : Spaced [] []
  | last (word : List Char) : Spaced [word] word
  | cons (word : List Char) {gaps : List Char} {words : List (List Char)} {cs : List Char} (hgaps : Word isGap gaps)
      (rest : Spaced words cs) : Spaced (word :: words) (word ++ gaps ++ cs)

end RosSchema.Idl

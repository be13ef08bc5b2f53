/-!
# Blanks

A blank is a character with the Unicode property `White_Space`. Lines and literals are trimmed of
blanks at both ends, and words are separated by them.
-/

namespace RosSchema.Text

/-- The code points of the property `White_Space`, as inclusive ranges. -/
def blankRanges : List (Nat × Nat) :=
  [(0x09, 0x0D), (0x20, 0x20), (0x85, 0x85), (0xA0, 0xA0), (0x1680, 0x1680), (0x2000, 0x200A),
   (0x2028, 0x2029), (0x202F, 0x202F), (0x205F, 0x205F), (0x3000, 0x3000)]

def isBlank (c : Char) : Bool :=
  blankRanges.any fun r => r.1 ≤ c.toNat && c.toNat ≤ r.2

def trimLeft (cs : List Char) : List Char := cs.dropWhile isBlank

def trimRight (cs : List Char) : List Char := (cs.reverse.dropWhile isBlank).reverse

def trim (cs : List Char) : List Char := trimRight (trimLeft cs)

def firstWord? (cs : List Char) : Option (List Char) :=
  match (trimLeft cs).takeWhile (!isBlank ·) with
  | [] => none
  | word => some word

/-- The text before the first occurrence of a mark, or all of it if there is none. -/
def before (mark : Char) (cs : List Char) : List Char := cs.takeWhile (· != mark)

@[simp] theorem trim_nil : trim [] = [] := rfl

end RosSchema.Text

import RosSchema.Definition
import RosSchema.Error
import RosSchema.Text.Blank

/-!
# Definitions in lines

A text of a line-oriented dialect is a list of lines without the blanks around them. Empty lines and
lines that are comments do not count, and dividers cut the rest into one block for each definition. A
`Grammar` says how the lines of a block are read.
-/

namespace RosSchema.Line

open RosSchema.Text (trim trimLeft)

/-- A divider starts with two equality signs. -/
def isDivider (line : List Char) : Bool := ['=', '='].isPrefixOf (trimLeft line)

/-- Lines that are neither empty nor a comment. -/
def isMeaningful (line : List Char) : Bool := !line.isEmpty && line.head? != some '#'

/-- The meaningful lines of a text, in one block more than there are dividers. -/
def blocks (text : String) : List (List (List Char)) :=
  (((text.toList.splitOn '\n').map trim).filter isMeaningful).splitOnP isDivider

/-- How the lines of a dialect are read. -/
structure Grammar where
  /-- The name that a header line gives to its definition, or takes from it; `none` for all other
  lines. -/
  header? : List Char → Option (Option String)
  /-- The field of any other line. -/
  field : List Char → Except Error Field

/-- The definition of a block. The last header gives its name. -/
def Grammar.definition (g : Grammar) (lines : List (List Char)) : Except Error Definition := do
  let fields ← (lines.filter fun line => (g.header? line).isNone).mapM g.field
  return { name := (lines.filterMap g.header?).getLast?.join, fields }

def Grammar.definitions (g : Grammar) (text : String) : Except Error (List Definition) :=
  (blocks text).mapM g.definition

inductive ArrayMark (α : Type) where
  | any
  | exactly (count : α)
  | atMost (count : α)
  deriving DecidableEq, Repr

def markField (f : Field) : Option (ArrayMark Nat) → Field
  | none => f
  | some .any => f.asArray none none
  | some (.exactly n) => f.asArray (some n) none
  | some (.atMost n) => f.asArray none (some n)

def notALine (line : List Char) : Error := .malformed "line" (String.ofList line)

end RosSchema.Line

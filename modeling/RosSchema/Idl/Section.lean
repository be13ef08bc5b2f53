import RosSchema.Text.Blank

/-!
# Sections

One text can hold several documents. Lines of equality signs alone separate its sections, and a section
can name its document in a header line.
-/

namespace RosSchema.Idl

open RosSchema.Text (trim)

structure Section where
  path : Option String
  body : List Char
  deriving DecidableEq, Repr

/-- A line without the carriage return at its end. -/
def dropReturn (line : List Char) : List Char :=
  if line.getLast? = some '\r' then line.dropLast else line

/-- The lines of a text, without the line breaks, of which a carriage return can be part. The last line
break ends a line and does not start another. -/
def textLines (cs : List Char) : List (List Char) :=
  let pieces := cs.splitOn '\n'
  pieces.dropLast.map dropReturn ++
    (match pieces.getLast? with
      | some (c :: line) => [c :: line]
      | _ => [])

/-- A separator holds equality signs and nothing else but blanks around them. -/
def isSeparator (line : List Char) : Bool := !(trim line).isEmpty && (trim line).all (· == '=')

def joinLines (lines : List (List Char)) : List Char := ['\n'].intercalate lines

/-- The section of the lines between two separators. Without any text there is none. -/
def Section.ofLines? (lines : List (List Char)) : Option Section :=
  match lines.dropWhile fun line => (trim line).isEmpty with
  | [] => none
  | first :: rest =>
    match "IDL:".toList.isPrefixOf? (trim first) with
    | some path => some ⟨some (String.ofList (trim path)), joinLines rest⟩
    | none => some ⟨none, joinLines (first :: rest)⟩

def sections (text : String) : List Section :=
  ((textLines text.toList).splitOnP isSeparator).filterMap Section.ofLines?

end RosSchema.Idl

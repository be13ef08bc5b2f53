import RosSchema.Proofs.Bundle.Contents
import RosSchema.Proofs.Idl.Sections
import RosSchema.Schema

/-!
# Texts joined by a line of equality signs

Both kinds of dialects split a text at such a line. As long as no types are resolved across definitions,
`parse` reads what stands before it and what stands after it as two texts of their own.
-/

namespace RosSchema

open RosSchema.Idl (together)
open RosSchema.Line (blocks lines)

def joined (first second : String) : String :=
  String.ofList (first.toList ++ '\n' :: divider ++ '\n' :: second.toList)

theorem toList_joined (first second : String) :
    (joined first second).toList = first.toList ++ '\n' :: divider ++ '\n' :: second.toList :=
  String.toList_ofList

theorem blocks_joined (first second : String) : blocks (joined first second) = blocks first ++ blocks second := by
  rw [Line.blocks_eq, Line.blocks_eq, Line.blocks_eq, toList_joined, List.append_assoc, List.cons_append,
    Line.lines_append, Line.lines_append, lines_divider, List.singleton_append,
    List.splitOnP_append_cons _ _ isDivider_divider]

/-- A line-oriented grammar reads one block after the other. -/
theorem toOption_definitions_blocks (g : Line.Grammar) (first second : String) :
    (g.definitions (joined first second)).toOption =
      together (g.definitions first).toOption (g.definitions second).toOption := by
  rw [Line.Grammar.definitions, Line.Grammar.definitions, Line.Grammar.definitions, blocks_joined,
    Idl.toOption_mapM, Idl.toOption_mapM, Idl.toOption_mapM, List.mapM_append]
  rfl

theorem toOption_parseLines_joined (first second : String) (d : Dialect) :
    (parseLines (joined first second) d).toOption =
      together (parseLines first d).toOption (parseLines second d).toOption := by
  cases d with
  | ros1 => exact toOption_definitions_blocks Line.ros1 first second
  | ros2 => exact toOption_definitions_blocks Line.ros2 first second
  | idl => rfl

theorem newline_not_mem_divider : '\n' ∉ divider := by simp [divider]

theorem isSeparator_divider : Idl.isSeparator divider = true := by decide +kernel

theorem together_eq_some {a b : Option (List Definition)} {definitions : List Definition} :
    together a b = some definitions ↔ ∃ x y, a = some x ∧ b = some y ∧ definitions = x ++ y := by
  cases a <;> cases b <;> simp [together, eq_comm]

theorem toOption_eq_some {α : Type} {x : Except Error α} {a : α} : x.toOption = some a ↔ x = .ok a := by
  cases x <;> simp [Except.toOption]

/-- With types as they are written, a line of equality signs composes definitions: the joined text can
be read just where both texts can, and gives their definitions one after the other. -/
theorem parse_joined (o : Options) (keep : o.keepTypes = true) (first second : String)
    (definitions : List Definition) :
    parse (joined first second) o = .ok definitions ↔
      ∃ a b, parse first o = .ok a ∧ parse second o = .ok b ∧ definitions = a ++ b := by
  have hparse : (parse (joined first second) o).toOption =
      together (parse first o).toOption (parse second o).toOption := by
    cases hline : o.dialect.isLineOriented with
    | true =>
      have hlines (text : String) : parse text o = parseLines text o.dialect := by
        simp only [parse, hline, keep, ↓reduceIte]
        exact bind_pure _
      rw [hlines, hlines, hlines, toOption_parseLines_joined]
    | false =>
      have hdocument (text : String) : parse text o = Idl.definitions text := by
        rw [parse, if_neg (by simp [hline])]
      rw [hdocument, hdocument, hdocument]
      exact Idl.toOption_definitions_joined isSeparator_divider newline_not_mem_divider
        (toList_joined first second)
  rw [← toOption_eq_some, hparse, together_eq_some]
  simp only [toOption_eq_some]

def openComment : String := "module m \x7b struct S \x7b int8 x; \x7d; \x7d; /* \x7b"

def headedDocument : String := "IDL: n/T\r\nmodule n \x7b struct T \x7b string s; \x7d; \x7d;"

/-- A comment ends with its section. -/
theorem parse_joined_openComment :
    parse (joined openComment headedDocument) { idl := true, keepTypes := true } =
      .ok [⟨some "m/S", [.variableOf "int8" "x"]⟩, ⟨some "n/T", [.variableOf "string" "s"]⟩] :=
  (parse_joined _ rfl openComment headedDocument _).2
    ⟨[⟨some "m/S", [.variableOf "int8" "x"]⟩], [⟨some "n/T", [.variableOf "string" "s"]⟩],
      by decide +kernel, by decide +kernel, rfl⟩

end RosSchema

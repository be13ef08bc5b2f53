import RosSchema.Proofs.Canonical.Printed
import RosSchema.Proofs.Line.FieldLine

/-!
# The rows of a canonical text

The lines of a canonical text that are not empty are its rows: those of the first definition, and for
each other one a divider, a header and those of the definition. No row of a definition is a divider, so
equal canonical texts have equal rows, definition by definition.
-/

namespace RosSchema

open Line (headerLine writtenLines OneWord IsRow)

namespace Definition

/-- The canonical lines of a definition: of its constants and then of its variables. -/
def rows (d : Definition) : List (List Char) := (d.constantFields ++ d.variableFields).map Field.line

def headerRow (d : Definition) : List Char := headerLine (d.name.getD "").toList

structure InLines (read : List Char → Option String) (d : Definition) : Prop where
  field : ∀ f ∈ d.fields, f.InLine read
  name : ∀ name ∈ d.name, name ≠ "" ∧ OneWord name.toList

variable {read : List Char → Option String} {d : Definition}

theorem length_rows (d : Definition) : d.rows.length = d.fields.length := by
  rw [rows, List.length_map, List.length_append, constantFields, variableFields]
  exact (List.length_eq_length_filter_add _).symm

namespace InLines

theorem isRow_of_mem_rows (h : d.InLines read) {row : List Char} (hrow : row ∈ d.rows) : IsRow row := by
  obtain ⟨f, hf, rfl⟩ := List.mem_map.1 hrow
  exact (h.field f (mem_constantFields_append.1 hf)).isRow

theorem oneWord_name (h : d.InLines read) : OneWord (d.name.getD "").toList := by
  cases hname : d.name with
  | none => exact ⟨by decide, by decide⟩
  | some name => exact (h.name name hname).2

end InLines

end Definition

def canonicalRows : List Definition → List (List Char)
  | [] => []
  | first :: others => first.rows ++ others.flatMap fun d => divider :: d.headerRow :: d.rows

/-! ## Rows are what is printed -/

variable {read : List Char → Option String}

/-- Every line of a definition but the blank one is a row. -/
theorem filter_printed {d : Definition} (h : d.InLines read) (leading : Bool) :
    ((d.printed leading).map PrintedLine.text).filter (!·.isEmpty) = d.rows := by
  have hfields {fields : List Field} (hf : ∀ f ∈ fields, f ∈ d.fields) :
      ((fields.map PrintedLine.field).map PrintedLine.text).filter (!·.isEmpty) = fields.map Field.line := by
    rw [List.map_map]
    refine List.filter_eq_self.2 fun row hrow => ?_
    obtain ⟨f, hmem, rfl⟩ := List.mem_map.1 hrow
    have hne : f.line ≠ [] := (h.field f (hf f hmem)).isRow.ne_nil
    simpa [PrintedLine.text] using hne
  have hgap (b : Bool) :
      ((if b then [] else [PrintedLine.blank]).map PrintedLine.text).filter (!·.isEmpty) = [] := by
    cases b <;> rfl
  rw [Definition.printed, List.map_append, List.map_append, List.filter_append, List.filter_append, hgap,
    hfields fun f hf => (Definition.mem_constantFields.1 hf).1,
    hfields fun f hf => (Definition.mem_variableFields.1 hf).1, List.append_nil, Definition.rows,
    List.map_append]

theorem filter_printedHeader (d : Definition) :
    (d.printedHeader.map PrintedLine.text).filter (!·.isEmpty) = [divider, d.headerRow] := rfl

theorem filter_printedLines {defs : List Definition} (h : ∀ d ∈ defs, d.InLines read) :
    ((printedLines defs).map PrintedLine.text).filter (!·.isEmpty) = canonicalRows defs := by
  cases defs with
  | nil => rfl
  | cons first others =>
    rw [printedLines, List.map_append, List.filter_append, filter_printed (h first List.mem_cons_self),
      List.map_flatMap, List.filter_flatMap, canonicalRows]
    refine congrArg (first.rows ++ ·) (List.flatMap_congr fun d hd => ?_)
    rw [List.map_append, List.filter_append, filter_printedHeader,
      filter_printed (h d (List.mem_cons_of_mem _ hd))]
    rfl

/-- Definitions that are read from lines have canonical texts in lines. -/
theorem isLineStructured_of_inLines {defs : List Definition} (h : ∀ d ∈ defs, d.InLines read) :
    IsLineStructured defs :=
  (isLineStructured_of_name fun d hd => (h d hd).oneWord_name.2).2 fun d hd f hf =>
    ((h d hd).field f hf).isRow.newline

theorem writtenLines_canonical {defs : List Definition} (h : ∀ d ∈ defs, d.InLines read) :
    writtenLines (canonical defs).toList = canonicalRows defs := by
  rw [writtenLines, isLineStructured_of_inLines h, List.filter_append, filter_printedLines h]
  exact List.append_nil _

/-! ## Rows that are told apart -/

theorem headerRow_ne_divider (d : Definition) : d.headerRow ≠ divider := by
  intro heq
  exact absurd (List.cons.inj heq).1 (by decide)

/-- The rows of the definitions stand between the dividers. -/
theorem splitOnP_canonicalRows {first : Definition} {others : List Definition}
    (h : ∀ d ∈ first :: others, d.InLines read) :
    (canonicalRows (first :: others)).splitOnP (· == divider) =
      first.rows :: others.map fun d => d.headerRow :: d.rows := by
  have hrows : ∀ d ∈ first :: others, ∀ row ∈ d.rows, (row == divider) = false := by
    intro d hd row hrow
    exact beq_eq_false_iff_ne.2 ((h d hd).isRow_of_mem_rows hrow).ne_divider
  have hall : ∀ d ∈ others, ∀ row ∈ d.headerRow :: d.rows, (row == divider) = false := by
    intro d hd row hrow
    rcases List.mem_cons.1 hrow with rfl | hrow
    · exact beq_eq_false_iff_ne.2 (headerRow_ne_divider d)
    · exact hrows d (List.mem_cons_of_mem _ hd) row hrow
  rw [canonicalRows, Line.splitOnP_append_flatMap (p := (· == divider)) (beq_self_eq_true divider) _ _ _ hall,
    List.splitOnP_eq_singleton (hrows first List.mem_cons_self)]
  rfl

theorem headerRow_inj {d e : Definition} (h : d.headerRow = e.headerRow) : d.name.getD "" = e.name.getD "" :=
  String.toList_inj.1 (List.append_cancel_left h)

/-- Equal canonical texts have the same rows under the same names. -/
theorem rows_eq_of_canonical_eq {first first' : Definition} {others others' : List Definition}
    (h : ∀ d ∈ first :: others, d.InLines read) (h' : ∀ d ∈ first' :: others', d.InLines read)
    (heq : canonical (first :: others) = canonical (first' :: others')) :
    first.rows = first'.rows ∧ List.Forall₂ (fun d e => d.name.getD "" = e.name.getD "" ∧ d.rows = e.rows)
      others others' := by
  have hrows : canonicalRows (first :: others) = canonicalRows (first' :: others') := by
    rw [← writtenLines_canonical h, ← writtenLines_canonical h', heq]
  have hsplit := congrArg (List.splitOnP (· == divider)) hrows
  rw [splitOnP_canonicalRows h, splitOnP_canonicalRows h'] at hsplit
  obtain ⟨hfirst, hothers⟩ := List.cons.inj hsplit
  refine ⟨hfirst, ?_⟩
  refine (Steps.map_eq_map_iff.1 hothers).imp fun d e hde => ?_
  obtain ⟨hheader, hrest⟩ := List.cons.inj hde
  exact ⟨headerRow_inj hheader, hrest⟩

end RosSchema

import RosSchema.Canonical
import RosSchema.Proofs.Line.Header

/-!
# The lines of a canonical text

A canonical text is printed in lines: one for each field, and besides these only blank lines, dividers
and headers. They are found again where the text is split at its line ends, unless one of them has a line
end inside.
-/

namespace RosSchema

open Line (headerLine)

/-! ## Fields by their kind -/

namespace Definition

variable {d : Definition}

theorem mem_constantFields {f : Field} : f ∈ d.constantFields ↔ f ∈ d.fields ∧ f.isConstant = true :=
  List.mem_filter

theorem mem_variableFields {f : Field} : f ∈ d.variableFields ↔ f ∈ d.fields ∧ f.isConstant = false := by
  rw [variableFields, List.mem_filter, Bool.not_eq_true']

/-- Constants and variables are all fields. -/
theorem mem_constantFields_append {f : Field} : f ∈ d.constantFields ++ d.variableFields ↔ f ∈ d.fields := by
  rw [List.mem_append, mem_constantFields, mem_variableFields, ← and_or_left]
  exact and_iff_left_of_imp fun _ => by cases f.isConstant <;> simp

end Definition

/-! ## Printed lines -/

inductive PrintedLine where
  | blank
  | divider
  | header (name : Option String)
  | field (f : Field)

namespace PrintedLine

def text : PrintedLine → List Char
  | blank => []
  | divider => RosSchema.divider
  | header name => headerLine (name.getD "").toList
  | field f => f.line

def field? : PrintedLine → Option Field
  | field f => some f
  | _ => none

end PrintedLine

namespace Definition

/-- The lines of a definition: its constants, and after a blank line its variables. There is no blank
line where the text would start with it. -/
def printed (leading : Bool) (d : Definition) : List PrintedLine :=
  d.constantFields.map .field ++
    (if d.variableFields.isEmpty || (leading && d.constantFields.isEmpty) then [] else [.blank]) ++
    d.variableFields.map .field

def printedHeader (d : Definition) : List PrintedLine := [.blank, .divider, .header d.name]

end Definition

def printedLines : List Definition → List PrintedLine
  | [] => []
  | first :: others =>
    first.printed true ++ others.flatMap fun d => d.printedHeader ++ d.printed false

def linesText (printed : List PrintedLine) : List Char := printed.flatMap fun line => line.text ++ ['\n']

@[simp] theorem linesText_append (as bs : List PrintedLine) :
    linesText (as ++ bs) = linesText as ++ linesText bs :=
  List.flatMap_append

theorem linesText_map_field (fields : List Field) :
    linesText (fields.map .field) = Definition.fieldLines fields := by
  rw [linesText, List.flatMap_map]
  rfl

theorem linesText_printed (leading : Bool) (d : Definition) :
    linesText (d.printed leading) = d.body leading := by
  rw [Definition.printed, Definition.body, linesText_append, linesText_append, linesText_map_field,
    linesText_map_field]
  split <;> rfl

theorem linesText_printedHeader (d : Definition) : linesText d.printedHeader = d.header := by
  change [] ++ ['\n'] ++ (divider ++ ['\n'] ++ ("MSG: ".toList ++ (d.name.getD "").toList ++ ['\n'] ++ [])) =
    '\n' :: divider ++ '\n' :: "MSG: ".toList ++ (d.name.getD "").toList ++ ['\n']
  simp only [List.nil_append, List.cons_append, List.append_assoc, List.append_nil]

/-- The canonical text is its lines with their ends. -/
theorem linesText_printedLines (defs : List Definition) :
    linesText (printedLines defs) = canonicalText defs := by
  cases defs with
  | nil => rfl
  | cons first others =>
    have hothers : linesText (others.flatMap fun d => d.printedHeader ++ d.printed false) =
        others.flatMap fun d => d.header ++ d.body false := by
      rw [linesText, List.flatMap_assoc]
      refine congrArg (others.flatMap ·) (funext fun d => ?_)
      rw [← linesText_printedHeader, ← linesText_printed, ← linesText_append]
      rfl
    rw [printedLines, canonicalText, linesText_append, linesText_printed, hothers]

theorem filterMap_map_field (fields : List Field) :
    (fields.map PrintedLine.field).filterMap PrintedLine.field? = fields := by
  rw [List.filterMap_map]
  exact List.filterMap_some

theorem filterMap_printed (leading : Bool) (d : Definition) :
    (d.printed leading).filterMap PrintedLine.field? = d.constantFields ++ d.variableFields := by
  have hgap (b : Bool) : (if b then [] else [PrintedLine.blank]).filterMap PrintedLine.field? = [] := by
    cases b <;> rfl
  rw [Definition.printed, List.filterMap_append, List.filterMap_append, hgap, filterMap_map_field,
    filterMap_map_field, List.append_nil]

/-- Every field of every definition has one line, constants before variables. -/
theorem filterMap_printedLines (defs : List Definition) : (printedLines defs).filterMap PrintedLine.field? =
    defs.flatMap fun d => d.constantFields ++ d.variableFields := by
  cases defs with
  | nil => rfl
  | cons first others =>
    rw [printedLines, List.filterMap_append, filterMap_printed, List.filterMap_flatMap]
    simp only [List.filterMap_append, filterMap_printed]
    rfl

theorem mem_printedLines_of_field {defs : List Definition} {d : Definition} (hd : d ∈ defs) {f : Field}
    (hf : f ∈ d.fields) : .field f ∈ printedLines defs := by
  have hmem : f ∈ (printedLines defs).filterMap PrintedLine.field? := by
    rw [filterMap_printedLines]
    exact List.mem_flatMap.2 ⟨d, hd, Definition.mem_constantFields_append.2 hf⟩
  obtain ⟨line, hline, hfield⟩ := List.mem_filterMap.1 hmem
  cases line with
  | field g => exact Option.some.inj hfield ▸ hline
  | _ => cases hfield

theorem mem_of_mem_printed {leading : Bool} {d : Definition} {line : PrintedLine}
    (h : line ∈ d.printed leading) : line = .blank ∨ ∃ f ∈ d.fields, line = .field f := by
  rw [Definition.printed] at h
  rcases List.mem_append.1 h with h | h
  · rcases List.mem_append.1 h with h | h
    · obtain ⟨f, hf, rfl⟩ := List.mem_map.1 h
      exact .inr ⟨f, (Definition.mem_constantFields.1 hf).1, rfl⟩
    · split at h
      · cases h
      · exact .inl (List.mem_singleton.1 h)
  · obtain ⟨f, hf, rfl⟩ := List.mem_map.1 h
    exact .inr ⟨f, (Definition.mem_variableFields.1 hf).1, rfl⟩

/-- The lines are those of fields, the headers of definitions, dividers and blank ones. -/
theorem mem_printedLines {defs : List Definition} {line : PrintedLine} (h : line ∈ printedLines defs) :
    line = .blank ∨ line = .divider ∨ ∃ d ∈ defs, line = .header d.name ∨ ∃ f ∈ d.fields, line = .field f := by
  cases defs with
  | nil => cases h
  | cons first others =>
    rw [printedLines] at h
    rcases List.mem_append.1 h with h | h
    · rcases mem_of_mem_printed h with hblank | hfield
      · exact .inl hblank
      · exact .inr (.inr ⟨first, List.mem_cons_self, .inr hfield⟩)
    · obtain ⟨d, hd, h⟩ := List.mem_flatMap.1 h
      have hmem : d ∈ first :: others := List.mem_cons_of_mem _ hd
      rcases List.mem_append.1 h with h | h
      · simp only [Definition.printedHeader, List.mem_cons, List.not_mem_nil, or_false] at h
        rcases h with rfl | rfl | rfl
        · exact .inl rfl
        · exact .inr (.inl rfl)
        · exact .inr (.inr ⟨d, hmem, .inl rfl⟩)
      · rcases mem_of_mem_printed h with hblank | hfield
        · exact .inl hblank
        · exact .inr (.inr ⟨d, hmem, .inr hfield⟩)

/-! ## Texts split at their line ends -/

/-- Lines are found again in the text that has them exactly when none has a line end inside. -/
theorem splitOn_linesText_iff {printed : List PrintedLine} :
    (linesText printed).splitOn '\n' = printed.map PrintedLine.text ++ [[]] ↔
      ∀ line ∈ printed, '\n' ∉ line.text := by
  constructor
  · intro h line hline
    have hmem : line.text ∈ (linesText printed).splitOn '\n' := by
      rw [h]
      exact List.mem_append_left _ (List.mem_map_of_mem hline)
    exact Line.not_mem_of_mem_splitOn hmem
  · intro h
    have happend (as bs : List Char) :
        (as ++ '\n' :: bs).splitOn '\n' = as.splitOn '\n' ++ bs.splitOn '\n' :=
      List.splitOn_append_cons_self ..
    have hsplit := @Line.pieces_flatMap (List.splitOn '\n') happend _ PrintedLine.text printed []
    have hone : printed.flatMap (List.splitOn '\n' ∘ PrintedLine.text) =
        printed.flatMap fun line => [line.text] :=
      List.flatMap_congr fun line hline => List.splitOn_eq_singleton (h line hline)
    rw [List.append_nil, List.splitOn_nil, hone, ← List.map_eq_flatMap] at hsplit
    exact hsplit

/-! ## The lines of definitions -/

/-- The canonical text is its printed lines, each with an end, and they are found again between the line
ends. -/
def IsLineStructured (defs : List Definition) : Prop :=
  (canonical defs).toList.splitOn '\n' = (printedLines defs).map PrintedLine.text ++ [[]]

instance (defs : List Definition) : Decidable (IsLineStructured defs) :=
  inferInstanceAs (Decidable ((canonical defs).toList.splitOn '\n' =
    (printedLines defs).map PrintedLine.text ++ [[]]))

/-- Headers and lines of fields are all that can have a line end inside. -/
theorem isLineStructured_of_name {defs : List Definition}
    (hname : ∀ d ∈ defs, '\n' ∉ (d.name.getD "").toList) :
    IsLineStructured defs ↔ ∀ d ∈ defs, ∀ f ∈ d.fields, '\n' ∉ f.line := by
  rw [IsLineStructured, canonical, String.toList_ofList, ← linesText_printedLines, splitOn_linesText_iff]
  constructor
  · intro h d hd f hf
    exact h (.field f) (mem_printedLines_of_field hd hf)
  · intro h line hline
    rcases mem_printedLines hline with rfl | rfl | ⟨d, hd, rfl | ⟨f, hf, rfl⟩⟩
    · exact List.not_mem_nil
    · exact fun hm => absurd (List.eq_of_mem_replicate hm) (by decide)
    · intro hm
      rcases List.mem_append.1 hm with hm | hm
      · exact absurd hm (by decide)
      · exact hname d hd hm
    · exact h d hd f hf

end RosSchema

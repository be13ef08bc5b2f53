import RosSchema.Proofs.Canonical.Rows
import RosSchema.Proofs.Line.Separation

/-!
# Canonical texts read again

A grammar reads a canonical text row by row. If it reads every row of a definition as the normal form of
its field and every header as the name that it was written for, it reads the normal form of the
definitions. If it finds as many fields as the text has rows of them, all these rows are lines of fields.
-/

namespace RosSchema

open Line (Grammar headerMark lines isMeaningful isDivider blocks)
open Text (trim Trimmed)

/-! ## What is read from a text -/

namespace Line.Grammar

/-- Every field was read from a line of its text, and every name from one of its headers. -/
theorem exists_line_of_definitions {g : Grammar} {text : String} {defs : List Definition}
    (h : g.definitions text = .ok defs) {d : Definition} (hd : d ∈ defs) :
    (∀ f ∈ d.fields, ∃ line, Trimmed line ∧ '\n' ∉ line ∧ g.field line = .ok f) ∧
      ∀ name ∈ d.name, ∃ line, '\n' ∉ line ∧ g.header? line = some (some name) := by
  obtain ⟨block, hblock, hdef⟩ := Steps.exists_of_mem_right (Steps.mapM_eq_ok_iff.1 h) hd
  have hline {line : List Char} (hm : line ∈ block) : line ∈ lines text.toList :=
    mem_of_mem_splitOnP hblock hm
  obtain ⟨hname, hfields⟩ := definition_eq_ok.1 hdef
  constructor
  · intro f hf
    obtain ⟨line, hm, hread⟩ := Steps.exists_of_mem_right hfields hf
    have hmem := hline (List.mem_filter.1 hm).1
    exact ⟨line, trimmed_of_mem_lines hmem, newline_not_mem_of_mem_lines hmem, hread⟩
  · intro name hmem
    rw [hname, Option.mem_def, Option.join_eq_some_iff] at hmem
    obtain ⟨line, hm, hheader⟩ := List.mem_filterMap.1 (List.mem_of_getLast? hmem)
    exact ⟨line, newline_not_mem_of_mem_lines (hline hm), hheader⟩

end Line.Grammar

/-! ## Rows read again -/

variable {g : Grammar} {read : List Char → Option String} {first : Definition} {others : List Definition}

theorem trim_divider : trim divider = divider := by decide

theorem headerMark_trim_headerRow (d : Definition) : headerMark <+: trim d.headerRow :=
  ⟨_, (Line.Ros2.trim_headerLine _).symm⟩

theorem isMeaningful_of_headerMark {line : List Char} (h : headerMark <+: line) :
    isMeaningful line = true ∧ isDivider line = false := by
  obtain ⟨rest, rfl⟩ := h
  exact ⟨rfl, rfl⟩

/-- The lines that count of a canonical text. -/
theorem lines_canonical {defs : List Definition} (h : ∀ d ∈ defs, d.InLines read) :
    lines (canonical defs).toList = ((canonicalRows defs).map trim).filter isMeaningful := by
  rw [Line.lines_eq, writtenLines_canonical h]

/-- The blocks of a canonical text are those of its definitions, if the rows of these are lines of
fields. -/
theorem blocks_canonical (h : ∀ d ∈ first :: others, d.InLines read)
    (hrows : ∀ d ∈ first :: others, ∀ row ∈ d.rows, g.isFieldLine (trim row) = true) :
    blocks (canonical (first :: others)) =
      first.rows.map trim :: others.map fun d => trim d.headerRow :: d.rows.map trim := by
  have hfield {line : List Char} (hline : g.isFieldLine line = true) :
      isMeaningful line = true ∧ isDivider line = false := by
    simp only [Grammar.isFieldLine, Bool.and_eq_true, Bool.not_eq_true'] at hline
    exact ⟨hline.1, hline.2.1⟩
  have hmap : (canonicalRows (first :: others)).map trim = first.rows.map trim ++
      others.flatMap fun d => divider :: (trim d.headerRow :: d.rows.map trim) := by
    rw [canonicalRows, List.map_append, List.map_flatMap]
    simp only [List.map_cons, trim_divider]
  have hmeaningful : ∀ line ∈ (canonicalRows (first :: others)).map trim, isMeaningful line = true := by
    intro line hline
    rw [hmap] at hline
    rcases List.mem_append.1 hline with hline | hline
    · obtain ⟨row, hrow, rfl⟩ := List.mem_map.1 hline
      exact (hfield (hrows first List.mem_cons_self row hrow)).1
    · obtain ⟨d, hd, hline⟩ := List.mem_flatMap.1 hline
      rcases List.mem_cons.1 hline with rfl | hline
      · decide
      rcases List.mem_cons.1 hline with rfl | hline
      · exact (isMeaningful_of_headerMark (headerMark_trim_headerRow d)).1
      · obtain ⟨row, hrow, rfl⟩ := List.mem_map.1 hline
        exact (hfield (hrows d (List.mem_cons_of_mem _ hd) row hrow)).1
  rw [Line.blocks_eq, lines_canonical h, List.filter_eq_self.2 hmeaningful, hmap,
    Line.splitOnP_append_flatMap (p := isDivider) (by decide)]
  · rw [List.splitOnP_eq_singleton, List.singleton_append]
    intro line hline
    obtain ⟨row, hrow, rfl⟩ := List.mem_map.1 hline
    exact (hfield (hrows first List.mem_cons_self row hrow)).2
  · intro d hd line hline
    rcases List.mem_cons.1 hline with rfl | hline
    · exact (isMeaningful_of_headerMark (headerMark_trim_headerRow d)).2
    · obtain ⟨row, hrow, rfl⟩ := List.mem_map.1 hline
      exact (hfield (hrows d (List.mem_cons_of_mem _ hd) row hrow)).2

/-- The rows of a definition are read as the fields of another one. -/
def Line.Grammar.Reads (g : Grammar) (d e : Definition) : Prop :=
  List.Forall₂ (fun f f' => g.field (trim f.line) = .ok f') (d.constantFields ++ d.variableFields) e.fields

section Rows

variable {d e : Definition}

theorem header?_of_rows (hrows : ∀ row ∈ d.rows, g.isFieldLine (trim row) = true) :
    ∀ line ∈ d.rows.map trim, g.header? line = none := by
  intro line hline
  obtain ⟨row, hrow, rfl⟩ := List.mem_map.1 hline
  have hfield := hrows row hrow
  simp only [Grammar.isFieldLine, Bool.and_eq_true, Option.isNone_iff_eq_none] at hfield
  exact hfield.2.2

/-- From rows that are lines of fields a definition without a name is read. -/
theorem definition_rows_eq_ok (hrows : ∀ row ∈ d.rows, g.isFieldLine (trim row) = true) :
    g.definition (d.rows.map trim) = .ok e ↔ e.name = none ∧ g.Reads d e := by
  have hnone := header?_of_rows hrows
  rw [Grammar.definition_eq_ok, List.filterMap_eq_nil_iff.2 hnone,
    List.filter_eq_self.2 fun line hline => by rw [hnone line hline]; rfl, Definition.rows,
    List.forall₂_map_left_iff, List.forall₂_map_left_iff]
  rfl

/-- After its header one with the name that the header gives is read. A line with the mark of headers
that is no header is not read as a field either. -/
theorem definition_headerRow_eq_ok (sep : g.Separates)
    (hrows : ∀ row ∈ d.rows, g.isFieldLine (trim row) = true) :
    g.definition (trim d.headerRow :: d.rows.map trim) = .ok e ↔
      g.header? (trim d.headerRow) = some e.name ∧ g.Reads d e := by
  have hnil := List.filterMap_eq_nil_iff.2 (header?_of_rows hrows)
  cases hheader : g.header? (trim d.headerRow) with
  | none =>
    simp only [reduceCtorEq, false_and, iff_false]
    intro h
    obtain ⟨-, hfields⟩ := Grammar.definition_eq_ok.1 h
    rw [List.filter_cons_of_pos (by simp [hheader])] at hfields
    obtain ⟨f, -, hf, -⟩ := List.forall₂_cons_left_iff.1 hfields
    exact sep.header (headerMark_trim_headerRow d) hf
  | some given =>
    have hrest := definition_rows_eq_ok (e := ⟨none, e.fields⟩) hrows
    rw [Grammar.definition_eq_ok, hnil] at hrest
    rw [Grammar.definition_eq_ok, List.filterMap_cons_some hheader, hnil,
      List.filter_cons_of_neg (by simp [hheader])]
    exact and_congr ⟨fun h => congrArg some h.symm, fun h => (Option.some.inj h).symm⟩
      ⟨fun h => (hrest.1 ⟨rfl, h⟩).2, fun h => (hrest.2 ⟨rfl, h⟩).2⟩

end Rows

/-- What is read from a canonical text whose rows are lines of fields has the names that its headers give
and the fields that its rows are read as. -/
theorem definitions_canonical_eq_ok (sep : g.Separates) (h : ∀ d ∈ first :: others, d.InLines read)
    (hrows : ∀ d ∈ first :: others, ∀ row ∈ d.rows, g.isFieldLine (trim row) = true)
    {again : List Definition} :
    g.definitions (canonical (first :: others)) = .ok again ↔ ∃ first' others', again = first' :: others' ∧
      (first'.name = none ∧ g.Reads first first') ∧
      List.Forall₂ (fun d e => g.header? (trim d.headerRow) = some e.name ∧ g.Reads d e) others others' := by
  have hothers (others' : List Definition) : List.Forall₂ (fun block e => g.definition block = .ok e)
      (others.map fun d => trim d.headerRow :: d.rows.map trim) others' ↔
      List.Forall₂ (fun d e => g.header? (trim d.headerRow) = some e.name ∧ g.Reads d e) others others' := by
    rw [List.forall₂_map_left_iff]
    have hd {d e : Definition} (hmem : (d, e) ∈ others.zip others') :=
      definition_headerRow_eq_ok (e := e) sep (hrows d (List.mem_cons_of_mem _ (List.of_mem_zip hmem).1))
    rw [List.forall₂_iff_zip, List.forall₂_iff_zip]
    exact and_congr_right fun _ => ⟨fun hall _ _ hmem => (hd hmem).1 (hall hmem),
      fun hall _ _ hmem => (hd hmem).2 (hall hmem)⟩
  rw [Grammar.definitions, Steps.mapM_eq_ok_iff, blocks_canonical h hrows, List.forall₂_cons_left_iff]
  simp only [definition_rows_eq_ok (hrows first List.mem_cons_self), hothers]
  exact exists_congr fun first' => exists_congr fun others' => by rw [← and_assoc, and_comm]

/-- What is read from a canonical text whose headers and rows are read as they were written is the normal
form of its definitions. -/
theorem definitions_canonical (sep : g.Separates) (h : ∀ d ∈ first :: others, d.InLines read)
    (hheader : ∀ d ∈ others, g.header? (trim d.headerRow) = some d.name)
    (hfield : ∀ d ∈ first :: others, ∀ f ∈ d.fields, g.field (trim f.line) = .ok f.normal) :
    g.definitions (canonical (first :: others)) = .ok (normalForm (first :: others)) := by
  have hrow : ∀ d ∈ first :: others, ∀ row ∈ d.rows, g.isFieldLine (trim row) = true := by
    intro d hd row hrow
    obtain ⟨f, hf, rfl⟩ := List.mem_map.1 hrow
    exact sep.field (hfield d hd f (Definition.mem_constantFields_append.1 hf))
  have hreads (d : Definition) (hd : d ∈ first :: others) (name : Option String) :
      g.Reads d ⟨name, d.normal.fields⟩ := by
    rw [Grammar.Reads, Definition.normal, List.forall₂_map_right_iff, List.forall₂_same]
    exact fun f hf => hfield d hd f (Definition.mem_constantFields_append.1 hf)
  refine (definitions_canonical_eq_ok sep h hrow).2
    ⟨_, _, rfl, ⟨rfl, hreads first List.mem_cons_self none⟩, ?_⟩
  rw [List.forall₂_map_right_iff, List.forall₂_same]
  exact fun d hd => ⟨hheader d hd, hreads d (List.mem_cons_of_mem _ hd) d.name⟩

/-! ## Rows counted -/

/-- A row of a canonical text that is read and that is a line of a field is read as one. -/
theorem exists_field_of_row (h : ∀ d ∈ first :: others, d.InLines read) {again : List Definition}
    (hread : g.definitions (canonical (first :: others)) = .ok again) {row : List Char}
    (hrow : row ∈ canonicalRows (first :: others)) (hline : g.isFieldLine (trim row) = true) :
    ∃ e, g.field (trim row) = .ok e := by
  simp only [Grammar.isFieldLine, Bool.and_eq_true] at hline
  have hmem : trim row ∈ ((lines (canonical (first :: others)).toList).filter
      (!isDivider ·)).filter fun line => (g.header? line).isNone := by
    rw [lines_canonical h, List.mem_filter, List.mem_filter, List.mem_filter]
    exact ⟨⟨⟨List.mem_map_of_mem hrow, hline.1⟩, hline.2.1⟩, hline.2.2⟩
  obtain ⟨e, -, he⟩ := Steps.exists_of_mem_left (Grammar.fields_of_definitions hread) hmem
  exact ⟨e, he⟩

/-- The lines of fields in a canonical text are among its rows. -/
theorem countP_canonicalRows (sep : g.Separates) (h : ∀ d ∈ first :: others, d.InLines read)
    {again : List Definition} (hread : g.definitions (canonical (first :: others)) = .ok again) :
    (again.flatMap (·.fields)).length =
      ((first :: others).flatMap Definition.rows).countP fun row => g.isFieldLine (trim row) := by
  -- a header that is none cannot be read as a field either
  have hheader : ∀ d ∈ others, g.isFieldLine (trim d.headerRow) = false := by
    intro d hd
    by_contra hline
    rw [Bool.not_eq_false] at hline
    have hrow : d.headerRow ∈ canonicalRows (first :: others) :=
      List.mem_append_right _ (List.mem_flatMap.2 ⟨d, hd, by simp⟩)
    obtain ⟨f, hf⟩ := exists_field_of_row h hread hrow hline
    exact sep.header (headerMark_trim_headerRow d) hf
  have hdivider : g.isFieldLine (trim divider) = false := by
    rw [trim_divider, Grammar.isFieldLine, show isDivider divider = true by decide]
    simp
  have hcount : (others.flatMap fun d => divider :: d.headerRow :: d.rows).countP
      (fun row => g.isFieldLine (trim row)) =
      (others.flatMap Definition.rows).countP fun row => g.isFieldLine (trim row) := by
    clear h hread
    induction others with
    | nil => rfl
    | cons d others ih =>
      have hd := hheader d List.mem_cons_self
      rw [List.flatMap_cons, List.flatMap_cons, List.countP_append, List.countP_append,
        List.countP_cons_of_neg (by simp [hdivider]), List.countP_cons_of_neg (by simp [hd]),
        ih fun e he => hheader e (List.mem_cons_of_mem _ he)]
  rw [← (Grammar.fields_of_definitions hread).length_eq, lines_canonical h, List.filter_filter,
    List.filter_filter, List.filter_map, List.length_map, ← List.countP_eq_length_filter, canonicalRows,
    List.countP_append, List.flatMap_cons, List.countP_append, ← hcount]
  have hsame : ((fun line => ((g.header? line).isNone && !isDivider line) && isMeaningful line) ∘ trim) =
      fun row => g.isFieldLine (trim row) := by
    funext row
    simp only [Function.comp_apply, Grammar.isFieldLine]
    cases (g.header? (trim row)).isNone <;> cases isDivider (trim row) <;>
      cases isMeaningful (trim row) <;> rfl
  rw [hsame]

/-- If as many fields are read from a canonical text as it was written for, all its rows of fields are
lines of fields. -/
theorem isFieldLine_of_length (sep : g.Separates) (h : ∀ d ∈ first :: others, d.InLines read)
    {again : List Definition} (hread : g.definitions (canonical (first :: others)) = .ok again)
    (hlength : (again.flatMap (·.fields)).length = ((first :: others).flatMap (·.fields)).length) :
    ∀ d ∈ first :: others, ∀ row ∈ d.rows, g.isFieldLine (trim row) = true := by
  have hcount := countP_canonicalRows sep h hread
  have hrows : ((first :: others).flatMap Definition.rows).length =
      ((first :: others).flatMap (·.fields)).length := by
    simp only [List.length_flatMap, Definition.length_rows]
  rw [hlength, ← hrows, eq_comm, List.countP_eq_length] at hcount
  exact fun d hd row hrow => hcount row (List.mem_flatMap.2 ⟨d, hd, hrow⟩)

end RosSchema

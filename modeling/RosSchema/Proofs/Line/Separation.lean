import RosSchema.Proofs.Line.DerivedLine
import RosSchema.Proofs.Line.Header

/-!
# Lines of fields, dividers and headers

A line that is read as a field counts, and it is neither a divider nor a header. No line with the mark of
headers is read as a field, not even one that is no header.
-/

namespace RosSchema.Line

open RosSchema.Text (trimLeft isBlank)
open Ros2 (isTypePart)

namespace Grammar

def isFieldLine (g : Grammar) (line : List Char) : Bool :=
  isMeaningful line && (!isDivider line && (g.header? line).isNone)

/-- What is read as a field counts and is neither a divider nor a header. -/
structure Separates (g : Grammar) : Prop where
  field : ∀ {line : List Char} {f : Field}, g.field line = .ok f → g.isFieldLine line = true
  header : ∀ {line : List Char} {f : Field}, headerMark <+: line → g.field line ≠ .ok f

end Grammar

/-- The mark of headers is no more than a type name and a colon. -/
theorem dropWhile_headerMark {line : List Char} (h : headerMark <+: line) :
    ∃ rest, line.dropWhile isTypePart = ':' :: rest := by
  obtain ⟨rest, rfl⟩ := h
  have hword : ∀ c ∈ ['M', 'S', 'G'], isTypePart c = true := List.all_eq_true.1 (by decide)
  have hsplit : headerMark ++ rest = ['M', 'S', 'G'] ++ ':' :: rest := rfl
  refine ⟨rest, ?_⟩
  rw [hsplit, List.dropWhile_append_of_pos hword, List.dropWhile_cons_of_neg (by decide)]

/-- A line that starts with a type counts and is no divider. -/
theorem isMeaningful_of_isTypePart {c : Char} (hc : isTypePart c = true) (rest : List Char) :
    isMeaningful (c :: rest) = true ∧ isDivider (c :: rest) = false := by
  have hmark : c ≠ '#' := by
    rintro rfl
    exact absurd hc (by decide)
  have hsign : '=' ≠ c := by
    rintro rfl
    exact absurd hc (by decide)
  have htrim : trimLeft (c :: rest) = c :: rest :=
    Text.trimLeft_of_head (by
      rintro d ⟨⟩
      exact Ros2.isBlank_eq_false_of_isTypePart hc)
  refine ⟨by simp [isMeaningful, hmark], ?_⟩
  rw [isDivider, htrim]
  simp [List.isPrefixOf, hsign]

/-- A trimmed line that starts with a type and is no header is the only field of its text. -/
theorem Grammar.definitions_of_line (g : Grammar) {c : Char} {rest : List Char}
    (hc : isTypePart c = true) (hline : '\n' ∉ c :: rest)
    (hlast : ∀ d ∈ (c :: rest).getLast?, isBlank d = false) (hheader : g.header? (c :: rest) = none) :
    g.definitions (String.ofList (c :: rest)) =
      (g.field (c :: rest)).map fun f => [⟨none, [f]⟩] := by
  obtain ⟨hmeaningful, hdivider⟩ := isMeaningful_of_isTypePart hc rest
  have htrimmed : Text.Trimmed (c :: rest) :=
    ⟨by simpa using Ros2.isBlank_eq_false_of_isTypePart hc, hlast⟩
  have hblocks : blocks (String.ofList (c :: rest)) = [[c :: rest]] := by
    rw [blocks_eq, String.toList_ofList, lines_of_not_mem hline, htrimmed.trim_eq, if_pos hmeaningful]
    exact List.splitOnP_eq_singleton (by simpa using hdivider)
  rw [Grammar.definitions, hblocks]
  simp only [List.mapM_cons, List.mapM_nil, Grammar.definition, List.filter_cons, hheader,
    Option.isNone_none, ↓reduceIte, List.filter_nil, List.filterMap_cons, List.filterMap_nil,
    List.getLast?_nil, Option.join_none]
  cases g.field (c :: rest) <;> rfl

namespace Ros2

open Reader

/-- A line with a type, the marks after it and a gap has no mark of headers. -/
theorem not_headerMark_append {type gap : List Char} (htype : Word isTypePart type)
    (hgap : Word isBlank gap) (bound : Option (List Char)) (array : Option (ArrayMark (List Char)))
    (rest : List Char) :
    ¬ headerMark <+: type ++ (boundText bound ++ (markText array ++ (gap ++ rest))) := by
  intro hmark
  obtain ⟨g, gs, rfl, hg⟩ := hgap.exists_cons
  obtain ⟨tail, hdrop⟩ := dropWhile_headerMark hmark
  have hafter : ∀ c ∈ (boundText bound ++ (markText array ++ (g :: gs ++ rest))).head?,
      c = '<' ∨ c = '[' ∨ isBlank c = true := by
    cases bound with
    | none =>
      intro c hc
      rcases head?_markText_append array g (gs ++ rest) c hc with rfl | rfl
      · exact .inr (.inl rfl)
      · exact .inr (.inr hg)
    | some digits =>
      rintro c ⟨⟩
      exact .inl rfl
  rw [List.dropWhile_append_of_pos htype.all] at hdrop
  generalize boundText bound ++ (markText array ++ (g :: gs ++ rest)) = after at hafter hdrop
  cases after with
  | nil => cases hdrop
  | cons c after =>
    have hc := hafter c rfl
    have hstop : isTypePart c = false := by
      rcases hc with rfl | rfl | hblank
      · decide
      · decide
      · exact isTypePart_eq_false_of_isBlank hblank
    rw [List.dropWhile_cons_of_neg (by simp [hstop])] at hdrop
    obtain rfl := (List.cons.inj hdrop).1
    exact absurd hc (by decide)

/-- No line with the mark of headers is a field. -/
theorem field_headerMark {line : List Char} {f : Field} (h : headerMark <+: line) : field line ≠ .ok f := by
  intro hf
  obtain ⟨d, hd, -⟩ := field_eq_ok.1 hf
  obtain ⟨gap, tail, w⟩ := declaration_eq_some.1 hd
  rw [w.eq] at h
  exact not_headerMark_append w.type w.gap d.bound d.array (d.name ++ tail) h

theorem isFieldLine_of_field {line : List Char} {f : Field} (h : field line = .ok f) :
    ros2.isFieldLine line = true := by
  obtain ⟨d, hd, -⟩ := field_eq_ok.1 h
  obtain ⟨gap, tail, w⟩ := declaration_eq_some.1 hd
  obtain ⟨c, cs, hcs, hc⟩ := w.type.exists_cons
  obtain ⟨rest, rfl⟩ : ∃ rest, line = c :: rest := by
    rw [w.eq, hcs]
    exact ⟨_, rfl⟩
  obtain ⟨hmeaningful, hdivider⟩ := isMeaningful_of_isTypePart hc rest
  have hheader : ros2.header? (c :: rest) = none := header?_eq_none fun hmark => field_headerMark hmark h
  simp [Grammar.isFieldLine, hmeaningful, hdivider, hheader]

end Ros2

namespace Ros1

open Reader

/-- After the type of a derivation stands an array mark or a gap. -/
theorem Derivation.Written.after_type {d : Derivation} {line : List Char} (w : d.Written line) :
    ∃ blanks rest, line = blanks ++ (d.type ++ rest) ∧ (∀ c ∈ blanks, isGap c = true) ∧
      ∀ c ∈ rest.head?, c = '[' ∨ isGap c = true := by
  obtain ⟨blanks, marks, c, rest, hline, hblanks, hc, hmarks⟩ := w.front
  refine ⟨blanks, marks ++ c :: rest, hline, hblanks, ?_⟩
  rcases hmarks with rfl | ⟨inner, rfl, -⟩
  · rintro d ⟨⟩
    exact .inr hc
  · rintro d ⟨⟩
    exact .inl rfl

/-- No line with the mark of headers is a field. -/
theorem field_headerMark {line : List Char} {f : Field} (h : headerMark <+: line) : field line ≠ .ok f := by
  intro hf
  obtain ⟨d, hd, -⟩ := field_eq_ok.1 hf
  have w := written_of_mem_derivations (hd ▸ List.mem_singleton_self d)
  obtain ⟨blanks, rest, hline, hblanks, hrest⟩ := w.after_type
  obtain ⟨tail, hdrop⟩ := dropWhile_headerMark h
  cases blanks with
  | nil =>
    rw [hline, List.nil_append, List.dropWhile_append_of_pos w.word.word.all] at hdrop
    have hcolon : ':' ∈ rest.head? := by
      cases rest with
      | nil => cases hdrop
      | cons c rest =>
        have hc : isTypePart c = false := by
          rcases hrest c rfl with rfl | hgap
          · decide
          · exact Ros2.isTypePart_eq_false_of_isBlank (isBlank_of_isGap hgap)
        rw [List.dropWhile_cons_of_neg (by simp [hc])] at hdrop
        rw [(List.cons.inj hdrop).1]
        rfl
    exact absurd (hrest ':' hcolon) (by decide)
  | cons c blanks =>
    obtain ⟨rest', rfl⟩ := h
    obtain ⟨rfl, -⟩ := List.cons.inj hline
    exact absurd (hblanks _ List.mem_cons_self) (by decide)

theorem isFieldLine_of_field {line : List Char} {f : Field} (h : field line = .ok f) :
    ros1.isFieldLine line = true := by
  obtain ⟨d, hd, -⟩ := field_eq_ok.1 h
  have w := written_of_mem_derivations (hd ▸ List.mem_singleton_self d)
  obtain ⟨blanks, rest, hline, hblanks, -⟩ := w.after_type
  obtain ⟨c, tail, hcons, hc⟩ := w.word.word.exists_cons
  have hheader : ros1.header? line = none := header?_eq_none fun hmark => field_headerMark hmark h
  obtain ⟨hmeaningful, hdivider⟩ := isMeaningful_of_isTypePart hc (tail ++ rest)
  -- gaps in front of the type change neither
  have hmeaningful' : isMeaningful line = true := by
    cases blanks with
    | nil =>
      rw [hline, hcons]
      exact hmeaningful
    | cons b blanks =>
      have hb : b ≠ '#' := by
        rintro rfl
        exact absurd (hblanks _ List.mem_cons_self) (by decide)
      rw [hline]
      simp [isMeaningful, hb]
  have hdivider' : isDivider line = false := by
    have htrim : trimLeft line = trimLeft (c :: (tail ++ rest)) := by
      rw [hline, hcons, Text.trimLeft_append fun b hb => isBlank_of_isGap (hblanks b hb)]
      rfl
    rw [isDivider, htrim]
    exact hdivider
  simp [Grammar.isFieldLine, hmeaningful', hdivider', hheader]

end Ros1

theorem separates_ros1 : ros1.Separates := ⟨Ros1.isFieldLine_of_field, Ros1.field_headerMark⟩

theorem separates_ros2 : ros2.Separates := ⟨Ros2.isFieldLine_of_field, Ros2.field_headerMark⟩

end RosSchema.Line

import RosSchema.Proofs.Line.FieldLine
import RosSchema.Proofs.Line.Unambiguous

/-!
# Lines that ROS 1 derives

A line of a word with its marks, a space and a name has one derivation: that of a variable if nothing else
follows, and that of a constant if an assignment does.
-/

namespace RosSchema.Line.Ros1

open RosSchema.Text (before)
open Reader
open Ros2 (isTypePart markText boundText)

/-! ## Derivations of canonical lines -/

section Canonical

variable {type name : List Char} {array : Option (ArrayMark Nat)}

/-- The canonical text of a mark is one of its texts. -/
theorem brackets_markText (harray : ∀ m ∈ array, IsMark m) :
    Brackets array (markText (array.map ArrayMark.digits)) := by
  rcases array with _ | m
  · exact .none
  have hm := harray m rfl
  cases m with
  | any => exact .some .any [] [] [] rfl (by simp)
  | exactly n =>
    have hcount : count64? (Numeral.ofNat n) = some n := count64?_eq_some.2 ⟨Numeral.natOfDigits_ofNat n, hm⟩
    have hmark := Brackets.some (.exactly n) [] (Numeral.ofNat n) [] ⟨Numeral.word_ofNat n, hcount⟩ (by simp)
    simpa [ArrayMark.digits, markText] using hmark
  | atMost n => exact hm.elim

theorem lineOf_array (type name : List Char) (array : Option (ArrayMark Nat)) (tail : List Char) :
    lineOf type none array name tail =
      type ++ (markText (array.map ArrayMark.digits) ++ ' ' :: (name ++ tail)) := by
  simp [lineOf, boundText]

theorem word_space : Word isGap [' '] := ⟨by simp, by simp [isGap]⟩

/-- The line of a variable has one derivation. -/
theorem derivations_variable (htype : IsWord type) (hname : isFieldName name = true)
    (harray : ∀ m ∈ array, IsMark m) : derivations (lineOf type none array name []) =
      [⟨TypeClass.ofWord type, type, array, name, none⟩] := by
  have s : Derivation.Spelled ⟨TypeClass.ofWord type, type, array, name, none⟩ []
      (markText (array.map ArrayMark.digits)) [' '] [] (lineOf type none array name []) :=
    ⟨lineOf_array type name array [], by simp, htype, brackets_markText harray, word_space,
      (isWord_of_isFieldName hname).1, .finished [] [] (by simp) (by simp)⟩
  exact derivations_spelled s ⟨rfl, nofun⟩

/-- The line of a constant has one derivation, if the class of its type has constants. -/
theorem derivations_constant (htype : IsWord type) (hname : isFieldName name = true) (text : List Char)
    (hclass : TypeClass.ofWord type ∈ [TypeClass.bool, .numeric, .string]) :
    derivations (lineOf type none none name (" = ".toList ++ text)) =
      [⟨TypeClass.ofWord type, type, none, name, some (' ' :: text)⟩] := by
  have s : Derivation.Spelled ⟨TypeClass.ofWord type, type, none, name, some (' ' :: text)⟩ [] [] [' ']
      (" = ".toList ++ text) (lineOf type none none name (" = ".toList ++ text)) :=
    ⟨lineOf_array type name none _, by simp, htype, .none, word_space, (isWord_of_isFieldName hname).1,
      .assigned [' '] (' ' :: text) word_space.all (by simp)⟩
  exact derivations_spelled s ⟨rfl, fun _ => ⟨hclass, rfl⟩⟩

end Canonical

/-! ## What derivations tell -/

/-- The text of a derived line up to the gap after its type, and the text assigned at its end. -/
structure Derivation.Written (d : Derivation) (line : List Char) : Prop where
  word : IsWord d.type
  mark : ∀ m ∈ d.array, IsMark m
  front : ∃ blanks marks c rest, line = blanks ++ (d.type ++ (marks ++ c :: rest)) ∧
    (∀ b ∈ blanks, isGap b = true) ∧ isGap c = true ∧ (marks = [] ∨
      ∃ inner, marks = '[' :: (inner ++ [']']) ∧ ∀ e ∈ inner, isGap e = true ∨ e.isDigit = true)
  assigned : ∀ raw ∈ d.assigned, raw ≠ [] ∧ raw <:+ line

theorem isMark_of_brackets {m : ArrayMark Nat} {marks : List Char} (h : Brackets (some m) marks) :
    IsMark m := by
  cases h with
  | some _ front digits back hcount =>
    cases m with
    | any => trivial
    | exactly n => exact (count64?_eq_some.1 hcount.2).2
    | atMost n => exact hcount

/-- Brackets hold nothing but digits and gaps. -/
theorem mem_brackets {array : Option (ArrayMark Nat)} {marks : List Char} (h : Brackets array marks) :
    marks = [] ∨ ∃ inner, marks = '[' :: (inner ++ [']']) ∧ ∀ c ∈ inner, isGap c = true ∨ c.isDigit = true := by
  cases h with
  | none => exact .inl rfl
  | some m front digits back hcount hgaps =>
    refine .inr ⟨front ++ (digits ++ back), rfl, fun c hc => ?_⟩
    simp only [List.mem_append] at hc hgaps
    rcases hc with hc | hc | hc
    · exact .inl (hgaps c (.inl hc))
    · exact .inr (hcount.digit c hc)
    · exact .inl (hgaps c (.inr hc))

theorem written_of_mem_derivations {line : List Char} {d : Derivation} (h : d ∈ derivations line) :
    d.Written line := by
  obtain ⟨⟨lead, marks, gap, tail, s⟩, -⟩ := spelled_of_mem_derivations h
  obtain ⟨g, gs, hg, hgap⟩ := s.gap.exists_cons
  refine ⟨s.type, ?_, ⟨lead, marks, g, gs ++ (d.name ++ tail), ?_, s.lead, hgap, mem_brackets s.marks⟩, ?_⟩
  · intro m hm
    obtain hm : d.array = some m := hm
    exact isMark_of_brackets (hm ▸ s.marks)
  · rw [s.eq, hg, List.cons_append]
  · intro raw hraw
    obtain hraw : d.assigned = some raw := hraw
    have htail := s.tail
    rw [hraw] at htail
    generalize htext : tail = text at htail
    cases htail with
    | assigned gaps _ _ hne =>
      refine ⟨hne, lead ++ (d.type ++ (marks ++ (gap ++ (d.name ++ (gaps ++ ['=']))))), ?_⟩
      rw [s.eq, htext]
      simp

theorem isGap_eq_false_of_mem_markText (array : Option (ArrayMark Nat)) :
    ∀ c ∈ markText (array.map ArrayMark.digits), isGap c = false := by
  have hdigits (n : Nat) : ∀ c ∈ Numeral.ofNat n, isGap c = false := fun c hc =>
    isGap_eq_false_of_isDigit ((Numeral.word_ofNat n).all c hc)
  rcases array with _ | (_ | n | n) <;> intro c hc <;>
    simp only [Option.map_none, Option.map_some, ArrayMark.digits, markText, List.cons_append,
      List.mem_cons, List.mem_append, List.not_mem_nil, or_false] at hc
  · rcases hc with rfl | rfl <;> decide
  · rcases hc with rfl | hc | rfl
    · decide
    · exact hdigits n c hc
    · decide
  · rcases hc with rfl | rfl | rfl | hc | rfl
    · decide
    · decide
    · decide
    · exact hdigits n c hc
    · decide

/-- The only gap of a line without an ending stands before its name, so that its type and its marks have
none. -/
theorem front_eq_of_written {type name : List Char} {array : Option (ArrayMark Nat)}
    (htype : ∀ c ∈ type, isGap c = false) (hname : Word isNamePart name)
    {blanks word marks rest : List Char} {c : Char}
    (h : lineOf type none array name [] = blanks ++ (word ++ (marks ++ c :: rest)))
    (hblanks : ∀ b ∈ blanks, isGap b = true) (hc : isGap c = true) :
    type ++ markText (array.map ArrayMark.digits) = word ++ marks := by
  rw [lineOf_array, List.append_nil] at h
  have hnone {cs : List Char} (hcs : ∀ e ∈ cs, isGap e = false) : cs.filter isGap = [] :=
    List.filter_eq_nil_iff.2 fun e he => by simp [hcs e he]
  have hgaps := congrArg (List.filter isGap) h
  have hspace : isGap ' ' = true := by decide
  simp only [List.filter_append, List.filter_cons_of_pos hspace, List.filter_cons_of_pos hc, hnone htype,
    hnone (isGap_eq_false_of_mem_markText array),
    hnone fun e he => isGap_eq_false_of_isNamePart (hname.all e he), List.filter_eq_self.2 hblanks,
    List.nil_append] at hgaps
  have hlength := congrArg List.length hgaps
  simp only [List.length_append, List.length_cons, List.length_nil] at hlength
  obtain rfl : blanks = [] := List.eq_nil_of_length_eq_zero (by omega)
  have hmarkGaps : marks.filter isGap = [] := List.eq_nil_of_length_eq_zero (by omega)
  have hwordGaps : word.filter isGap = [] := List.eq_nil_of_length_eq_zero (by omega)
  rw [hwordGaps, hmarkGaps] at hgaps
  obtain ⟨rfl, -⟩ := List.cons.inj hgaps
  have hspace' {cs : List Char} (hcs : cs.filter isGap = []) : ' ' ∉ cs := fun hm =>
    List.filter_eq_nil_iff.1 hcs ' ' hm hspace
  have hsplit : (type ++ markText (array.map ArrayMark.digits)) ++ ' ' :: name =
      (word ++ marks) ++ ' ' :: rest := by simpa using h
  exact (append_cons_inj_of_first hsplit
    (fun hm => (List.mem_append.1 hm).elim (hspace' (hnone htype))
      (hspace' (hnone (isGap_eq_false_of_mem_markText array))))
    (fun hm => (List.mem_append.1 hm).elim (hspace' hwordGaps) (hspace' hmarkGaps))).1

/-- A type name that a line of it is derived with is a word. -/
theorem isWord_of_written {type name : List Char} {array : Option (ArrayMark Nat)} {d : Derivation}
    (htype : TypeName type) (hgap : ∀ c ∈ type, isGap c = false) (hname : Word isNamePart name)
    (h : d.Written (lineOf type none array name [])) : IsWord type := by
  obtain ⟨blanks, marks, c, rest, hline, hblanks, hc, hmarks⟩ := h.front
  have hfront := front_eq_of_written hgap hname hline hblanks hc
  rcases hmarks with rfl | ⟨inner, rfl, hinner⟩
  · cases array with
    | none =>
      have heq : type = d.type := by simpa [markText] using hfront
      exact heq ▸ h.word
    | some m =>
      obtain ⟨body, hbody, -⟩ := exists_markText m
      rw [Option.map_some, hbody, List.append_nil] at hfront
      have hm : '[' ∈ d.type := hfront ▸ by simp
      exact absurd (h.word.word.all _ hm) (by decide)
  · have hbracket : '[' ∉ inner := fun hm => by
      rcases hinner _ hm with h | h <;> exact absurd h (by decide)
    cases array with
    | none =>
      have hlast : type.getLast? = some ']' := by
        rw [Option.map_none, markText, List.append_nil] at hfront
        rw [hfront, ← List.cons_append, ← List.append_assoc, List.getLast?_concat]
      exact absurd (htype.last_isTypePart _ hlast) (by decide)
    | some m =>
      obtain ⟨body, hbody, hnot⟩ := exists_markText m
      rw [Option.map_some, hbody] at hfront
      obtain ⟨heq, -⟩ := append_cons_inj_of_last hfront (by simpa using hnot) (by simpa using hbracket)
      exact heq ▸ h.word

end RosSchema.Line.Ros1

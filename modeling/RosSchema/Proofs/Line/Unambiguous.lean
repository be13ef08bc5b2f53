import RosSchema.Proofs.Line.Spelling

/-!
# The one derivation of a line

Every part of a spelled line is read as far as it goes, so that a derivation that spells a line is the
only one that the line has. `derivations_ne_nil_iff` says which lines without blanks in front have one.
-/

namespace RosSchema.Line.Ros1

open RosSchema.Text (trim)
open Reader
open Ros2 (isTypePart)

section Parts

variable {type marks between name tail : List Char} {array : Option (ArrayMark Nat)}
  {assigned : Option (List Char)}

/-- The type of a line is read first, and only by the productions of its class. -/
theorem whole?_word {lead rest : List Char} (hlead : ∀ c ∈ lead, isGap c = true) (htype : IsWord type)
    (hrest : ∀ c ∈ rest.head?, isTypePart c = false) (c : TypeClass) {p : List Char → Reader Derivation} :
    whole? (do
      gap
      let type ← word
      guard (TypeClass.ofWord type = c)
      p type) (lead ++ (type ++ rest)) = if TypeClass.ofWord type = c then whole? (p type) rest else none := by
  have hgap : gap (lead ++ (type ++ rest)) = some ((), type ++ rest) := gap_append lead hlead (by
    obtain ⟨d, more, rfl, hd⟩ := htype.head
    rintro e ⟨⟩
    exact isGap_eq_false_of_isNamePart (isNamePart_of_isNameStart hd))
  rw [whole?, bind_of_eq_some hgap, bind_of_eq_some (word_append htype hrest)]
  by_cases hc : TypeClass.ofWord type = c
  · have hguard : (guard (TypeClass.ofWord type = c) : Reader Unit) rest = some ((), rest) :=
      guard_eq_some.2 ⟨hc, rfl⟩
    rw [bind_of_eq_some hguard, if_pos hc]
    rfl
  · have hguard : (guard (TypeClass.ofWord type = c) : Reader Unit) rest = none := by
      rw [Option.eq_none_iff_forall_ne_some]
      rintro ⟨_, left⟩ hread
      exact hc (guard_eq_some.1 hread).1
    rw [bind_of_eq_none hguard, if_neg hc]

theorem arrayMark_gap (hbetween : Word isGap between) (rest : List Char) :
    arrayMark (between ++ rest) = none := by
  obtain ⟨g, gs, rfl, hg⟩ := hbetween.exists_cons
  rw [Option.eq_none_iff_forall_ne_some]
  rintro ⟨m, left⟩ hread
  obtain ⟨marks, hcs, hmarks⟩ := brackets_of_arrayMark hread
  cases hmarks with
  | some =>
    obtain ⟨rfl, -⟩ := List.cons.inj hcs
    exact absurd hg (by decide)

/-- The mark of a line is read if there is one. -/
theorem optional_arrayMark (hmarks : Brackets array marks) (hbetween : Word isGap between)
    (rest : List Char) : optional arrayMark (marks ++ (between ++ rest)) = some (array, between ++ rest) := by
  cases array with
  | none =>
    cases hmarks
    exact optional_eq_some.2 (.inr ⟨arrayMark_gap hbetween rest, rfl, rfl⟩)
  | some m => exact optional_eq_some.2 (.inl ⟨m, rfl, arrayMark_append hmarks _⟩)

theorem gap1_brackets {m : ArrayMark Nat} (hmarks : Brackets (some m) marks) (rest : List Char) :
    gap1 (marks ++ rest) = none := by
  rw [Option.eq_none_iff_forall_ne_some]
  rintro ⟨_, left⟩ hread
  obtain ⟨blanks, hcs, hblanks⟩ := gap1_eq_some hread
  obtain ⟨g, gs, rfl, hg⟩ := hblanks.exists_cons
  cases hmarks with
  | some =>
    obtain ⟨rfl, -⟩ := List.cons.inj hcs
    exact absurd hg (by decide)

/-- The name of a line is read after a gap, as far as it goes. -/
theorem gap1_word (hbetween : Word isGap between) (hname : IsWord name) (htail : Tail assigned tail) :
    gap1 (between ++ (name ++ tail)) = some ((), name ++ tail) ∧ word (name ++ tail) = some (name, tail) := by
  refine ⟨gap1_append hbetween ?_, word_append hname (head_tail htail)⟩
  obtain ⟨d, more, rfl, hd⟩ := hname.head
  rintro e ⟨⟩
  exact isGap_eq_false_of_isNamePart (isNamePart_of_isNameStart hd)

theorem gap_comment {gaps rest : List Char} (hgaps : ∀ c ∈ gaps, isGap c = true)
    (hcomment : ∀ c ∈ rest.head?, c = '#') : gap (gaps ++ rest) = some ((), rest) :=
  gap_append gaps hgaps fun c hc => by
    rw [hcomment c hc]
    decide

theorem gap_assigned {gaps : List Char} (hgaps : ∀ c ∈ gaps, isGap c = true) (raw : List Char) :
    gap (gaps ++ '=' :: raw) = some ((), '=' :: raw) :=
  gap_append gaps hgaps (by
    rintro c ⟨⟩
    decide)

/-- A variable is all of its line exactly when nothing is assigned. -/
theorem whole?_variable (hmarks : Brackets array marks) (hbetween : Word isGap between)
    (hname : IsWord name) (htail : Tail assigned tail) (make : Option (ArrayMark Nat) → List Char → Derivation) :
    whole? (do
      let array ← optional arrayMark
      gap1
      let name ← word
      gap
      let _ ← optional comment
      gap
      return make array name) (marks ++ (between ++ (name ++ tail))) =
        if assigned = none then some (make array name) else none := by
  obtain ⟨hgap, hword⟩ := gap1_word hbetween hname htail
  rw [whole?, bind_of_eq_some (optional_arrayMark hmarks hbetween _), bind_of_eq_some hgap,
    bind_of_eq_some hword]
  cases htail with
  | finished gaps rest hgaps hcomment =>
    rw [bind_of_eq_some (gap_comment hgaps hcomment)]
    cases rest with
    | nil => rfl
    | cons c rest =>
      obtain rfl := hcomment c rfl
      rfl
  | assigned gaps raw hgaps =>
    rw [bind_of_eq_some (gap_assigned hgaps raw)]
    rfl

/-- A constant is all of its line when something is assigned and nothing is marked. -/
theorem whole?_constant (hmarks : Brackets array marks) (hbetween : Word isGap between)
    (hname : IsWord name) (htail : Tail assigned tail) (make : List Char → List Char → Derivation) :
    whole? (do
      gap1
      let name ← word
      gap
      mark '='
      let assigned ← rest
      guard (assigned ≠ [])
      return make name assigned) (marks ++ (between ++ (name ++ tail))) =
        if array = none then assigned.map (make name) else none := by
  obtain ⟨hgap, hword⟩ := gap1_word hbetween hname htail
  cases array with
  | some m => rw [whole?, bind_of_eq_none (gap1_brackets hmarks _), if_neg (by simp)]
  | none =>
    cases hmarks
    rw [List.nil_append, whole?, bind_of_eq_some hgap, bind_of_eq_some hword]
    cases htail with
    | finished gaps rest hgaps hcomment =>
      rw [bind_of_eq_some (gap_comment hgaps hcomment)]
      have hmark : mark '=' rest = none := mark_eq_none fun c hc => by
        rw [hcomment c hc]
        decide
      rw [bind_of_eq_none hmark]
      rfl
    | assigned gaps raw hgaps hne =>
      have hrest : Reader.rest raw = some (raw, []) := rest_eq_some.2 ⟨rfl, rfl⟩
      have hguard : (guard (raw ≠ []) : Reader Unit) [] = some ((), []) := guard_eq_some.2 ⟨hne, rfl⟩
      rw [bind_of_eq_some (gap_assigned hgaps raw), bind_of_eq_some (mark_cons _ _), bind_of_eq_some hrest,
        bind_of_eq_some hguard]
      rfl

end Parts

/-! ## Uniqueness -/

/-- A derivation that spells a line is the only one of the line. -/
theorem derivations_spelled {d : Derivation} {lead marks gap tail line : List Char}
    (s : d.Spelled lead marks gap tail line) (p : d.Produced) : derivations line = [d] := by
  have hhead : ∀ c ∈ (marks ++ (gap ++ (d.name ++ tail))).head?, isTypePart c = false := by
    intro c hc
    rcases head_brackets s.marks s.gap _ c hc with rfl | h
    · decide
    · exact Ros2.isTypePart_eq_false_of_isBlank (isBlank_of_isGap h)
  obtain ⟨line_eq, hlead, htype, hmarks, hgap, hname, htail⟩ := s
  obtain ⟨typeClass, type, array, name, assigned⟩ := d
  obtain ⟨class_eq, constant⟩ := p
  dsimp only at *
  have hvariable (c : TypeClass) : whole? (variableLine c) line =
      if typeClass = c then if assigned = none then some ⟨c, type, array, name, none⟩ else none else none := by
    rw [line_eq, variableLine]
    refine (whole?_word hlead htype hhead c).trans ?_
    rw [class_eq, whole?_variable hmarks hgap hname htail (fun array name => ⟨c, type, array, name, none⟩)]
  have hconstant (c : TypeClass) : whole? (constantLine c) line = if typeClass = c then
      if array = none then assigned.map fun raw => ⟨c, type, none, name, some raw⟩ else none else none := by
    rw [line_eq, constantLine]
    refine (whole?_word hlead htype hhead c).trans ?_
    rw [class_eq, whole?_constant hmarks hgap hname htail (fun name raw => ⟨c, type, none, name, some raw⟩)]
  rw [derivations, productions]
  cases assigned with
  | none => cases typeClass <;> simp [hvariable, hconstant]
  | some raw =>
    obtain ⟨hclass, rfl⟩ := constant rfl
    simp only [List.mem_cons, List.not_mem_nil, or_false] at hclass
    rcases hclass with rfl | rfl | rfl <;> simp [hvariable, hconstant]

/-- The grammar is unambiguous: no line has two derivations. -/
theorem derivations_eq_singleton {line : List Char} {d : Derivation} (h : d ∈ derivations line) :
    derivations line = [d] := by
  obtain ⟨⟨lead, marks, gap, tail, s⟩, p⟩ := spelled_of_mem_derivations h
  exact derivations_spelled s p

theorem length_derivations_le (line : List Char) : (derivations line).length ≤ 1 := by
  rcases hline : derivations line with _ | ⟨d, ds⟩
  · exact Nat.zero_le 1
  · have hd : d ∈ derivations line := hline ▸ List.mem_cons_self
    rw [← hline, derivations_eq_singleton hd]
    exact le_rfl

/-! ## The lines of the grammar -/

/-- The lines of the grammar, as they stand without a gap in front: those of variables, and those of the
constants of three classes. -/
inductive IsLine : List Char → Prop where
  | field (type marks gap name gaps comment : List Char) (array : Option (ArrayMark Nat))
      (type_word : IsWord type) (brackets : Brackets array marks) (gap_word : Word isGap gap)
      (name_word : IsWord name) (blank : ∀ c ∈ gaps, isGap c = true) (hash : ∀ c ∈ comment.head?, c = '#') :
      IsLine (type ++ (marks ++ (gap ++ (name ++ (gaps ++ comment)))))
  | constant (type gap name gaps raw : List Char) (type_word : IsWord type)
      (class_mem : TypeClass.ofWord type ∈ [TypeClass.bool, .numeric, .string]) (gap_word : Word isGap gap)
      (name_word : IsWord name) (blank : ∀ c ∈ gaps, isGap c = true) (ne_nil : raw ≠ []) :
      IsLine (type ++ (gap ++ (name ++ (gaps ++ '=' :: raw))))

theorem isLine_of_spelled {d : Derivation} {marks gap tail line : List Char}
    (s : d.Spelled [] marks gap tail line) (p : d.Produced) : IsLine line := by
  obtain ⟨rfl, -, htype, hmarks, hgap, hname, htail⟩ := s
  obtain ⟨class_eq, constant⟩ := p
  obtain ⟨typeClass, type, array, name, assigned⟩ := d
  dsimp only at *
  cases htail with
  | finished gaps comment hgaps hcomment =>
    exact .field type marks gap name gaps comment array htype hmarks hgap hname hgaps hcomment
  | assigned gaps raw hgaps hne =>
    obtain ⟨hclass, rfl⟩ := constant rfl
    cases hmarks
    exact .constant type gap name gaps raw htype (class_eq ▸ hclass) hgap hname hgaps hne

/-- Every line of the grammar is spelled by a derivation of one of the productions. -/
theorem IsLine.exists_spelled {line : List Char} (h : IsLine line) :
    ∃ d marks gap tail, Derivation.Spelled d [] marks gap tail line ∧ d.Produced := by
  cases h with
  | field type marks gap name gaps comment array htype hmarks hgap hname hgaps hcomment =>
    exact ⟨⟨TypeClass.ofWord type, type, array, name, none⟩, marks, gap, gaps ++ comment,
      ⟨rfl, by simp, htype, hmarks, hgap, hname, .finished gaps comment hgaps hcomment⟩, rfl, nofun⟩
  | constant type gap name gaps raw htype hclass hgap hname hgaps hne =>
    exact ⟨⟨TypeClass.ofWord type, type, none, name, some raw⟩, [], gap, gaps ++ '=' :: raw,
      ⟨rfl, by simp, htype, .none, hgap, hname, .assigned gaps raw hgaps hne⟩, rfl, fun _ => ⟨hclass, rfl⟩⟩

/-- A line without a gap in front is derived exactly when it is one of the grammar. -/
theorem derivations_ne_nil_iff {line : List Char} (hhead : ∀ c ∈ line.head?, isGap c = false) :
    derivations line ≠ [] ↔ IsLine line := by
  constructor
  · intro h
    obtain ⟨d, hd⟩ := List.exists_mem_of_ne_nil _ h
    obtain ⟨⟨lead, marks, gap, tail, s⟩, p⟩ := spelled_of_mem_derivations hd
    obtain rfl : lead = [] := by
      cases lead with
      | nil => rfl
      | cons c lead =>
        have hgap := s.lead c List.mem_cons_self
        rw [hhead c (by rw [s.eq]; rfl)] at hgap
        cases hgap
    exact isLine_of_spelled s p
  · intro h
    obtain ⟨d, marks, gap, tail, s, p⟩ := h.exists_spelled
    rw [derivations_spelled s p]
    exact List.cons_ne_nil d []

theorem isGap_head_trim (line : List Char) : ∀ c ∈ (trim line).head?, isGap c = false := by
  intro c hc
  by_contra hgap
  have hblank := isBlank_of_isGap (Bool.not_eq_false _ ▸ hgap)
  rw [(Text.trimmed_trim line).head c hc] at hblank
  cases hblank

end RosSchema.Line.Ros1

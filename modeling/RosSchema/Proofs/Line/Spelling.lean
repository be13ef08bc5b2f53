import RosSchema.Proofs.Line.Derivation
import RosSchema.Proofs.Line.Row

/-!
# How ROS 1 spells a line

A word of ROS 1 is an identifier, maybe with a second one after a slash. A derivation spells a line: a gap,
its type, the brackets of its mark, another gap, its name, and the tail after that.
-/

namespace RosSchema.Line.Ros1

open Reader
open Ros2 (isTypePart markText)

/-! ## Words -/

structure IsIdentifier (cs : List Char) : Prop where
  first : ∃ c tail, cs = c :: tail ∧ isNameStart c = true
  all : ∀ c ∈ cs, isNamePart c = true

inductive IsWord : List Char → Prop where
  | plain (cs : List Char) (identifier : IsIdentifier cs) : IsWord cs
  | nested (cs : List Char) (c : Char) (tail : List Char) (identifier : IsIdentifier cs)
      (alpha : c.isAlpha = true) (all : ∀ d ∈ tail, isNamePart d = true) :
      IsWord (cs ++ '/' :: c :: tail)

theorem identifier_append {cs rest : List Char} (h : IsIdentifier cs)
    (stops : ∀ c ∈ rest.head?, isNamePart c = false) : identifier (cs ++ rest) = some (cs, rest) :=
  identifier_eq_some.2 ⟨h.first, rfl, h.all, stops⟩

theorem localPart_eq_some {cs word rest : List Char} : localPart cs = some (word, rest) ↔
    ∃ c tail, word = '/' :: c :: tail ∧ c.isAlpha = true ∧ cs = word ++ rest ∧
      (∀ d ∈ tail, isNamePart d = true) ∧ ∀ d ∈ rest.head?, isNamePart d = false := by
  rw [localPart, bind_eq_some]
  constructor
  · rintro ⟨_, r₁, hmark, h₁⟩
    obtain ⟨c, r₂, hc, h₂⟩ := bind_eq_some.1 h₁
    obtain ⟨tail, r₃, htail, h₃⟩ := bind_eq_some.1 h₂
    obtain rfl := mark_eq_some.1 hmark
    obtain ⟨rfl, halpha⟩ := one_eq_some.1 hc
    obtain ⟨rfl, hall, hstops⟩ := run_eq_some.1 htail
    obtain ⟨rfl, rfl⟩ := pure_eq_some.1 h₃
    exact ⟨c, tail, rfl, halpha, rfl, hall, hstops⟩
  · rintro ⟨c, tail, rfl, halpha, rfl, hall, hstops⟩
    have hrun : run isNamePart (tail ++ rest) = some (tail, rest) := run_eq_some.2 ⟨rfl, hall, hstops⟩
    refine ⟨(), c :: (tail ++ rest), mark_eq_some.2 rfl, bind_eq_some.2 ⟨c, tail ++ rest, ?_, ?_⟩⟩
    · exact one_eq_some.2 ⟨rfl, halpha⟩
    · exact bind_eq_some.2 ⟨tail, rest, hrun, rfl⟩

theorem localPart_eq_none {cs : List Char} (h : ∀ c ∈ cs.head?, isTypePart c = false) :
    localPart cs = none := by
  rw [Option.eq_none_iff_forall_ne_some]
  rintro ⟨word, rest⟩ hread
  obtain ⟨c, tail, rfl, -, rfl, -⟩ := localPart_eq_some.1 hread
  exact absurd (h '/' rfl) (by decide)

/-- A word in front of what no type goes on with is read as it stands. -/
theorem word_append {cs : List Char} (h : IsWord cs) {rest : List Char}
    (stops : ∀ c ∈ rest.head?, isTypePart c = false) :
    word (cs ++ rest) = some (cs, rest) := by
  have hstops : ∀ c ∈ rest.head?, isNamePart c = false := by
    intro c hc
    exact Ros2.isNamePart_eq_false_of_isTypePart (stops c hc)
  cases h with
  | plain _ hidentifier =>
    have hoptional : optional localPart rest = some (none, rest) :=
      optional_eq_some.2 (.inr ⟨localPart_eq_none stops, rfl, rfl⟩)
    rw [word, bind_of_eq_some (identifier_append hidentifier hstops), bind_of_eq_some hoptional]
    simp [pure_apply]
  | nested first c tail hidentifier halpha hall =>
    have hlocal : localPart ('/' :: c :: tail ++ rest) = some ('/' :: c :: tail, rest) :=
      localPart_eq_some.2 ⟨c, tail, rfl, halpha, rfl, hall, hstops⟩
    have hoptional : optional localPart ('/' :: c :: tail ++ rest) = some (some ('/' :: c :: tail), rest) :=
      optional_eq_some.2 (.inl ⟨_, rfl, hlocal⟩)
    have hslash : ∀ d ∈ ('/' :: c :: tail ++ rest).head?, isNamePart d = false := by
      rintro d ⟨⟩
      decide
    rw [List.append_assoc, word, bind_of_eq_some (identifier_append hidentifier hslash),
      bind_of_eq_some hoptional]
    simp [pure_apply]

theorem word_eq_some {cs w rest : List Char} (h : word cs = some (w, rest)) : IsWord w ∧ cs = w ++ rest := by
  rw [word, bind_eq_some] at h
  obtain ⟨first, mid, hfirst, h₁⟩ := h
  obtain ⟨part, left, hpart, h₂⟩ := bind_eq_some.1 h₁
  obtain ⟨rfl, rfl⟩ := pure_eq_some.1 h₂
  obtain ⟨hstart, rfl, hall, -⟩ := identifier_eq_some.1 hfirst
  rcases optional_eq_some.1 hpart with ⟨p, rfl, hlocal⟩ | ⟨-, rfl, rfl⟩
  · obtain ⟨c, tail, rfl, halpha, rfl, htail, -⟩ := localPart_eq_some.1 hlocal
    exact ⟨.nested first c tail ⟨hstart, hall⟩ halpha htail, by simp⟩
  · simpa using IsWord.plain first ⟨hstart, hall⟩

theorem IsWord.head {cs : List Char} (h : IsWord cs) : ∃ c tail, cs = c :: tail ∧ isNameStart c = true := by
  cases h with
  | plain _ hidentifier => exact hidentifier.first
  | nested first c tail hidentifier =>
    obtain ⟨d, rest, rfl, hd⟩ := hidentifier.first
    exact ⟨d, _, rfl, hd⟩

theorem IsWord.word {cs : List Char} (h : IsWord cs) : Word isTypePart cs := by
  obtain ⟨c, tail, hcons, -⟩ := h.head
  refine ⟨by simp [hcons], fun d hd => ?_⟩
  cases h with
  | plain _ hidentifier => exact Ros2.isTypePart_of_isNamePart (hidentifier.all d hd)
  | nested first e rest hidentifier halpha hall =>
    simp only [List.mem_append, List.mem_cons] at hd
    rcases hd with hd | rfl | rfl | hd
    · exact Ros2.isTypePart_of_isNamePart (hidentifier.all d hd)
    · decide
    · exact Ros2.isTypePart_of_isNamePart (by simp [isNamePart, Char.isAlphanum, halpha])
    · exact Ros2.isTypePart_of_isNamePart (hall d hd)

/-- The name of a field is an identifier. -/
theorem isWord_of_isFieldName {cs : List Char} (h : isFieldName cs = true) :
    IsWord cs ∧ Word isNamePart cs := by
  cases cs with
  | nil => cases h
  | cons c cs =>
    simp only [isFieldName, Bool.and_eq_true, List.all_eq_true] at h
    have hall : ∀ d ∈ c :: cs, isNamePart d = true := by
      intro d hd
      rcases List.mem_cons.1 hd with rfl | hd
      · simp [isNamePart, Char.isAlphanum, h.1]
      · exact h.2 d hd
    exact ⟨.plain _ ⟨⟨c, cs, rfl, by simp [isNameStart, h.1]⟩, hall⟩, List.cons_ne_nil _ _, hall⟩

/-! ## Gaps and marks -/

theorem gap_append (blanks : List Char) {rest : List Char} (h : ∀ c ∈ blanks, isGap c = true)
    (stops : ∀ c ∈ rest.head?, isGap c = false) : gap (blanks ++ rest) = some ((), rest) :=
  discard_eq_some.2 ⟨blanks, run_eq_some.2 ⟨rfl, h, stops⟩⟩

theorem gap_eq_some {cs rest : List Char} (h : gap cs = some ((), rest)) :
    ∃ blanks, cs = blanks ++ rest ∧ ∀ c ∈ blanks, isGap c = true := by
  obtain ⟨blanks, hrun⟩ := discard_eq_some.1 h
  exact ⟨blanks, (run_eq_some.1 hrun).eq, (run_eq_some.1 hrun).all⟩

theorem gap1_eq_some {cs rest : List Char} (h : gap1 cs = some ((), rest)) :
    ∃ blanks, cs = blanks ++ rest ∧ Word isGap blanks := by
  obtain ⟨blanks, hrun⟩ := discard_eq_some.1 h
  obtain ⟨hword, rfl, -⟩ := run1_eq_some.1 hrun
  exact ⟨blanks, rfl, hword⟩

theorem gap1_append {blanks rest : List Char} (h : Word isGap blanks)
    (stops : ∀ c ∈ rest.head?, isGap c = false) : gap1 (blanks ++ rest) = some ((), rest) :=
  discard_eq_some.2 ⟨blanks, run1_append h stops⟩

def IsMark : ArrayMark Nat → Prop
  | .any => True
  | .exactly n => n < 2 ^ 64
  | .atMost _ => False

theorem isGap_eq_false_of_isDigit {c : Char} (h : c.isDigit = true) : isGap c = false := by
  by_contra hc
  simp only [isGap, Bool.not_eq_false, Bool.or_eq_true, beq_iff_eq] at hc
  rcases hc with rfl | rfl <;> exact absurd h (by decide)

theorem isBlank_of_isGap {c : Char} (h : isGap c = true) : Text.isBlank c = true := by
  simp only [isGap, Bool.or_eq_true, beq_iff_eq] at h
  rcases h with rfl | rfl <;> decide

theorem isGap_eq_false_of_isNamePart {c : Char} (h : isNamePart c = true) : isGap c = false := by
  by_contra hc
  simp only [isGap, Bool.not_eq_false, Bool.or_eq_true, beq_iff_eq] at hc
  rcases hc with rfl | rfl <;> exact absurd h (by decide)

/-! ## Spelled lines -/

def IsCount : ArrayMark Nat → List Char → Prop
  | .any, digits => digits = []
  | .exactly n, digits => Word Char.isDigit digits ∧ count64? digits = some n
  | .atMost _, _ => False

theorem IsCount.digit {m : ArrayMark Nat} {digits : List Char} (h : IsCount m digits) :
    ∀ c ∈ digits, c.isDigit = true := by
  cases m with
  | any => simp [show digits = [] from h]
  | exactly n => exact h.1.all
  | atMost n => exact h.elim

inductive Brackets : Option (ArrayMark Nat) → List Char → Prop where
  | none : Brackets none []
  | some (m : ArrayMark Nat) (front digits back : List Char) (count : IsCount m digits)
      (gaps : ∀ c ∈ front ++ back, isGap c = true) :
      Brackets (some m) ('[' :: (front ++ (digits ++ back)) ++ [']'])

/-- The text after a name: a comment that may be missing, or an equality sign and what is assigned. -/
inductive Tail : Option (List Char) → List Char → Prop where
  | finished (gaps rest : List Char) (all : ∀ c ∈ gaps, isGap c = true)
      (comment : ∀ c ∈ rest.head?, c = '#') : Tail none (gaps ++ rest)
  | assigned (gaps raw : List Char) (all : ∀ c ∈ gaps, isGap c = true) (ne_nil : raw ≠ []) :
      Tail (some raw) (gaps ++ '=' :: raw)

/-- A line is spelled as a derivation, with gaps before and after its type and a tail after its name. -/
structure Derivation.Spelled (d : Derivation) (lead marks gap tail line : List Char) : Prop where
  eq : line = lead ++ (d.type ++ (marks ++ (gap ++ (d.name ++ tail))))
  lead : ∀ c ∈ lead, isGap c = true
  type : IsWord d.type
  marks : Brackets d.array marks
  gap : Word isGap gap
  name : IsWord d.name
  tail : Tail d.assigned tail

/-- A derivation by one of the productions: its type is of its class, and only three classes have constants,
none of them arrays. -/
structure Derivation.Produced (d : Derivation) : Prop where
  class_eq : TypeClass.ofWord d.type = d.typeClass
  constant : d.assigned.isSome → d.typeClass ∈ [TypeClass.bool, .numeric, .string] ∧ d.array = none

theorem head_brackets {array : Option (ArrayMark Nat)} {marks gap : List Char}
    (h : Brackets array marks) (hgap : Word isGap gap) (rest : List Char) :
    ∀ c ∈ (marks ++ (gap ++ rest)).head?, c = '[' ∨ isGap c = true := by
  cases h with
  | none =>
    obtain ⟨g, gs, rfl, hg⟩ := hgap.exists_cons
    rintro c ⟨⟩
    exact .inr hg
  | some m front digits back =>
    rintro c ⟨⟩
    exact .inl rfl

/-- No type or name goes on in the tail of a derivation. -/
theorem head_tail {assigned : Option (List Char)} {tail : List Char} (h : Tail assigned tail) :
    ∀ c ∈ tail.head?, isTypePart c = false := by
  have hgap {gaps rest : List Char} (hgaps : ∀ c ∈ gaps, isGap c = true)
      (hrest : ∀ c ∈ rest.head?, isTypePart c = false) :
      ∀ c ∈ (gaps ++ rest).head?, isTypePart c = false := by
    cases gaps with
    | nil => exact hrest
    | cons g gs =>
      rintro c ⟨⟩
      by_contra hc
      have hnot := Ros2.isBlank_eq_false_of_isTypePart (Bool.not_eq_false _ ▸ hc)
      rw [isBlank_of_isGap (hgaps g (by simp))] at hnot
      cases hnot
  cases h with
  | finished gaps rest hgaps hcomment =>
    refine hgap hgaps fun c hc => ?_
    rw [hcomment c hc]
    decide
  | assigned gaps raw hgaps _ =>
    refine hgap hgaps ?_
    rintro c ⟨⟩
    decide

theorem brackets_of_arrayMark {cs rest : List Char} {m : ArrayMark Nat}
    (h : arrayMark cs = some (m, rest)) : ∃ marks, cs = marks ++ rest ∧ Brackets (some m) marks := by
  rw [arrayMark, orElse_eq_some] at h
  rcases h with h | ⟨-, h⟩
  · obtain ⟨_, r₁, hopen, h₁⟩ := bind_eq_some.1 h
    obtain ⟨_, r₂, hgap, h₂⟩ := bind_eq_some.1 h₁
    obtain ⟨_, r₃, hclose, h₃⟩ := bind_eq_some.1 h₂
    obtain rfl := mark_eq_some.1 hopen
    obtain ⟨gaps, rfl, hgaps⟩ := gap_eq_some hgap
    obtain rfl := mark_eq_some.1 hclose
    obtain ⟨rfl, rfl⟩ := pure_eq_some.1 h₃
    exact ⟨_, by simp, .some .any gaps [] [] rfl (by simpa using hgaps)⟩
  · obtain ⟨_, r₁, hopen, h₁⟩ := bind_eq_some.1 h
    obtain ⟨_, r₂, hfront, h₂⟩ := bind_eq_some.1 h₁
    obtain ⟨digits, r₃, hdigits, h₃⟩ := bind_eq_some.1 h₂
    obtain ⟨n, r₄, hcount, h₄⟩ := bind_eq_some.1 h₃
    obtain ⟨_, r₅, hback, h₅⟩ := bind_eq_some.1 h₄
    obtain ⟨_, r₆, hclose, h₆⟩ := bind_eq_some.1 h₅
    obtain rfl := mark_eq_some.1 hopen
    obtain ⟨front, rfl, frontGaps⟩ := gap_eq_some hfront
    obtain ⟨hword, rfl, -⟩ := run1_eq_some.1 hdigits
    obtain ⟨count_eq, rfl⟩ := given_eq_some.1 hcount
    obtain ⟨back, rfl, backGaps⟩ := gap_eq_some hback
    obtain rfl := mark_eq_some.1 hclose
    obtain ⟨rfl, rfl⟩ := pure_eq_some.1 h₆
    refine ⟨_, by simp, .some (.exactly n) front digits back ⟨hword, count_eq⟩ fun c hc => ?_⟩
    exact (List.mem_append.1 hc).elim (frontGaps c) (backGaps c)

theorem tail_of_comment {cs r₁ r₂ r₃ : List Char} {c : Option Unit} (h₁ : Ros1.gap cs = some ((), r₁))
    (h₂ : optional comment r₁ = some (c, r₂)) (h₃ : Ros1.gap r₂ = some ((), r₃)) (hend : r₃ = []) :
    Tail none cs := by
  subst hend
  obtain ⟨gaps, rfl, hgaps⟩ := gap_eq_some h₁
  rcases optional_eq_some.1 h₂ with ⟨_, rfl, hcomment⟩ | ⟨-, rfl, rfl⟩
  · obtain ⟨_, r, hmark, -⟩ := bind_eq_some.1 hcomment
    obtain rfl := mark_eq_some.1 hmark
    exact .finished gaps _ hgaps (by simp)
  · obtain ⟨gaps', rfl, hgaps'⟩ := gap_eq_some h₃
    rw [← List.append_assoc]
    exact .finished (gaps ++ gaps') [] (fun c hc => (List.mem_append.1 hc).elim (hgaps c) (hgaps' c))
      (by simp)

theorem spelled_of_variableLine {c : TypeClass} {line : List Char} {d : Derivation}
    (h : whole? (variableLine c) line = some d) :
    (∃ lead marks gap tail, d.Spelled lead marks gap tail line) ∧ d.Produced := by
  rw [whole?_eq_some, variableLine, bind_eq_some] at h
  obtain ⟨_, r₁, hlead, h₁⟩ := h
  obtain ⟨type, r₂, htype, h₂⟩ := bind_eq_some.1 h₁
  obtain ⟨_, r₃, hclass, h₃⟩ := bind_eq_some.1 h₂
  obtain ⟨array, r₄, harray, h₄⟩ := bind_eq_some.1 h₃
  obtain ⟨_, r₅, hgap, h₅⟩ := bind_eq_some.1 h₄
  obtain ⟨name, r₆, hname, h₆⟩ := bind_eq_some.1 h₅
  obtain ⟨_, r₇, hgap', h₇⟩ := bind_eq_some.1 h₆
  obtain ⟨_, r₈, hcomment, h₈⟩ := bind_eq_some.1 h₇
  obtain ⟨_, r₉, hend, h₉⟩ := bind_eq_some.1 h₈
  obtain ⟨rfl, hnil⟩ := pure_eq_some.1 h₉
  have htail := tail_of_comment hgap' hcomment hend hnil
  obtain ⟨lead, rfl, leadGaps⟩ := gap_eq_some hlead
  obtain ⟨hword, rfl⟩ := word_eq_some htype
  obtain ⟨class_eq, rfl⟩ := guard_eq_some.1 hclass
  obtain ⟨gap, rfl, gapWord⟩ := gap1_eq_some hgap
  obtain ⟨nameWord, rfl⟩ := word_eq_some hname
  have hmarks : ∃ marks, r₂ = marks ++ (gap ++ (name ++ r₆)) ∧ Brackets array marks := by
    rcases optional_eq_some.1 harray with ⟨m, rfl, hmark⟩ | ⟨-, rfl, rfl⟩
    · exact brackets_of_arrayMark hmark
    · exact ⟨[], rfl, .none⟩
  obtain ⟨marks, rfl, hmarks⟩ := hmarks
  exact ⟨⟨lead, marks, gap, r₆, rfl, leadGaps, hword, hmarks, gapWord, nameWord, htail⟩, class_eq, nofun⟩

theorem spelled_of_constantLine {c : TypeClass} {line : List Char} {d : Derivation}
    (hc : c ∈ [TypeClass.bool, .numeric, .string]) (h : whole? (constantLine c) line = some d) :
    (∃ lead marks gap tail, d.Spelled lead marks gap tail line) ∧ d.Produced := by
  rw [whole?_eq_some, constantLine, bind_eq_some] at h
  obtain ⟨_, r₁, hlead, h₁⟩ := h
  obtain ⟨type, r₂, htype, h₂⟩ := bind_eq_some.1 h₁
  obtain ⟨_, r₃, hclass, h₃⟩ := bind_eq_some.1 h₂
  obtain ⟨_, r₄, hgap, h₄⟩ := bind_eq_some.1 h₃
  obtain ⟨name, r₅, hname, h₅⟩ := bind_eq_some.1 h₄
  obtain ⟨_, r₆, hgap', h₆⟩ := bind_eq_some.1 h₅
  obtain ⟨_, r₇, hmark, h₇⟩ := bind_eq_some.1 h₆
  obtain ⟨raw, r₈, hrest, h₈⟩ := bind_eq_some.1 h₇
  obtain ⟨_, r₉, hguard, h₉⟩ := bind_eq_some.1 h₈
  obtain ⟨rfl, -⟩ := pure_eq_some.1 h₉
  obtain ⟨lead, rfl, leadGaps⟩ := gap_eq_some hlead
  obtain ⟨hword, rfl⟩ := word_eq_some htype
  obtain ⟨class_eq, rfl⟩ := guard_eq_some.1 hclass
  obtain ⟨gap, rfl, gapWord⟩ := gap1_eq_some hgap
  obtain ⟨nameWord, rfl⟩ := word_eq_some hname
  obtain ⟨gaps, rfl, hgaps⟩ := gap_eq_some hgap'
  obtain rfl := mark_eq_some.1 hmark
  obtain ⟨rfl, -⟩ := rest_eq_some.1 hrest
  obtain ⟨hne, -⟩ := guard_eq_some.1 hguard
  exact ⟨⟨lead, [], gap, _, rfl, leadGaps, hword, .none, gapWord, nameWord, .assigned gaps _ hgaps hne⟩,
    class_eq, fun _ => ⟨hc, rfl⟩⟩

/-- Every derivation of a line spells it, and is one by a production. -/
theorem spelled_of_mem_derivations {line : List Char} {d : Derivation} (h : d ∈ derivations line) :
    (∃ lead marks gap tail, d.Spelled lead marks gap tail line) ∧ d.Produced := by
  obtain ⟨p, hp, hd⟩ := List.mem_filterMap.1 h
  rcases List.mem_append.1 hp with hp | hp
  · obtain ⟨c, -, rfl⟩ := List.mem_map.1 hp
    exact spelled_of_variableLine hd
  · obtain ⟨c, hc, rfl⟩ := List.mem_map.1 hp
    exact spelled_of_constantLine hc hd

theorem isWord_of_mem_derivations {line : List Char} {d : Derivation} (h : d ∈ derivations line) :
    IsWord d.type :=
  have ⟨⟨_, _, _, _, s⟩, _⟩ := spelled_of_mem_derivations h
  s.type

/-! ## Spelled parts are read -/

/-- Digits end where a gap or a closing bracket stands. -/
theorem run1_isDigit_append {digits back : List Char} (hdigits : Word Char.isDigit digits)
    (hback : ∀ c ∈ back, isGap c = true) (rest : List Char) : run1 Char.isDigit (digits ++ (back ++ ']' :: rest)) =
      some (digits, back ++ ']' :: rest) := by
  refine run1_append hdigits ?_
  cases back with
  | nil =>
    rintro c ⟨⟩
    decide
  | cons b back =>
    rintro c ⟨⟩
    by_contra hc
    have hgap := isGap_eq_false_of_isDigit (Bool.not_eq_false _ ▸ hc)
    rw [hback b List.mem_cons_self] at hgap
    cases hgap

theorem gap_close {gaps rest : List Char} (hgaps : ∀ c ∈ gaps, isGap c = true) :
    gap (gaps ++ ']' :: rest) = some ((), ']' :: rest) := by
  refine gap_append _ hgaps ?_
  rintro c ⟨⟩
  decide

/-- Brackets around gaps are the mark of an array without a length. -/
theorem arrayMark_gaps {gaps rest : List Char} (hgaps : ∀ c ∈ gaps, isGap c = true) :
    arrayMark ('[' :: (gaps ++ ']' :: rest)) = some (.any, rest) := by
  rw [arrayMark, orElse_eq_some]
  refine .inl ?_
  rw [bind_of_eq_some (mark_cons _ _), bind_of_eq_some (gap_close hgaps), bind_of_eq_some (mark_cons _ _)]
  rfl

/-- Brackets around digits and gaps are the mark of an array with that length. -/
theorem arrayMark_digits {front digits back rest : List Char} {n : Nat} (hdigits : Word Char.isDigit digits)
    (hcount : count64? digits = some n) (hfront : ∀ c ∈ front, isGap c = true)
    (hback : ∀ c ∈ back, isGap c = true) :
    arrayMark ('[' :: (front ++ (digits ++ (back ++ ']' :: rest)))) = some (.exactly n, rest) := by
  have hrun := run1_isDigit_append hdigits hback rest
  obtain ⟨d, ds, rfl, hd⟩ := hdigits.exists_cons
  have hfirst : gap (front ++ (d :: ds ++ (back ++ ']' :: rest))) =
      some ((), d :: ds ++ (back ++ ']' :: rest)) := gap_append _ hfront (by
    rintro c ⟨⟩
    exact isGap_eq_false_of_isDigit hd)
  have hdigit : mark ']' (d :: ds ++ (back ++ ']' :: rest)) = none := mark_eq_none (by
    rintro c ⟨⟩ rfl
    exact absurd hd (by decide))
  have hgiven : given (some n) (back ++ ']' :: rest) = some (n, back ++ ']' :: rest) := rfl
  rw [arrayMark, orElse_eq_some]
  refine .inr ⟨?_, ?_⟩
  · rw [bind_of_eq_some (mark_cons _ _), bind_of_eq_some hfirst, bind_of_eq_none hdigit]
  · rw [bind_of_eq_some (mark_cons _ _), bind_of_eq_some hfirst, bind_of_eq_some hrun, hcount,
      bind_of_eq_some hgiven, bind_of_eq_some (gap_close hback), bind_of_eq_some (mark_cons _ _)]
    rfl

/-- Brackets are read as the mark they are the text of. -/
theorem arrayMark_append {m : ArrayMark Nat} {marks : List Char} (h : Brackets (some m) marks)
    (rest : List Char) : arrayMark (marks ++ rest) = some (m, rest) := by
  cases h with
  | some _ front digits back count gaps =>
    cases m with
    | any =>
      obtain rfl : digits = [] := count
      have htext : '[' :: (front ++ ([] ++ back)) ++ [']'] ++ rest = '[' :: ((front ++ back) ++ ']' :: rest) := by
        simp
      rw [htext]
      exact arrayMark_gaps gaps
    | exactly n =>
      have htext : '[' :: (front ++ (digits ++ back)) ++ [']'] ++ rest =
          '[' :: (front ++ (digits ++ (back ++ ']' :: rest))) := by simp
      rw [htext]
      exact arrayMark_digits count.1 count.2 (fun c hc => gaps c (List.mem_append_left _ hc))
        fun c hc => gaps c (List.mem_append_right _ hc)
    | atMost n => exact absurd count id

end RosSchema.Line.Ros1

import RosSchema.Canonical
import RosSchema.Proofs.Line.Declaration
import RosSchema.Proofs.Number.Text

/-!
# Canonical lines in parts

A canonical line is a type with its marks, a space, a name and what follows the name. No mark is escaped,
but the parts can be told from the line: the first space ends the marks, the last brackets are those of
the array, and the type ends in letters, digits and underscores.
-/

namespace RosSchema.Line

open Ros2 (isTypePart boundText markText MarkDigits)
open Reader (Word isNamePart)
open Text (isBlank trim trimLeft trimRight)

/-! ## Texts cut at a character -/

theorem append_cons_inj_of_first {c : Char} {as bs as' bs' : List Char}
    (h : as ++ c :: bs = as' ++ c :: bs') (hc : c ∉ as) (hc' : c ∉ as') : as = as' ∧ bs = bs' := by
  induction as generalizing as' with
  | nil =>
    cases as' with
    | nil => exact ⟨rfl, (List.cons.inj h).2⟩
    | cons a as' =>
      obtain ⟨rfl, -⟩ := List.cons.inj h
      exact absurd List.mem_cons_self hc'
  | cons a as ih =>
    cases as' with
    | nil =>
      obtain ⟨rfl, -⟩ := List.cons.inj h
      exact absurd List.mem_cons_self hc
    | cons a' as' =>
      obtain ⟨rfl, htail⟩ := List.cons.inj h
      obtain ⟨rfl, rfl⟩ := ih htail (List.not_mem_of_not_mem_cons hc) (List.not_mem_of_not_mem_cons hc')
      exact ⟨rfl, rfl⟩

theorem append_cons_inj_of_last {c : Char} {as bs as' bs' : List Char}
    (h : as ++ c :: bs = as' ++ c :: bs') (hc : c ∉ bs) (hc' : c ∉ bs') : as = as' ∧ bs = bs' := by
  have hrev := congrArg List.reverse h
  simp only [List.reverse_append, List.reverse_cons, List.append_assoc, List.singleton_append] at hrev
  obtain ⟨hb, ha⟩ := append_cons_inj_of_first hrev (by simpa using hc) (by simpa using hc')
  exact ⟨List.reverse_inj.1 ha, List.reverse_inj.1 hb⟩

/-! ## The parts before a name -/

/-- A text without a space and without a line end. -/
def OneWord (cs : List Char) : Prop := ' ' ∉ cs ∧ '\n' ∉ cs

theorem oneWord_of_word {cs : List Char} (h : Word isTypePart cs) : OneWord cs :=
  ⟨fun hm => absurd (h.all _ hm) (by decide), fun hm => absurd (h.all _ hm) (by decide)⟩

theorem OneWord.append {as bs : List Char} (ha : OneWord as) (hb : OneWord bs) : OneWord (as ++ bs) :=
  ⟨fun hm => (List.mem_append.1 hm).elim ha.1 hb.1, fun hm => (List.mem_append.1 hm).elim ha.2 hb.2⟩

/-- The type that a line is written with, or a full name that ends with it after a slash. -/
structure TypeName (type : List Char) : Prop where
  oneWord : OneWord type
  last : ∃ front word, type = front ++ word ∧ Word isTypePart word ∧ (front = [] ∨ '/' ∈ word.head?)

theorem typeName_of_word {type : List Char} (h : Word isTypePart type) : TypeName type :=
  ⟨oneWord_of_word h, [], type, rfl, h, .inl rfl⟩

theorem TypeName.ne_nil {type : List Char} (h : TypeName type) : type ≠ [] := by
  obtain ⟨front, word, rfl, hword, -⟩ := h.last
  simp [hword.ne_nil]

/-- A full name that ends with a type name after a slash is one. -/
theorem TypeName.append {type front : List Char} (h : TypeName type) (hfront : OneWord front) :
    TypeName (front ++ '/' :: type) := by
  have hslash : OneWord ['/'] := ⟨by decide, by decide⟩
  refine ⟨hfront.append (hslash.append h.oneWord), ?_⟩
  obtain ⟨mid, word, rfl, hword, hmid⟩ := h.last
  rcases hmid with rfl | hmid
  · refine ⟨front, '/' :: word, rfl, ⟨List.cons_ne_nil _ _, fun c hc => ?_⟩, .inr rfl⟩
    rcases List.mem_cons.1 hc with rfl | hc
    · decide
    · exact hword.all c hc
  · exact ⟨front ++ '/' :: mid, word, by simp, hword, .inr hmid⟩

/-- The last character of a type name is one of a type. -/
theorem TypeName.last_isTypePart {type : List Char} (h : TypeName type) :
    ∀ c ∈ type.getLast?, isTypePart c = true := by
  obtain ⟨front, word, rfl, hword, -⟩ := h.last
  intro c hc
  rw [List.getLast?_append_of_ne_nil _ hword.ne_nil] at hc
  exact hword.all c (List.mem_of_getLast? hc)

/-- What follows the last mark of a bound in a type name has a slash. -/
theorem TypeName.slash_mem {type rest : List Char} (h : TypeName (type ++ '<' :: rest)) : '/' ∈ rest := by
  obtain ⟨front, word, heq, hword, hfront⟩ := h.last
  have hnot : '<' ∉ word := fun hm => absurd (hword.all _ hm) (by decide)
  rcases List.append_eq_append_iff.1 heq with ⟨mid, rfl, hrest⟩ | ⟨mid, -, rfl⟩
  · cases mid with
    | nil => exact absurd (by rw [← List.nil_append word, ← hrest]; simp) hnot
    | cons c mid =>
      have hhead := hfront.resolve_left (by simp)
      rw [(List.cons.inj hrest).2]
      exact List.mem_append_right _ (List.mem_of_mem_head? hhead)
  · exact absurd (by simp) hnot

def ArrayMark.digits : ArrayMark Nat → ArrayMark (List Char)
  | .any => .any
  | .exactly n => .exactly (Numeral.ofNat n)
  | .atMost n => .atMost (Numeral.ofNat n)

theorem markDigits_digits (m : Option (ArrayMark Nat)) : MarkDigits (m.map ArrayMark.digits) := by
  rcases m with _ | (_ | n | n)
  · trivial
  · trivial
  · exact Numeral.word_ofNat n
  · exact Numeral.word_ofNat n

theorem oneWord_ofNat (n : Nat) : OneWord (Numeral.ofNat n) := by
  have hdigits := (Numeral.word_ofNat n).all
  exact ⟨fun hm => absurd (hdigits _ hm) (by decide), fun hm => absurd (hdigits _ hm) (by decide)⟩

theorem oneWord_boundText (bound : Option Nat) : OneWord (boundText (bound.map Numeral.ofNat)) := by
  cases bound with
  | none => exact ⟨List.not_mem_nil, List.not_mem_nil⟩
  | some n =>
    have hmark : OneWord ['<', '='] := ⟨by decide, by decide⟩
    exact hmark.append (oneWord_ofNat n)

theorem oneWord_markText (array : Option (ArrayMark Nat)) :
    OneWord (markText (array.map ArrayMark.digits)) := by
  have hclose : OneWord [']'] := ⟨by decide, by decide⟩
  rcases array with _ | (_ | n | n)
  · exact ⟨List.not_mem_nil, List.not_mem_nil⟩
  · exact ⟨by decide, by decide⟩
  · have hopen : OneWord ['['] := ⟨by decide, by decide⟩
    exact (hopen.append (oneWord_ofNat n)).append hclose
  · have hopen : OneWord ['[', '<', '='] := ⟨by decide, by decide⟩
    exact (hopen.append (oneWord_ofNat n)).append hclose

theorem not_mem_ofNat {c : Char} (h : c.isDigit = false) (n : Nat) : c ∉ Numeral.ofNat n := by
  intro hm
  rw [(Numeral.word_ofNat n).all c hm] at h
  cases h

theorem ofNat_inj {m n : Nat} (h : Numeral.ofNat m = Numeral.ofNat n) : m = n := by
  rw [← Numeral.natOfDigits_ofNat m, h, Numeral.natOfDigits_ofNat]

/-- An array mark is a bracket and a text without one that ends with the closing bracket. -/
theorem exists_markText (m : ArrayMark Nat) :
    ∃ body, markText (some m.digits) = '[' :: (body ++ [']']) ∧ '[' ∉ body := by
  cases m with
  | any => exact ⟨[], rfl, List.not_mem_nil⟩
  | exactly n => exact ⟨Numeral.ofNat n, rfl, not_mem_ofNat (by decide) n⟩
  | atMost n =>
    refine ⟨'<' :: '=' :: Numeral.ofNat n, rfl, ?_⟩
    simp [not_mem_ofNat (c := '[') (by decide) n]

theorem markText_inj {m m' : ArrayMark Nat} (h : markText (some m.digits) = markText (some m'.digits)) :
    m = m' := by
  have hdigit (n : Nat) (rest : List Char) : (Numeral.ofNat n ++ [']']) ≠ ']' :: rest ∧
      (Numeral.ofNat n ++ [']']) ≠ '<' :: rest := by
    obtain ⟨c, cs, hcs, hc⟩ := (Numeral.word_ofNat n).exists_cons
    rw [hcs]
    constructor <;>
      · intro heq
        rw [(List.cons.inj heq).1] at hc
        exact absurd hc (by decide)
  cases m <;> cases m' <;> simp only [ArrayMark.digits, markText, List.cons_append, List.cons.injEq,
    true_and] at h
  · rfl
  · exact absurd h.symm (hdigit _ _).1
  · exact absurd h.1 (by decide)
  · exact absurd h (hdigit _ _).1
  · rw [ofNat_inj (List.append_cancel_right h)]
  · exact absurd h (hdigit _ _).2
  · exact absurd h.1 (by decide)
  · exact absurd h.symm (hdigit _ _).2
  · rw [ofNat_inj (List.append_cancel_right h)]

/-- A bound can be told from the type before it. -/
theorem boundText_inj {type type' : List Char} (h : TypeName type) (h' : TypeName type')
    {bound bound' : Option Nat} (heq : type ++ boundText (bound.map Numeral.ofNat) =
      type' ++ boundText (bound'.map Numeral.ofNat)) : type = type' ∧ bound = bound' := by
  have hangle (n : Nat) : '<' ∉ '=' :: Numeral.ofNat n := by
    simp [not_mem_ofNat (c := '<') (by decide) n]
  have hslash (n : Nat) : '/' ∉ '=' :: Numeral.ofNat n := by
    simp [not_mem_ofNat (c := '/') (by decide) n]
  cases bound with
  | none =>
    cases bound' with
    | none => exact ⟨by simpa [boundText] using heq, rfl⟩
    | some n =>
      rw [Option.map_none, boundText, List.append_nil] at heq
      exact absurd (TypeName.slash_mem (heq ▸ h)) (hslash n)
  | some m =>
    cases bound' with
    | none =>
      rw [Option.map_none, boundText, List.append_nil] at heq
      exact absurd (TypeName.slash_mem (heq ▸ h')) (hslash m)
    | some n =>
      obtain ⟨rfl, hdigits⟩ := append_cons_inj_of_last heq (hangle m) (hangle n)
      exact ⟨rfl, by rw [ofNat_inj (List.cons.inj hdigits).2]⟩

/-- Before an array mark stands no closing bracket. -/
theorem getLast?_boundText {type : List Char} (h : TypeName type) (bound : Option Nat) :
    (type ++ boundText (bound.map Numeral.ofNat)).getLast? ≠ some ']' := by
  intro hlast
  cases bound with
  | none =>
    rw [Option.map_none, boundText, List.append_nil] at hlast
    exact absurd (h.last_isTypePart _ hlast) (by decide)
  | some n =>
    have hne := (Numeral.word_ofNat n).ne_nil
    rw [Option.map_some, boundText, List.getLast?_append_of_ne_nil _ (List.cons_ne_nil _ _),
      List.getLast?_cons_cons, List.getLast?_cons_of_ne_nil hne] at hlast
    exact not_mem_ofNat (by decide) n (List.mem_of_getLast? hlast)

/-- The type, the bound and the array mark can be told from the text before a name. -/
theorem marks_inj {type type' : List Char} (h : TypeName type) (h' : TypeName type')
    {bound bound' : Option Nat} {array array' : Option (ArrayMark Nat)}
    (heq : type ++ boundText (bound.map Numeral.ofNat) ++ markText (array.map ArrayMark.digits) =
      type' ++ boundText (bound'.map Numeral.ofNat) ++ markText (array'.map ArrayMark.digits)) :
    type = type' ∧ bound = bound' ∧ array = array' := by
  have hclose (cs body : List Char) : (cs ++ '[' :: (body ++ [']'])).getLast? = some ']' := by
    rw [← List.cons_append, ← List.append_assoc, List.getLast?_concat]
  cases array with
  | none =>
    cases array' with
    | none =>
      obtain ⟨rfl, rfl⟩ := boundText_inj h h' (by simpa [markText] using heq)
      exact ⟨rfl, rfl, rfl⟩
    | some m =>
      obtain ⟨body, hbody, -⟩ := exists_markText m
      rw [Option.map_none, markText, List.append_nil, Option.map_some, hbody] at heq
      exact absurd (heq ▸ hclose _ body) (getLast?_boundText h bound)
  | some m =>
    obtain ⟨body, hbody, hnot⟩ := exists_markText m
    cases array' with
    | none =>
      rw [Option.map_none, markText, List.append_nil, Option.map_some, hbody] at heq
      exact absurd (heq ▸ hclose _ body) (getLast?_boundText h' bound')
    | some m' =>
      obtain ⟨body', hbody', hnot'⟩ := exists_markText m'
      rw [Option.map_some, Option.map_some, hbody, hbody'] at heq
      obtain ⟨hfront, htext⟩ := append_cons_inj_of_last heq (by simpa using hnot) (by simpa using hnot')
      obtain ⟨rfl, rfl⟩ := boundText_inj h h' hfront
      have hmark : m = m' := markText_inj (by rw [hbody, hbody', htext])
      exact ⟨rfl, rfl, by rw [hmark]⟩

/-! ## Whole lines -/

/-- A line with the counts of a field, of which nothing is told what follows the name. -/
def lineOf (type : List Char) (bound : Option Nat) (array : Option (ArrayMark Nat))
    (name tail : List Char) : List Char :=
  type ++ (boundText (bound.map Numeral.ofNat) ++
    (markText (array.map ArrayMark.digits) ++ ([' '] ++ (name ++ tail))))

theorem lineOf_eq (type : List Char) (bound : Option Nat) (array : Option (ArrayMark Nat))
    (name tail : List Char) : lineOf type bound array name tail =
      type ++ boundText (bound.map Numeral.ofNat) ++ markText (array.map ArrayMark.digits) ++
        ' ' :: (name ++ tail) := by
  simp [lineOf]

theorem oneWord_marks {type : List Char} (h : OneWord type) (bound : Option Nat)
    (array : Option (ArrayMark Nat)) :
    OneWord (type ++ boundText (bound.map Numeral.ofNat) ++ markText (array.map ArrayMark.digits)) :=
  (h.append (oneWord_boundText bound)).append (oneWord_markText array)

/-- The parts can be told from a line. -/
theorem lineOf_inj {type type' name name' tail tail' : List Char} {bound bound' : Option Nat}
    {array array' : Option (ArrayMark Nat)} (h : TypeName type) (h' : TypeName type')
    (hname : Word isNamePart name) (hname' : Word isNamePart name')
    (htail : ∀ c ∈ tail.head?, c = ' ') (htail' : ∀ c ∈ tail'.head?, c = ' ')
    (heq : lineOf type bound array name tail = lineOf type' bound' array' name' tail') :
    type = type' ∧ bound = bound' ∧ array = array' ∧ name = name' ∧ tail = tail' := by
  have hsplit {name tail : List Char} (hname : Word isNamePart name) (htail : ∀ c ∈ tail.head?, c = ' ') :
      (name ++ tail).takeWhile isNamePart = name ∧ (name ++ tail).dropWhile isNamePart = tail := by
    refine Reader.splits_iff.1 ⟨rfl, hname.all, fun c hc => ?_⟩
    rw [htail c hc]
    decide
  rw [lineOf_eq, lineOf_eq] at heq
  obtain ⟨hmarks, hrest⟩ := append_cons_inj_of_first heq (oneWord_marks h.oneWord bound array).1
    (oneWord_marks h'.oneWord bound' array').1
  obtain ⟨rfl, rfl, rfl⟩ := marks_inj h h' hmarks
  have hboth := hsplit hname htail
  rw [hrest, (hsplit hname' htail').1, (hsplit hname' htail').2] at hboth
  exact ⟨rfl, rfl, rfl, hboth.1.symm, hboth.2.symm⟩

/-- Blanks at the end of a line stand after its name. -/
theorem trim_lineOf {type name : List Char} (hne : type ≠ []) (hhead : ∀ c ∈ type.head?, isBlank c = false)
    (hname : Word isNamePart name) (bound : Option Nat) (array : Option (ArrayMark Nat))
    (tail : List Char) :
    trim (lineOf type bound array name tail) = lineOf type bound array name (trimRight tail) := by
  have hleft : trimLeft (lineOf type bound array name tail) = lineOf type bound array name tail :=
    Text.trimLeft_of_head fun c hc => hhead c (by
      rwa [lineOf, List.head?_append_of_ne_nil _ hne] at hc)
  obtain ⟨front, last, rfl⟩ : ∃ front last, name = front ++ [last] :=
    ⟨_, _, (List.dropLast_concat_getLast hname.ne_nil).symm⟩
  have hlast : isBlank last = false :=
    Ros2.isBlank_eq_false_of_isNamePart (hname.all last (by simp))
  have hsplit (tail : List Char) : lineOf type bound array (front ++ [last]) tail =
      (type ++ (boundText (bound.map Numeral.ofNat) ++
        (markText (array.map ArrayMark.digits) ++ ([' '] ++ front)))) ++ last :: tail := by
    simp [lineOf]
  rw [trim, hleft, hsplit, hsplit, Text.trimRight_append_cons hlast]

structure IsRow (line : List Char) : Prop where
  newline : '\n' ∉ line
  space : ' ' ∈ line

theorem IsRow.ne_nil {line : List Char} (h : IsRow line) : line ≠ [] := List.ne_nil_of_mem h.space

theorem IsRow.ne_divider {line : List Char} (h : IsRow line) : line ≠ divider := by
  rintro rfl
  exact absurd h.space (by decide)

theorem isRow_lineOf {type name tail : List Char} (htype : OneWord type) (hname : Word isNamePart name)
    (htail : '\n' ∉ tail) (bound : Option Nat) (array : Option (ArrayMark Nat)) :
    IsRow (lineOf type bound array name tail) := by
  rw [lineOf_eq]
  refine ⟨fun hm => ?_, by simp⟩
  rcases List.mem_append.1 hm with hm | hm
  · exact (oneWord_marks htype bound array).2 hm
  · rcases List.mem_append.1 ((List.mem_cons.1 hm).resolve_left (by decide)) with hm | hm
    · exact absurd (hname.all _ hm) (by decide)
    · exact htail hm

end RosSchema.Line

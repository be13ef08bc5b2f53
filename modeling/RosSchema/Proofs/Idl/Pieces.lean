import RosSchema.Proofs.Idl.Comments
import RosSchema.Proofs.Literal.Escapes

/-!
# Documents in pieces

A document is read as a sequence of pieces: comments of both kinds, strings, and single characters of code.
Every text has one such reading. `stripComments_exact` says that taking out comments takes out the pieces
that are comments, a space for each that stands between marks, and that what is left is read as the pieces
that are left.
-/

namespace RosSchema.Idl

open RosSchema.Literal (Escaped escapes_induction lengthToQuote? lengthToQuote?_eq_some)

inductive Piece where
  | code (c : Char)
  | line (text : List Char)
  | block (text : List Char) (closed : Bool)
  | string (text : List Char) (closed : Bool)
  deriving DecidableEq, Repr

namespace Piece

def text : Piece → List Char
  | code c => [c]
  | line text => '/' :: '/' :: text
  | block text closed => '/' :: '*' :: text ++ if closed then ['*', '/'] else []
  | string text closed => '"' :: text ++ if closed then ['"'] else []

/-- The pieces that are left of a piece without comments. -/
def kept : Piece → List Piece
  | line _ => []
  | block _ _ => [code ' ']
  | piece => [piece]

end Piece

def NoBlockEnd (text : List Char) : Prop := ¬ ['*', '/'] <:+: text

def NoStringEnd (text : List Char) : Prop :=
  ∀ front back, text = front ++ '"' :: back → ¬ Escaped (· == '"') front

inductive ReadAs : List Char → List Piece → Prop where
  | nil : ReadAs [] []
  | code {c : Char} {rest : List Char} {pieces : List Piece} (alone : Stays .code c rest)
      (others : ReadAs rest pieces) : ReadAs (c :: rest) (.code c :: pieces)
  | line {text rest : List Char} {pieces : List Piece} (inside : '\n' ∉ text)
      (stop : ∀ c ∈ rest.head?, c = '\n') (others : ReadAs rest pieces) :
      ReadAs ('/' :: '/' :: (text ++ rest)) (.line text :: pieces)
  | block {text rest : List Char} {pieces : List Piece} (inside : NoBlockEnd text)
      (others : ReadAs rest pieces) :
      ReadAs ('/' :: '*' :: (text ++ '*' :: '/' :: rest)) (.block text true :: pieces)
  | openBlock {text : List Char} (inside : NoBlockEnd text) : ReadAs ('/' :: '*' :: text) [.block text false]
  | string {text rest : List Char} {pieces : List Piece} (inside : Escaped (· == '"') text)
      (others : ReadAs rest pieces) : ReadAs ('"' :: (text ++ '"' :: rest)) (.string text true :: pieces)
  | openString {text : List Char} (inside : NoStringEnd text) : ReadAs ('"' :: text) [.string text false]

/-! ## Comments and strings to their ends -/

theorem strip_lineComment {text rest : List Char} (inside : '\n' ∉ text) (stop : ∀ c ∈ rest.head?, c = '\n') :
    strip .lineComment (text ++ rest) = strip .code rest := by
  induction text with
  | nil =>
    cases rest with
    | nil => simp [strip]
    | cons c rest =>
      obtain rfl := stop c rfl
      have hstays : Stays .code '\n' rest := by simp [Stays]
      rw [List.nil_append, strip_cons hstays, strip]
      rfl
  | cons c text ih =>
    obtain ⟨hc, htext⟩ := List.ne_and_not_mem_of_not_mem_cons inside
    rw [List.cons_append, strip_cons (show Stays .lineComment c _ from Ne.symm hc), ih htext]
    rfl

theorem NoBlockEnd.tail {c : Char} {text : List Char} (h : NoBlockEnd (c :: text)) : NoBlockEnd text :=
  fun hin => h (List.infix_cons hin)

/-- A character of a block comment before its end counts alone. -/
theorem NoBlockEnd.stays {c : Char} {text : List Char} (h : NoBlockEnd (c :: text)) (rest : List Char)
    (hrest : rest.head? ≠ some '/') : Stays .blockComment c (text ++ rest) := by
  intro hc hhead
  subst hc
  cases text with
  | nil => exact hrest hhead
  | cons d text =>
    obtain rfl : d = '/' := by simpa using hhead
    exact h ⟨[], text, rfl⟩

theorem strip_blockComment {text : List Char} (inside : NoBlockEnd text) (rest : List Char) :
    strip .blockComment (text ++ '*' :: '/' :: rest) = strip .code rest := by
  induction text with
  | nil => rw [List.nil_append, strip]
  | cons c text ih =>
    rw [List.cons_append, strip_cons (inside.stays _ (by simp)), ih inside.tail]
    rfl

theorem strip_openBlock {text : List Char} (inside : NoBlockEnd text) : strip .blockComment text = [] := by
  induction text with
  | nil => rw [strip]
  | cons c text ih =>
    have hstays := inside.stays [] (by simp)
    rw [List.append_nil] at hstays
    rw [strip_cons hstays, ih inside.tail]
    rfl

theorem strip_string {text : List Char} (inside : Escaped (· == '"') text) (rest : List Char) :
    strip .string (text ++ '"' :: rest) = text ++ '"' :: strip .code rest := by
  induction inside with
  | nil => rw [List.nil_append, strip]; rfl
  | pair c _ ih => rw [List.cons_append, List.cons_append, strip, ih]; rfl
  | @char c cs plain inside _ ih =>
    have hstays : Stays .string c (cs ++ '"' :: rest) := ⟨by simpa using inside, fun hc => absurd hc plain⟩
    rw [List.cons_append, strip_cons hstays, ih]
    rfl

theorem NoStringEnd.of_append {front cs : List Char} (hfront : Escaped (· == '"') front)
    (h : NoStringEnd (front ++ cs)) : NoStringEnd cs := by
  intro inner back heq hinner
  exact h (front ++ inner) back (by rw [heq, List.append_assoc]) (hfront.append hinner)

theorem strip_openString {text : List Char} (inside : NoStringEnd text) : strip .string text = text := by
  induction text using escapes_induction with
  | nil => rw [strip]
  | dangling => simp [strip]
  | pair c cs ih => rw [strip, ih (.of_append (.pair c .nil) inside)]
  | char c cs plain ih =>
    have hquote : c ≠ '"' := by
      rintro rfl
      exact inside [] cs rfl .nil
    have hstays : Stays .string c cs := ⟨hquote, fun hc => absurd hc plain⟩
    have hfront : Escaped (· == '"') [c] := .char plain (by simpa using hquote) .nil
    rw [strip_cons hstays, ih (.of_append hfront inside)]
    rfl

/-- What is left of the pieces of a text is what is left of the text. -/
theorem ReadAs.strip_eq {cs : List Char} {pieces : List Piece} (h : ReadAs cs pieces) :
    strip .code cs = (pieces.flatMap Piece.kept).flatMap Piece.text := by
  induction h with
  | nil => rw [strip]; rfl
  | code alone _ ih => rw [strip_cons alone, ih]; rfl
  | line inside stop _ ih => rw [strip, strip_lineComment inside stop, ih]; rfl
  | block inside _ ih => rw [strip, strip_blockComment inside, ih]; rfl
  | openBlock inside => rw [strip, strip_openBlock inside]; rfl
  | string inside _ ih => rw [strip, strip_string inside, ih]; simp [Piece.kept, Piece.text]
  | openString inside => rw [strip, strip_openString inside]; simp [Piece.kept, Piece.text]

theorem ReadAs.text_eq {cs : List Char} {pieces : List Piece} (h : ReadAs cs pieces) :
    pieces.flatMap Piece.text = cs := by
  induction h <;> simp_all [Piece.text]

/-- What is left is read as the pieces that are left. -/
theorem ReadAs.kept {cs : List Char} {pieces : List Piece} (h : ReadAs cs pieces) :
    ReadAs (strip .code cs) (pieces.flatMap Piece.kept) := by
  induction h with
  | nil => rw [strip]; exact .nil
  | @code c rest _ alone _ ih =>
    have hstays : Stays .code c (strip .code rest) := by
      refine ⟨alone.1, fun hc => ?_⟩
      rw [head?_strip_code (alone.2 hc).1]
      exact alone.2 hc
    rw [strip_cons alone]
    exact .code hstays ih
  | line inside stop _ ih =>
    rw [strip, strip_lineComment inside stop]
    exact ih
  | block inside _ ih =>
    rw [strip, strip_blockComment inside]
    exact .code (by simp [Stays]) ih
  | openBlock inside =>
    rw [strip, strip_openBlock inside]
    exact .code (by simp [Stays]) .nil
  | string inside _ ih =>
    rw [strip, strip_string inside]
    exact .string inside ih
  | openString inside =>
    rw [strip, strip_openString inside]
    exact .openString inside

/-! ## One reading of each text -/

/-- A character of a text opens a comment or a string, or it counts alone. -/
theorem code_cases (c : Char) (cs : List Char) :
    (∃ rest, c = '/' ∧ cs = '/' :: rest) ∨ (∃ rest, c = '/' ∧ cs = '*' :: rest) ∨ c = '"' ∨ Stays .code c cs := by
  by_cases hline : c = '/' ∧ cs.head? = some '/'
  · exact .inl (by simpa [List.head?_eq_some_iff] using hline)
  by_cases hblock : c = '/' ∧ cs.head? = some '*'
  · exact .inr (.inl (by simpa [List.head?_eq_some_iff] using hblock))
  by_cases hquote : c = '"'
  · exact .inr (.inr (.inl hquote))
  · exact .inr (.inr (.inr ⟨hquote, fun hc => ⟨fun h => hline ⟨hc, h⟩, fun h => hblock ⟨hc, h⟩⟩⟩))

theorem exists_lineEnd (cs : List Char) :
    ∃ text rest, cs = text ++ rest ∧ '\n' ∉ text ∧ ∀ c ∈ rest.head?, c = '\n' := by
  obtain ⟨heq, inside, stop⟩ : Reader.Splits (· != '\n') cs _ _ := Reader.splits_iff.2 ⟨rfl, rfl⟩
  exact ⟨_, _, heq, fun hm => by simpa using inside _ hm, fun c hc => by simpa using stop c hc⟩

theorem lineEnd_unique {text text' rest rest' : List Char} (inside : '\n' ∉ text)
    (stop : ∀ c ∈ rest.head?, c = '\n') (inside' : '\n' ∉ text') (stop' : ∀ c ∈ rest'.head?, c = '\n')
    (heq : text ++ rest = text' ++ rest') : text = text' ∧ rest = rest' := by
  have split {text rest : List Char} (inside : '\n' ∉ text) (stop : ∀ c ∈ rest.head?, c = '\n') :
      Reader.Splits (· != '\n') (text ++ rest) text rest := by
    refine ⟨rfl, fun c hc => ?_, fun c hc => by simpa using stop c hc⟩
    simpa using fun h : c = '\n' => inside (h ▸ hc)
  exact (split inside stop).unique (heq ▸ split inside' stop')

theorem not_noBlockEnd_append (text rest : List Char) : ¬ NoBlockEnd (text ++ '*' :: '/' :: rest) :=
  fun h => h ⟨text, rest, by simp⟩

/-- A text without the end of a block comment, or up to the first one. -/
theorem exists_blockEnd (cs : List Char) :
    NoBlockEnd cs ∨ ∃ text rest, cs = text ++ '*' :: '/' :: rest ∧ NoBlockEnd text := by
  induction cs with
  | nil => exact .inl (by simp [NoBlockEnd])
  | cons c cs ih =>
    by_cases hend : c = '*' ∧ cs.head? = some '/'
    · obtain ⟨rfl, hhead⟩ := hend
      obtain ⟨rest, rfl⟩ := List.head?_eq_some_iff.1 hhead
      exact .inr ⟨[], rest, rfl, by simp [NoBlockEnd]⟩
    -- no end starts at the first character
    have hcons {text : List Char} (h : NoBlockEnd text) (hhead : text.head? = some '/' → cs.head? = some '/') :
        NoBlockEnd (c :: text) := by
      intro hin
      rcases List.infix_cons_iff.1 hin with ⟨rest, hrest⟩ | hin
      · obtain ⟨rfl, rfl⟩ := List.cons.inj hrest
        exact hend ⟨rfl, hhead rfl⟩
      · exact h hin
    rcases ih with h | ⟨text, rest, rfl, h⟩
    · exact .inl (hcons h id)
    · refine .inr ⟨c :: text, rest, rfl, hcons h fun hhead => ?_⟩
      rw [List.head?_append, hhead]
      rfl

theorem blockEnd_unique {text text' rest rest' : List Char} (h : NoBlockEnd text) (h' : NoBlockEnd text')
    (heq : text ++ '*' :: '/' :: rest = text' ++ '*' :: '/' :: rest') : text = text' ∧ rest = rest' := by
  have hnil {text more rest rest' : List Char} (h : NoBlockEnd (text ++ more))
      (heq : '*' :: '/' :: rest = more ++ '*' :: '/' :: rest') : more = [] := by
    rcases more with _ | ⟨c, _ | ⟨d, more⟩⟩
    · rfl
    · cases heq
    · cases heq
      exact absurd h (not_noBlockEnd_append text more)
  rcases List.append_eq_append_iff.1 heq with ⟨more, rfl, hrest⟩ | ⟨more, rfl, hrest⟩
  · obtain rfl := hnil h' hrest
    cases hrest
    simp
  · obtain rfl := hnil h hrest
    cases hrest
    simp

/-- The end of a string. -/
theorem exists_stringEnd (cs : List Char) :
    NoStringEnd cs ∨ ∃ text rest, cs = text ++ '"' :: rest ∧ Escaped (· == '"') text := by
  by_cases h : ∃ text rest, cs = text ++ '"' :: rest ∧ Escaped (· == '"') text
  · exact .inr h
  · exact .inl fun front back heq hfront => h ⟨front, back, heq, hfront⟩

theorem stringEnd_unique {text text' rest rest' : List Char} (h : Escaped (· == '"') text)
    (h' : Escaped (· == '"') text') (heq : text ++ '"' :: rest = text' ++ '"' :: rest') :
    text = text' ∧ rest = rest' := by
  have hplain : '"' ≠ '\\' := by decide
  have hlength : lengthToQuote? '"' (text ++ '"' :: rest) = some (text.length + 1) :=
    (lengthToQuote?_eq_some hplain).2 ⟨_, _, rfl, h, rfl⟩
  rw [heq, (lengthToQuote?_eq_some hplain).2 ⟨_, _, rfl, h', rfl⟩] at hlength
  obtain ⟨rfl, hrest⟩ := List.append_inj heq (by simpa using hlength.symm)
  exact ⟨rfl, (List.cons.inj hrest).2⟩

section Inversion

variable {cs : List Char} {pieces : List Piece}

theorem ReadAs.of_line (h : ReadAs ('/' :: '/' :: cs) pieces) : ∃ text rest others, cs = text ++ rest ∧
    '\n' ∉ text ∧ (∀ c ∈ rest.head?, c = '\n') ∧ ReadAs rest others ∧ pieces = .line text :: others := by
  generalize htext : '/' :: '/' :: cs = whole at h
  cases h with
  | nil => cases htext
  | code alone _ =>
    cases htext
    exact absurd rfl (alone.2 rfl).1
  | line inside stop others =>
    cases htext
    exact ⟨_, _, _, rfl, inside, stop, others, rfl⟩
  | _ => cases htext

theorem ReadAs.of_block (h : ReadAs ('/' :: '*' :: cs) pieces) :
    (∃ text rest others, cs = text ++ '*' :: '/' :: rest ∧ NoBlockEnd text ∧ ReadAs rest others ∧
      pieces = .block text true :: others) ∨ NoBlockEnd cs ∧ pieces = [.block cs false] := by
  generalize htext : '/' :: '*' :: cs = whole at h
  cases h with
  | code alone _ =>
    cases htext
    exact absurd rfl (alone.2 rfl).2
  | block inside others =>
    cases htext
    exact .inl ⟨_, _, _, rfl, inside, others, rfl⟩
  | openBlock inside =>
    cases htext
    exact .inr ⟨inside, rfl⟩
  | _ => cases htext

theorem ReadAs.of_string (h : ReadAs ('"' :: cs) pieces) :
    (∃ text rest others, cs = text ++ '"' :: rest ∧ Escaped (· == '"') text ∧ ReadAs rest others ∧
      pieces = .string text true :: others) ∨ NoStringEnd cs ∧ pieces = [.string cs false] := by
  generalize htext : '"' :: cs = whole at h
  cases h with
  | code alone _ =>
    cases htext
    exact absurd rfl alone.1
  | string inside others =>
    cases htext
    exact .inl ⟨_, _, _, rfl, inside, others, rfl⟩
  | openString inside =>
    cases htext
    exact .inr ⟨inside, rfl⟩
  | _ => cases htext

theorem ReadAs.of_code {c : Char} (alone : Stays .code c cs) (h : ReadAs (c :: cs) pieces) :
    ∃ others, ReadAs cs others ∧ pieces = .code c :: others := by
  generalize htext : c :: cs = whole at h
  cases h with
  | nil => cases htext
  | code _ others =>
    cases htext
    exact ⟨_, others, rfl⟩
  | line _ _ _ =>
    cases htext
    exact absurd rfl (alone.2 rfl).1
  | block _ _ =>
    cases htext
    exact absurd rfl (alone.2 rfl).2
  | openBlock _ =>
    cases htext
    exact absurd rfl (alone.2 rfl).2
  | string _ _ =>
    cases htext
    exact absurd rfl alone.1
  | openString _ =>
    cases htext
    exact absurd rfl alone.1

end Inversion

section Unique

variable {rest : List Char} (unique : ∃! pieces, ReadAs rest pieces)
include unique

theorem existsUnique_code {c : Char} (alone : Stays .code c rest) : ∃! pieces, ReadAs (c :: rest) pieces := by
  obtain ⟨pieces, h, unique⟩ := unique
  refine ⟨_, .code alone h, fun others h' => ?_⟩
  obtain ⟨others, hothers, rfl⟩ := h'.of_code alone
  rw [unique others hothers]

theorem existsUnique_line {text : List Char} (inside : '\n' ∉ text) (stop : ∀ c ∈ rest.head?, c = '\n') :
    ∃! pieces, ReadAs ('/' :: '/' :: (text ++ rest)) pieces := by
  obtain ⟨pieces, h, unique⟩ := unique
  refine ⟨_, .line inside stop h, fun others h' => ?_⟩
  obtain ⟨text', rest', others, heq, inside', stop', hothers, rfl⟩ := h'.of_line
  obtain ⟨rfl, rfl⟩ := lineEnd_unique inside stop inside' stop' heq
  rw [unique others hothers]

theorem existsUnique_block {text : List Char} (inside : NoBlockEnd text) :
    ∃! pieces, ReadAs ('/' :: '*' :: (text ++ '*' :: '/' :: rest)) pieces := by
  obtain ⟨pieces, h, unique⟩ := unique
  refine ⟨_, .block inside h, fun others h' => ?_⟩
  rcases h'.of_block with ⟨text', rest', others, heq, inside', hothers, rfl⟩ | ⟨inside', -⟩
  · obtain ⟨rfl, rfl⟩ := blockEnd_unique inside inside' heq
    rw [unique others hothers]
  · exact absurd inside' (not_noBlockEnd_append text rest)

theorem existsUnique_string {text : List Char} (inside : Escaped (· == '"') text) :
    ∃! pieces, ReadAs ('"' :: (text ++ '"' :: rest)) pieces := by
  obtain ⟨pieces, h, unique⟩ := unique
  refine ⟨_, .string inside h, fun others h' => ?_⟩
  rcases h'.of_string with ⟨text', rest', others, heq, inside', hothers, rfl⟩ | ⟨inside', -⟩
  · obtain ⟨rfl, rfl⟩ := stringEnd_unique inside inside' heq
    rw [unique others hothers]
  · exact absurd inside (inside' text rest rfl)

end Unique

theorem existsUnique_openBlock {text : List Char} (inside : NoBlockEnd text) :
    ∃! pieces, ReadAs ('/' :: '*' :: text) pieces := by
  refine ⟨_, .openBlock inside, fun others h' => ?_⟩
  rcases h'.of_block with ⟨text', rest, others, rfl, -⟩ | ⟨-, rfl⟩
  · exact absurd inside (not_noBlockEnd_append text' rest)
  · rfl

theorem existsUnique_openString {text : List Char} (inside : NoStringEnd text) :
    ∃! pieces, ReadAs ('"' :: text) pieces := by
  refine ⟨_, .openString inside, fun others h' => ?_⟩
  rcases h'.of_string with ⟨text', rest, others, rfl, inside', -⟩ | ⟨-, rfl⟩
  · exact absurd inside' (inside text' rest rfl)
  · rfl

/-- Every text is read as pieces in one way. -/
theorem existsUnique_readAs (cs : List Char) : ∃! pieces, ReadAs cs pieces := by
  generalize hn : cs.length = n
  induction n using Nat.strong_induction_on generalizing cs with
  | _ n ih =>
    have shorter {rest : List Char} (h : rest.length < cs.length) : ∃! pieces, ReadAs rest pieces :=
      ih rest.length (hn ▸ h) rest rfl
    cases cs with
    | nil => exact ⟨[], .nil, fun others h => by cases h; rfl⟩
    | cons c cs =>
      rcases code_cases c cs with ⟨cs, rfl, rfl⟩ | ⟨cs, rfl, rfl⟩ | rfl | alone
      · obtain ⟨text, rest, rfl, inside, stop⟩ := exists_lineEnd cs
        exact existsUnique_line (shorter (by simp; omega)) inside stop
      · rcases exists_blockEnd cs with inside | ⟨text, rest, rfl, inside⟩
        · exact existsUnique_openBlock inside
        · exact existsUnique_block (shorter (by simp; omega)) inside
      · rcases exists_stringEnd cs with inside | ⟨text, rest, rfl, inside⟩
        · exact existsUnique_openString inside
        · exact existsUnique_string (shorter (by simp; omega)) inside
      · exact existsUnique_code (shorter (by simp)) alone

/-! ## Marks of comments in what is left -/

/-- The characters from one place of a text to another stand in one of its strings. -/
def WithinString (pieces : List Piece) (start stop : Nat) : Prop :=
  ∃ before text closed after, pieces = before ++ .string text closed :: after ∧
    (before.flatMap Piece.text).length ≤ start ∧
    stop ≤ (before.flatMap Piece.text).length + (Piece.string text closed).text.length

theorem WithinString.cons {pieces : List Piece} {start stop : Nat} (h : WithinString pieces start stop)
    (piece : Piece) : WithinString (piece :: pieces) (piece.text.length + start) (piece.text.length + stop) := by
  obtain ⟨before, text, closed, after, rfl, hstart, hstop⟩ := h
  refine ⟨piece :: before, text, closed, after, rfl, ?_, ?_⟩ <;>
    · rw [List.flatMap_cons, List.length_append]
      omega

/-- Where no piece is a comment, the marks of comments stand in strings. -/
theorem ReadAs.withinString {cs : List Char} {pieces : List Piece} (h : ReadAs cs pieces)
    (plain : ∀ piece ∈ pieces, piece.kept = [piece]) {front back : List Char} {c : Char} (hc : c = '/' ∨ c = '*')
    (heq : cs = front ++ '/' :: c :: back) : WithinString pieces front.length (front.length + 2) := by
  induction h generalizing front with
  | nil => simp at heq
  | @code d rest _ alone _ ih =>
    rw [List.forall_mem_cons] at plain
    cases front with
    | nil =>
      obtain ⟨rfl, rfl⟩ := List.cons.inj heq
      rcases hc with rfl | rfl
      · exact absurd rfl (alone.2 rfl).1
      · exact absurd rfl (alone.2 rfl).2
    | cons e front =>
      have hin := (ih plain.2 (List.cons.inj heq).2).cons (.code d)
      simpa [Piece.text, Nat.add_comm, Nat.add_left_comm] using hin
  | line _ _ _ _ => simp [Piece.kept] at plain
  | block _ _ _ => simp [Piece.kept] at plain
  | openBlock _ => simp [Piece.kept] at plain
  | @string text rest pieces inside _ ih =>
    rw [List.forall_mem_cons] at plain
    have hcons : '"' :: (text ++ '"' :: rest) = (Piece.string text true).text ++ rest := by simp [Piece.text]
    rw [hcons] at heq
    rcases List.append_eq_append_iff.1 heq with ⟨more, rfl, hrest⟩ | ⟨more, htext, hrest⟩
    · rw [List.length_append, Nat.add_assoc]
      exact (ih plain.2 hrest).cons _
    · rcases more with _ | ⟨d, _ | ⟨e, more⟩⟩
      · have hin := (ih plain.2 (show rest = [] ++ '/' :: c :: back from hrest.symm)).cons (.string text true)
        rw [htext, List.append_nil] at hin
        exact hin
      · -- the last character of the string is its quote
        have hlast : '"' :: text ++ ['"'] = front ++ [d] := htext
        obtain ⟨-, hd⟩ := List.append_inj' hlast rfl
        cases hd
        cases hrest
      · refine ⟨[], text, true, pieces, rfl, Nat.zero_le _, ?_⟩
        rw [htext]
        simp
  | @openString text inside =>
    refine ⟨[], text, false, [], rfl, Nat.zero_le _, ?_⟩
    have hlength := congrArg List.length heq
    simp [Piece.text] at hlength ⊢
    omega

theorem kept_of_mem_kept {pieces : List Piece} : ∀ piece ∈ pieces.flatMap Piece.kept, piece.kept = [piece] := by
  intro piece hpiece
  obtain ⟨origin, -, hkept⟩ := List.mem_flatMap.1 hpiece
  cases origin <;> simp_all [Piece.kept]

/-- Taking comments out of a text takes the comments out of its one reading and leaves a space for each block
comment. What is left is read as the pieces that are left, so all marks of comments in it stand in strings, and
there is nothing more to take out. -/
theorem stripComments_exact (cs : List Char) :
    ∃ pieces, (ReadAs cs pieces ∧ ∀ others, ReadAs cs others → others = pieces) ∧
      pieces.flatMap Piece.text = cs ∧
      stripComments cs = (pieces.flatMap Piece.kept).flatMap Piece.text ∧
      ReadAs (stripComments cs) (pieces.flatMap Piece.kept) ∧
      (∀ front c back, stripComments cs = front ++ '/' :: c :: back → c = '/' ∨ c = '*' →
        WithinString (pieces.flatMap Piece.kept) front.length (front.length + 2)) ∧
      stripComments (stripComments cs) = stripComments cs := by
  obtain ⟨pieces, h, unique⟩ := existsUnique_readAs cs
  refine ⟨pieces, ⟨h, unique⟩, h.text_eq, h.strip_eq, h.kept, fun front c back heq hc => ?_, strip_strip .code cs⟩
  exact h.kept.withinString kept_of_mem_kept hc heq

/-- The end of a block comment is not its start, and a slash after it opens nothing with the space. -/
example : stripComments "a/*/b*//\"//\\\"*/\"/*c".toList = "a /\"//\\\"*/\" ".toList := by decide

end RosSchema.Idl

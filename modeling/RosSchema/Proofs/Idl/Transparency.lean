import RosSchema.Proofs.Idl.Sections

/-!
# Comments and sections

A text is split into sections first, and each section is stripped of its comments. The definitions are
those of the text without comments where comments and sections keep apart: separators and headers stand
in code, and what is left of a line without its comments is no separator and no header.
-/

namespace RosSchema.Idl

open RosSchema.Reader (isPrefixOf?_eq_some)
open RosSchema.Text (exists_append_trim_append trim trimLeft trimLeft_append trimLeft_of_head trimRight
  trimRight_append_cons trim_eq_nil_iff)

/-! ## Carriage returns -/

/-- A text whose line breaks are single characters. -/
def dropReturns : List Char → List Char
  | '\r' :: '\n' :: rest => '\n' :: dropReturns rest
  | c :: rest => c :: dropReturns rest
  | [] => []

/-- No line comment of a text starts after a carriage return. -/
def ReturnsKept (context : Context) (cs : List Char) : Prop :=
  ∀ front rest, cs = front ++ '\r' :: '/' :: '/' :: rest → endContext context front ≠ .code

theorem returnsKept_iff {context : Context} {cs : List Char} : ReturnsKept context cs ↔
    ∀ n < cs.length, ['\r', '/', '/'] <+: cs.drop n → endContext context (cs.take n) ≠ .code := by
  constructor
  · intro h n _ hcomment
    obtain ⟨rest, hrest⟩ := hcomment
    exact h (cs.take n) rest ((List.take_append_drop n cs).symm.trans (congrArg (cs.take n ++ ·) hrest.symm))
  · rintro h front rest rfl
    have hfront := h front.length (by simp) (by simp)
    simpa using hfront

instance (context : Context) (cs : List Char) : Decidable (ReturnsKept context cs) :=
  decidable_of_iff' _ returnsKept_iff

theorem dropReturns_cons {c : Char} {cs : List Char} (h : c = '\r' → cs.head? ≠ some '\n') :
    dropReturns (c :: cs) = c :: dropReturns cs := by
  rw [dropReturns]
  rintro rest rfl rfl
  exact h rfl rfl

theorem dropReturns_cons_of_ne {c : Char} (h : c ≠ '\r') (cs : List Char) :
    dropReturns (c :: cs) = c :: dropReturns cs :=
  dropReturns_cons fun hc => absurd hc h

theorem dropReturns_return (cs : List Char) : dropReturns ('\r' :: '\n' :: cs) = '\n' :: dropReturns cs := by
  rw [dropReturns]

theorem head?_dropReturns {cs : List Char} : ∀ c ∈ (dropReturns cs).head?, c ∈ cs.head? ∨ c = '\n' := by
  fun_cases dropReturns cs <;> simp_all

theorem head?_strip_string (cs : List Char) : (strip .string cs).head? = cs.head? := by
  rw [strip.eq_def]
  split <;> simp_all

/-- Only a comment hides a line break that comes first. -/
theorem head?_strip_code_ne {cs : List Char} (hcomment : ∀ rest, cs ≠ '/' :: '/' :: rest)
    (h : cs.head? ≠ some '\n') : (strip .code cs).head? ≠ some '\n' := by
  rw [strip.eq_def]
  split <;> simp_all

theorem Stays.of_append {context : Context} {c d : Char} {front back : List Char}
    (h : Stays context c (front ++ d :: back)) : Stays context c front := by
  have hhead (e : Char) (he : (front ++ d :: back).head? ≠ some e) : front.head? ≠ some e := by
    cases front with
    | nil => simp
    | cons f front => exact he
  cases context with
  | code => exact ⟨h.1, fun hc => ⟨hhead _ (h.2 hc).1, hhead _ (h.2 hc).2⟩⟩
  | string => exact ⟨h.1, fun hc => absurd (h.2 hc) (by simp)⟩
  | lineComment => exact h
  | blockComment => exact fun hc => hhead _ (h hc)

theorem Stays.dropReturns {context : Context} {c : Char} {rest : List Char} (h : Stays context c rest) :
    Stays context c (dropReturns rest) := by
  have hhead (e : Char) (hne : e ≠ '\n') (he : rest.head? ≠ some e) : (Idl.dropReturns rest).head? ≠ some e :=
    fun he' => (head?_dropReturns e he').elim he hne
  cases context with
  | code => exact ⟨h.1, fun hc => ⟨hhead _ (by decide) (h.2 hc).1, hhead _ (by decide) (h.2 hc).2⟩⟩
  | string => exact ⟨h.1, fun hc => by rw [h.2 hc, Idl.dropReturns]⟩
  | lineComment => exact h
  | blockComment => exact fun hc => hhead _ (by decide) (h hc)

/-- What is asked of a text is asked of the rest of it, given the context there. -/
theorem ReturnsKept.of_append {context context' : Context} (taken : List Char) {rest : List Char}
    (hcontext : ∀ front back, rest = front ++ '\r' :: back →
      endContext context (taken ++ front) = endContext context' front)
    (h : ReturnsKept context (taken ++ rest)) : ReturnsKept context' rest := by
  intro front back heq
  rw [← hcontext front _ heq]
  exact h (taken ++ front) back (by rw [heq, List.append_assoc])

theorem dropReturns_cons_newline (cs : List Char) : dropReturns ('\n' :: cs) = '\n' :: dropReturns cs :=
  dropReturns_cons_of_ne (by decide) cs

/-- An escape keeps a carriage return, unless a line break follows it. -/
theorem dropReturns_strip_escape {c : Char} {rest : List Char}
    (ih : dropReturns (strip .string rest) = strip .string (dropReturns rest)) :
    dropReturns (strip .string ('\\' :: c :: rest)) = strip .string (dropReturns ('\\' :: c :: rest)) := by
  have hescape (cs : List Char) := dropReturns_cons_of_ne (show '\\' ≠ '\r' by decide) cs
  rw [strip, hescape, hescape]
  by_cases hreturn : c = '\r' ∧ rest.head? = some '\n'
  · obtain ⟨rfl, hhead⟩ := hreturn
    obtain ⟨rest, rfl⟩ := List.head?_eq_some_iff.1 hhead
    have hstays (cs : List Char) : Stays .string '\n' cs := by simp [Stays]
    have hnewline (cs : List Char) : strip .string ('\n' :: cs) = '\n' :: strip .string cs := strip_cons (hstays cs)
    rw [hnewline, dropReturns_cons_newline, dropReturns_cons_newline, hnewline] at ih
    rw [hnewline, dropReturns_return, dropReturns_return, strip, (List.cons.inj ih).2]
  · have hkept : c = '\r' → rest.head? ≠ some '\n' := fun hc hhead => hreturn ⟨hc, hhead⟩
    have hkept' : c = '\r' → (strip .string rest).head? ≠ some '\n' := by rwa [head?_strip_string]
    rw [dropReturns_cons hkept, dropReturns_cons hkept', ih, strip]

/-- A carriage return that stays in its context goes where the line break after it stays too. -/
theorem dropReturns_strip_return {context : Context} {rest : List Char}
    (hstays : Stays context '\r' ('\n' :: rest))
    (ih : dropReturns (strip context ('\n' :: rest)) = strip context (dropReturns ('\n' :: rest))) :
    dropReturns (strip context ('\r' :: '\n' :: rest)) =
      strip context (dropReturns ('\r' :: '\n' :: rest)) := by
  rw [dropReturns_return, ← dropReturns_cons_newline, ← ih, strip_cons hstays]
  cases context with
  | lineComment => rfl
  | blockComment => rfl
  | code =>
    have hnewline : Stays .code '\n' rest := by simp [Stays]
    rw [strip_cons hnewline]
    exact (dropReturns_return (strip .code rest)).trans (dropReturns_cons_newline _).symm
  | string =>
    have hnewline : Stays .string '\n' rest := by simp [Stays]
    rw [strip_cons hnewline]
    exact (dropReturns_return (strip .string rest)).trans (dropReturns_cons_newline _).symm

/-- Any other character that stays in its context stays where carriage returns go. -/
theorem dropReturns_strip_stays {context : Context} {c : Char} {rest : List Char}
    (hstays : Stays context c rest) (hkept : c = '\r' → rest.head? ≠ some '\n')
    (h : ReturnsKept context (c :: rest))
    (ih : dropReturns (strip context rest) = strip context (dropReturns rest)) :
    dropReturns (strip context (c :: rest)) = strip context (dropReturns (c :: rest)) := by
  rw [dropReturns_cons hkept, strip_cons hstays, strip_cons hstays.dropReturns, ← ih]
  cases context with
  | lineComment => rfl
  | blockComment => rfl
  | code =>
    -- a comment that is taken out after it would bring a line break to the carriage return
    refine dropReturns_cons fun hc => head?_strip_code_ne (fun rest' hcomment => ?_) (hkept hc)
    exact h [] rest' (by rw [hc, hcomment]; rfl) (by rw [endContext])
  | string =>
    have hkept' : c = '\r' → (strip .string rest).head? ≠ some '\n' := by rwa [head?_strip_string]
    exact dropReturns_cons hkept'

/-- The carriage returns of line breaks can be dropped before comments are taken out or after it. -/
theorem dropReturns_strip {context : Context} {cs : List Char} (h : ReturnsKept context cs) :
    dropReturns (strip context cs) = strip context (dropReturns cs) := by
  induction context, cs using context_induction with
  | nil context => simp [strip, dropReturns]
  | lineStart rest ih =>
    have hrest : ReturnsKept .lineComment rest := .of_append ['/', '/'] (fun _ _ _ => by simp [endContext]) h
    simp [strip, dropReturns_cons_of_ne, ih hrest]
  | lineEnd rest ih =>
    have hrest : ReturnsKept .code rest := .of_append ['\n'] (fun _ _ _ => by simp [endContext]) h
    simp [strip, dropReturns_cons_of_ne, ih hrest]
  | blockStart rest ih =>
    have hrest : ReturnsKept .blockComment rest := .of_append ['/', '*'] (fun _ _ _ => by simp [endContext]) h
    simp [strip, dropReturns_cons_of_ne, ih hrest]
  | blockEnd rest ih =>
    have hrest : ReturnsKept .code rest := .of_append ['*', '/'] (fun _ _ _ => by simp [endContext]) h
    simp [strip, dropReturns_cons_of_ne, ih hrest]
  | stringStart rest ih =>
    have hrest : ReturnsKept .string rest := .of_append ['"'] (fun _ _ _ => by simp [endContext]) h
    simp [strip, dropReturns_cons_of_ne, ih hrest]
  | stringEnd rest ih =>
    have hrest : ReturnsKept .code rest := .of_append ['"'] (fun _ _ _ => by simp [endContext]) h
    simp [strip, dropReturns_cons_of_ne, ih hrest]
  | escape c rest ih =>
    exact dropReturns_strip_escape (ih (.of_append ['\\', c] (fun _ _ _ => by simp [endContext]) h))
  | stays context c rest hstays ih =>
    have hrest : ReturnsKept context rest :=
      .of_append [c] (fun _ _ heq => endContext_cons (heq ▸ hstays).of_append) h
    by_cases hreturn : c = '\r' ∧ rest.head? = some '\n'
    · obtain ⟨rfl, hhead⟩ := hreturn
      obtain ⟨rest, rfl⟩ := List.head?_eq_some_iff.1 hhead
      exact dropReturns_strip_return hstays (ih hrest)
    · exact dropReturns_strip_stays hstays (fun hc hhead => hreturn ⟨hc, hhead⟩) h (ih hrest)

/-! ## Lines -/

def endedLines (cs : List Char) : List (List Char) :=
  if (cs.splitOn '\n').getLast? = some [] then (cs.splitOn '\n').dropLast else cs.splitOn '\n'

@[simp] theorem endedLines_nil : endedLines [] = [] := by decide

theorem endedLines_append (as bs : List Char) :
    endedLines (as ++ '\n' :: bs) = as.splitOn '\n' ++ endedLines bs := by
  have hne := List.splitOn_ne_nil '\n' bs
  rw [endedLines, List.splitOn_append_cons_self, List.getLast?_append_of_ne_nil _ hne,
    List.dropLast_append_of_ne_nil hne, endedLines]
  split <;> rfl

theorem endedLines_line {line : List Char} (h : '\n' ∉ line) (rest : List Char) :
    endedLines (line ++ '\n' :: rest) = line :: endedLines rest := by
  rw [endedLines_append, List.splitOn_eq_singleton h, List.singleton_append]

theorem endedLines_of_not_mem {line : List Char} (h : '\n' ∉ line) :
    endedLines line = if line = [] then [] else [line] := by
  rw [endedLines, List.splitOn_eq_singleton h]
  cases line <;> simp

theorem endedLines_lineText_append {lines : List (List Char)} (h : ∀ line ∈ lines, '\n' ∉ line)
    (rest : List Char) : endedLines (lineText lines ++ rest) = lines ++ endedLines rest := by
  induction lines with
  | nil => rfl
  | cons line lines ih =>
    obtain ⟨hline, hlines⟩ := List.forall_mem_cons.1 h
    rw [lineText_cons, List.append_assoc, List.cons_append, endedLines_line hline, ih hlines, List.cons_append]

theorem newline_not_mem_endedLines (cs : List Char) : ∀ line ∈ endedLines cs, '\n' ∉ line := by
  induction cs using split_induction (· == '\n') with
  | single line h =>
    have hline : '\n' ∉ line := fun hmem => by simpa using h _ hmem
    rw [endedLines_of_not_mem hline]
    split <;> simp [hline]
  | append line separator rest h hseparator ih =>
    have hline : '\n' ∉ line := fun hmem => by simpa using h _ hmem
    rw [beq_iff_eq] at hseparator
    rw [hseparator, endedLines_line hline]
    exact List.forall_mem_cons.2 ⟨hline, ih⟩

/-- The text of the lines is the text, up to the line break at the end. -/
theorem lineText_endedLines (cs : List Char) :
    lineText (endedLines cs) = cs ∨ lineText (endedLines cs) = cs ++ ['\n'] := by
  induction cs using split_induction (· == '\n') with
  | single line h =>
    have hline : '\n' ∉ line := fun hmem => by simpa using h _ hmem
    rw [endedLines_of_not_mem hline]
    split
    · next hnil => exact .inl hnil.symm
    · exact .inr (by simp)
  | append line separator rest h hseparator ih =>
    have hline : '\n' ∉ line := fun hmem => by simpa using h _ hmem
    rw [beq_iff_eq] at hseparator
    rw [hseparator, endedLines_line hline, lineText_cons]
    rcases ih with ih | ih <;> rw [ih]
    · exact .inl rfl
    · exact .inr (by simp)

theorem dropReturns_append {front : List Char} (h : '\n' ∉ front) {rest : List Char}
    (hrest : rest.head? ≠ some '\n') : dropReturns (front ++ rest) = front ++ dropReturns rest := by
  induction front with
  | nil => rfl
  | cons c front ih =>
    rw [List.mem_cons, not_or] at h
    have hhead : (front ++ rest).head? ≠ some '\n' := by
      cases front with
      | nil => exact hrest
      | cons d front => exact fun hd => h.2 (Option.some.inj hd ▸ List.mem_cons_self)
    rw [List.cons_append, dropReturns_cons fun _ => hhead, ih h.2, List.cons_append]

theorem dropReturns_line {line : List Char} (h : '\n' ∉ line) (rest : List Char) :
    dropReturns (line ++ '\n' :: rest) = dropReturn line ++ '\n' :: dropReturns rest := by
  have hbreak := dropReturns_cons_of_ne (show '\n' ≠ '\r' by decide) rest
  rcases List.eq_nil_or_concat line with rfl | ⟨front, c, rfl⟩
  · exact hbreak
  rw [List.concat_eq_append] at h ⊢
  rw [List.mem_append, List.mem_singleton, not_or] at h
  have hc : (c :: '\n' :: rest).head? ≠ some '\n' := fun hhead => h.2 (Option.some.inj hhead).symm
  rw [List.append_assoc, List.singleton_append, dropReturns_append h.1 hc, dropReturn, List.getLast?_concat,
    List.dropLast_concat]
  split
  · next hreturn => rw [Option.some.inj hreturn, dropReturns_return]
  · next hreturn =>
    rw [dropReturns_cons_of_ne fun heq => hreturn (congrArg some heq), hbreak, List.append_assoc,
      List.singleton_append]

/-- The lines of a text are those of it without the carriage returns of line breaks. -/
theorem textLines_eq (cs : List Char) : textLines cs = endedLines (dropReturns cs) := by
  induction cs using split_induction (· == '\n') with
  | single line h =>
    have hline : '\n' ∉ line := fun hmem => by simpa using h _ hmem
    have hkept : dropReturns (line ++ []) = line ++ dropReturns [] := dropReturns_append hline (by simp)
    rw [List.append_nil, dropReturns, List.append_nil] at hkept
    rw [hkept, endedLines_of_not_mem hline, textLines, List.splitOn_eq_singleton hline]
    cases line <;> rfl
  | append line separator rest h hseparator ih =>
    have hline : '\n' ∉ line := fun hmem => by simpa using h _ hmem
    have hdrop : '\n' ∉ dropReturn line := by
      unfold dropReturn
      split
      · exact fun hmem => hline (List.mem_of_mem_dropLast hmem)
      · exact hline
    rw [beq_iff_eq] at hseparator
    rw [hseparator, textLines_append, List.splitOn_eq_singleton hline, dropReturns_line hline,
      endedLines_line hdrop, ih]
    rfl

/-- A line break at the end of a text adds no definitions. -/
theorem linesOutcome_endedLines_newline (cs : List Char) :
    linesOutcome (endedLines (cs ++ ['\n'])) = linesOutcome (endedLines cs) := by
  rw [endedLines_append, endedLines_nil, List.append_nil, endedLines]
  split
  · next h =>
    obtain ⟨front, hfront⟩ := List.getLast?_eq_some_iff.1 h
    rw [hfront, List.dropLast_concat, linesOutcome_append_empty]
  · rfl

/-! ## One section -/

/-- Without its comments a document defines the same. -/
theorem nodes_strip (cs : List Char) :
    (nodes (lineText (endedLines (stripComments cs)))).toOption = (nodes cs).toOption := by
  have hgaps {gaps : List Char} (h : ∀ c ∈ gaps, isGap c = true) :
      (nodes (stripComments cs ++ gaps)).toOption = (nodes cs).toOption := by
    refine toOption_nodes_eq (EndsAlike.dropWhile isGap ?_)
    have halike := endsAlike_strip .code (stripComments cs) h (List.forall_mem_nil _)
    rw [List.append_nil] at halike
    exact halike.trans (strip_strip .code cs ▸ .refl _)
  rcases lineText_endedLines (stripComments cs) with htext | htext
  · rw [htext, ← List.append_nil (stripComments cs)]
    exact hgaps (List.forall_mem_nil _)
  · rw [htext]
    exact hgaps (by simp [isGap])

theorem nodes_gaps_append {gaps : List Char} (h : ∀ c ∈ gaps, isGap c = true) (cs : List Char) :
    (nodes (gaps ++ cs)).toOption = (nodes cs).toOption := by
  refine toOption_nodes_eq ?_
  have hplain : ∀ c ∈ gaps, c ≠ '/' ∧ c ≠ '"' := by
    intro c hc
    have hgap := h c hc
    constructor <;> rintro rfl <;> exact absurd hgap (by decide)
  rw [stripComments, (strip_plain_append hplain cs).1, List.dropWhile_append_of_pos h]
  exact .refl _

theorem plain_of_isBlank {c : Char} (h : Text.isBlank c = true) : c ≠ '/' ∧ c ≠ '"' := by
  constructor <;> rintro rfl <;> exact absurd h (by decide)

theorem isBlank_of_mem {line : List Char} (h : isBlankLine line = true) : ∀ c ∈ line, Text.isBlank c = true :=
  trim_eq_nil_iff.1 (List.isEmpty_iff.1 h)

theorem isHeader_iff {line : List Char} : isHeader line = true ↔ "IDL:".toList <+: trim line := by
  rw [isHeader, Option.isSome_iff_exists]
  simp only [isPrefixOf?_eq_some]
  exact exists_congr fun path => eq_comm

theorem isBlankLine_of_isHeader {line : List Char} (h : isHeader line = true) : isBlankLine line = false := by
  obtain ⟨path, hpath⟩ := isHeader_iff.1 h
  rw [isBlankLine, ← hpath]
  rfl

/-- A comment cannot hide that a line is a header. -/
theorem isHeader_strip {line : List Char} (h : isHeader line = true) : isHeader (strip .code line) = true := by
  obtain ⟨path, hpath⟩ := isHeader_iff.1 h
  obtain ⟨blanks, back, hline, hblanks, -⟩ := exists_append_trim_append line
  have hline' : line = blanks ++ "IDL:".toList ++ (path ++ back) := by
    rw [hline, ← hpath, List.append_assoc, List.append_assoc, List.append_assoc]
  have hplain : ∀ c ∈ blanks ++ "IDL:".toList, c ≠ '/' ∧ c ≠ '"' := by
    intro c hc
    rcases List.mem_append.1 hc with hc | hc
    · exact plain_of_isBlank (hblanks c hc)
    · exact (show ∀ c ∈ "IDL:".toList, c ≠ '/' ∧ c ≠ '"' by simp) c hc
  have hstrip : strip .code line = blanks ++ "IDL:".toList ++ strip .code (path ++ back) := by
    rw [hline', (strip_plain_append hplain _).1]
  have hcolon : Text.isBlank ':' = false := by decide
  refine isHeader_iff.2 ⟨trimRight (strip .code (path ++ back)), ?_⟩
  rw [hstrip, trim, List.append_assoc, trimLeft_append hblanks, trimLeft_of_head (by simp; decide)]
  exact (trimRight_append_cons hcolon ['I', 'D', 'L'] _).symm

theorem outcome_blank_append {blanks : List (List Char)} (h : ∀ line ∈ blanks, isBlankLine line = true)
    (lines : List (List Char)) : outcome (blanks ++ lines) = outcome lines := by
  rw [outcome, content_append, if_pos (List.all_eq_true.2 h), outcome]

/-- Lines that start with gaps and no header, so that a section keeps all that counts in them. -/
def NothingDropped (lines : List (List Char)) : Prop :=
  (∀ line ∈ lines.takeWhile isBlankLine, line.all isGap = true) ∧
    ∀ line ∈ (lines.dropWhile isBlankLine).take 1, isHeader line = false

instance (lines : List (List Char)) : Decidable (NothingDropped lines) :=
  inferInstanceAs (Decidable (_ ∧ _))

/-- Comments of a section that make no separators, keep off its header and stand before no line that is
taken for one or for a blank one. -/
@[mk_iff]
structure SectionApart (lines : List (List Char)) : Prop where
  separators : ∀ line ∈ endedLines (stripComments (lineText lines)), isSeparator line = false
  header : ∀ first ∈ (lines.dropWhile isBlankLine).take 1, isHeader first = true →
    endContext .code (first ++ ['\n']) = .code
  start : ∀ first ∈ (lines.dropWhile isBlankLine).take 1, isHeader first = false →
    NothingDropped (endedLines (stripComments (lineText (lines.dropWhile isBlankLine))))

instance (lines : List (List Char)) : Decidable (SectionApart lines) :=
  decidable_of_iff' _ (sectionApart_iff lines)

section Section

variable {lines : List (List Char)} {first : List Char} {rest : List (List Char)}

theorem content_cons (h : isBlankLine first = false) :
    content (first :: rest) = if isHeader first then rest else first :: rest := by
  rw [content, List.dropWhile_cons_of_neg (by simp [h])]

theorem outcome_strip_header (hheader : isHeader first = true) (hfirst : '\n' ∉ first)
    (hend : endContext .code (first ++ ['\n']) = .code) :
    outcome (endedLines (stripComments (lineText (first :: rest)))) = outcome (first :: rest) := by
  have hbreak : '\n' ∉ strip .code first := fun hmem =>
    (mem_of_mem_strip hmem).elim hfirst (by decide)
  have hleft : endedLines (stripComments (lineText (first :: rest))) =
      strip .code first :: endedLines (stripComments (lineText rest)) := by
    rw [lineText_cons, stripComments, strip_line hend, endedLines_line hbreak]
    rfl
  have hkept := isHeader_strip hheader
  rw [hleft, outcome, outcome, content_cons (isBlankLine_of_isHeader hkept), if_pos hkept,
    content_cons (isBlankLine_of_isHeader hheader), if_pos hheader, toOption_bind, toOption_bind, nodes_strip]

theorem outcome_strip_start (hblank : isBlankLine first = false) (hheader : isHeader first = false)
    (hkept : NothingDropped (endedLines (stripComments (lineText (first :: rest))))) :
    outcome (endedLines (stripComments (lineText (first :: rest)))) = outcome (first :: rest) := by
  have hcontent {lines : List (List Char)} (hlines : ∀ line ∈ (lines.dropWhile isBlankLine).take 1, isHeader line = false) :
      content lines = lines.dropWhile isBlankLine := by
    unfold content
    split
    · next hnil => exact hnil.symm
    · next line lines hdrop =>
      rw [hdrop] at hlines
      rw [if_neg (by simp [hlines line List.mem_cons_self])]
      exact hdrop.symm
  generalize hleft : endedLines (stripComments (lineText (first :: rest))) = left at hkept ⊢
  obtain ⟨hgaps, hhead⟩ := hkept
  have hblanks : ∀ c ∈ lineText (left.takeWhile isBlankLine), isGap c = true := by
    intro c hc
    obtain ⟨line, hline, hc⟩ := List.mem_flatMap.1 hc
    rcases List.mem_append.1 hc with hc | hc
    · exact List.all_eq_true.1 (hgaps line hline) c hc
    · rw [List.mem_singleton.1 hc]
      rfl
  have htext : (nodes (lineText (content left))).toOption = (nodes (lineText (first :: rest))).toOption := by
    rw [hcontent hhead, ← nodes_gaps_append hblanks, ← lineText_append, List.takeWhile_append_dropWhile, ← hleft,
      nodes_strip]
  rw [outcome, outcome, toOption_bind, toOption_bind, htext, content_cons hblank, if_neg (by simp [hheader])]

/-- A section is read alike with its comments and without. -/
theorem outcome_strip (h : SectionApart lines) (hlines : ∀ line ∈ lines, '\n' ∉ line) :
    outcome (endedLines (stripComments (lineText lines))) = outcome lines := by
  have hsplit := List.takeWhile_append_dropWhile (p := isBlankLine) (l := lines)
  have hblanks : ∀ line ∈ lines.takeWhile isBlankLine, isBlankLine line = true := fun line hline =>
    List.mem_takeWhile_imp hline
  have hplain : ∀ c ∈ lineText (lines.takeWhile isBlankLine), c ≠ '/' ∧ c ≠ '"' := by
    intro c hc
    obtain ⟨line, hline, hc⟩ := List.mem_flatMap.1 hc
    rcases List.mem_append.1 hc with hc | hc
    · exact plain_of_isBlank (isBlank_of_mem (hblanks line hline) c hc)
    · rw [List.mem_singleton.1 hc]
      decide
  have hbreaks : ∀ line ∈ lines.takeWhile isBlankLine, '\n' ∉ line := fun line hline =>
    hlines line (List.takeWhile_subset _ hline)
  have hleft : endedLines (stripComments (lineText lines)) = lines.takeWhile isBlankLine ++
      endedLines (stripComments (lineText (lines.dropWhile isBlankLine))) := by
    conv_lhs => rw [← hsplit]
    rw [lineText_append, stripComments, (strip_plain_append hplain _).1, endedLines_lineText_append hbreaks]
    rfl
  have hright : outcome lines = outcome (lines.dropWhile isBlankLine) := by
    conv_lhs => rw [← hsplit]
    exact outcome_blank_append hblanks _
  rw [hleft, hright, outcome_blank_append hblanks]
  have hheader := h.header
  have hstart := h.start
  cases hbody : lines.dropWhile isBlankLine with
  | nil => rfl
  | cons first rest =>
    rw [hbody] at hheader hstart
    have hblank : isBlankLine first = false := by
      have hnot := List.head_dropWhile_not isBlankLine (l := lines) (by simp [hbody])
      simpa [hbody] using hnot
    have hbreak : '\n' ∉ first := hlines first (List.dropWhile_subset _ (hbody ▸ List.mem_cons_self))
    cases hfirst : isHeader first with
    | true => exact outcome_strip_header hfirst hbreak (hheader first List.mem_cons_self hfirst)
    | false => exact outcome_strip_start hblank hfirst (hstart first List.mem_cons_self hfirst)

end Section

/-! ## Many sections -/

theorem blank_or_equals_of_mem {separator : List Char} (h : isSeparator separator = true) :
    ∀ c ∈ separator, Text.isBlank c = true ∨ c = '=' := by
  intro c hc
  obtain ⟨front, back, hseparator, hfront, hback⟩ := exists_append_trim_append separator
  rw [isSeparator, Bool.and_eq_true, List.all_eq_true] at h
  rw [hseparator, List.mem_append, List.mem_append] at hc
  rcases hc with (hc | hc) | hc
  · exact .inl (hfront c hc)
  · exact .inr (beq_iff_eq.1 (h.2 c hc))
  · exact .inl (hback c hc)

section Separators

variable {separator : List Char} (h : isSeparator separator = true) (rest : List Char)
include h

theorem startsAlone_separator : StartsAlone (separator ++ '\n' :: rest) := by
  intro c hc
  have hmem : Text.isBlank c = true ∨ c = '=' := by
    cases separator with
    | nil => exact .inl (Option.some.inj hc ▸ by decide)
    | cons d separator => exact blank_or_equals_of_mem h c (Option.some.inj hc ▸ List.mem_cons_self)
  rcases hmem with hblank | rfl
  · refine ⟨?_, ?_, ?_, ?_⟩ <;> rintro rfl <;> exact absurd hblank (by decide)
  · decide

/-- A separator is no part of a comment or a string, and opens none. -/
theorem strip_separator : strip .code (separator ++ '\n' :: rest) = separator ++ '\n' :: strip .code rest ∧
    endContext .code (separator ++ '\n' :: rest) = endContext .code rest := by
  have hplain : ∀ c ∈ separator ++ ['\n'], c ≠ '/' ∧ c ≠ '"' := by
    intro c hc
    rcases List.mem_append.1 hc with hc | hc
    · rcases blank_or_equals_of_mem h c hc with hblank | rfl
      · exact plain_of_isBlank hblank
      · decide
    · rw [List.mem_singleton.1 hc]
      decide
  have hstrip := strip_plain_append hplain rest
  rwa [← List.append_cons, ← List.append_cons] at hstrip

end Separators

/-- The lines that are left of some lines that end in code stand before those that are left of the rest. -/
theorem endedLines_strip_append {lines : List (List Char)} (h : endContext .code (lineText lines) = .code)
    (rest : List Char) : endedLines (strip .code (lineText lines) ++ rest) =
      endedLines (strip .code (lineText lines)) ++ endedLines rest := by
  cases lines with
  | nil => simp [strip]
  | cons line lines =>
    have htext := lineText_eq (List.cons_ne_nil line lines)
    rw [htext] at h
    rw [htext, strip_line h [], strip, List.append_assoc, List.singleton_append, endedLines_append,
      endedLines_append, endedLines_nil, List.append_nil]

/-- Comments that hide no separator of some lines, and make no separator or header of what is left of
them. -/
structure CommentsApart (lines : List (List Char)) : Prop where
  code : ∀ front separator rest, lines = front ++ separator :: rest → isSeparator separator = true →
    endContext .code (lineText front) = .code
  sections : ∀ part ∈ lines.splitOnP isSeparator, SectionApart part

/-- Separators stand in code where the lines before each of them end in code. -/
theorem commentsApart_iff_getElem {lines : List (List Char)} : CommentsApart lines ↔
    (∀ n, (h : n < lines.length) → isSeparator lines[n] = true →
      endContext .code (lineText (lines.take n)) = .code) ∧
      ∀ part ∈ lines.splitOnP isSeparator, SectionApart part := by
  constructor
  · rintro ⟨hcode, hsections⟩
    refine ⟨fun n hn hseparator => ?_, hsections⟩
    exact hcode (lines.take n) lines[n] (lines.drop (n + 1)) (by simp) hseparator
  · rintro ⟨hcode, hsections⟩
    refine ⟨fun front separator rest hlines hseparator => ?_, hsections⟩
    subst hlines
    have hfront := hcode front.length (by simp) (by simpa using hseparator)
    rwa [List.take_left] at hfront

instance (lines : List (List Char)) : Decidable (CommentsApart lines) :=
  decidable_of_iff' _ commentsApart_iff_getElem

/-- The sections that are left of some lines are the sections of what is left of them. -/
theorem linesOutcome_strip {lines : List (List Char)} (h : CommentsApart lines)
    (hlines : ∀ line ∈ lines, '\n' ∉ line) :
    linesOutcome (endedLines (stripComments (lineText lines))) = linesOutcome lines := by
  induction lines using split_induction isSeparator with
  | single part hpart =>
    have hsection : SectionApart part := h.sections part (by rw [List.splitOnP_eq_singleton hpart]; exact List.mem_cons_self)
    rw [linesOutcome_of_forall hsection.separators, linesOutcome_of_forall hpart, outcome_strip hsection hlines]
  | append part separator rest hpart hseparator ih =>
    obtain ⟨hcode, hsections⟩ := h
    rw [List.splitOnP_append_cons_of_forall_mem hpart separator hseparator, List.forall_mem_cons] at hsections
    obtain ⟨hsection, hsections⟩ := hsections
    obtain ⟨hbreaks, hbreak, hrest⟩ : (∀ line ∈ part, '\n' ∉ line) ∧ '\n' ∉ separator ∧ ∀ line ∈ rest, '\n' ∉ line := by
      simpa [or_imp, forall_and] using hlines
    have hend := hcode part separator rest rfl hseparator
    have hapart : CommentsApart rest := by
      refine ⟨fun front other others heq hother => ?_, hsections⟩
      have hcode' := hcode (part ++ separator :: front) other others (by simp [heq]) hother
      rwa [lineText_append, lineText_cons, endContext_append (startsAlone_separator hseparator _), hend,
        (strip_separator hseparator _).2] at hcode'
    have hstrip : endedLines (stripComments (lineText (part ++ separator :: rest))) =
        endedLines (stripComments (lineText part)) ++ separator :: endedLines (stripComments (lineText rest)) := by
      rw [stripComments, lineText_append, lineText_cons, strip_append (startsAlone_separator hseparator _), hend,
        endedLines_strip_append hend, (strip_separator hseparator _).1, endedLines_line hbreak]
      rfl
    rw [hstrip, linesOutcome_append hseparator, linesOutcome_append hseparator, ih hapart hrest,
      linesOutcome_of_forall hsection.separators, linesOutcome_of_forall hpart, outcome_strip hsection hbreaks]

/-- A line break at the end of a text is left alone or taken with the comment it stands in. -/
theorem linesOutcome_strip_newline (cs : List Char) :
    linesOutcome (endedLines (stripComments (cs ++ ['\n']))) = linesOutcome (endedLines (stripComments cs)) := by
  rw [stripComments, strip_append (startsAlone_newline [])]
  cases hend : endContext .code cs with
  | blockComment => exact congrArg (fun cs => linesOutcome (endedLines cs)) (List.append_nil _)
  | code => exact linesOutcome_endedLines_newline _
  | string => exact linesOutcome_endedLines_newline _
  | lineComment => exact linesOutcome_endedLines_newline _

/-- Comments are transparent where they keep apart from sections: a text and what is left of it without
them are read alike. -/
theorem definitions_stripComments (text : String) (hreturns : ReturnsKept .code text.toList)
    (hapart : CommentsApart (textLines text.toList)) :
    (definitions text).toOption = (definitions (String.ofList (stripComments text.toList))).toOption := by
  have hlines : ∀ line ∈ textLines text.toList, '\n' ∉ line := by
    rw [textLines_eq]
    exact newline_not_mem_endedLines _
  rw [toOption_definitions, toOption_definitions, String.toList_ofList, textLines_eq (stripComments _), stripComments,
    dropReturns_strip hreturns, ← linesOutcome_strip hapart hlines, textLines_eq]
  rcases lineText_endedLines (dropReturns text.toList) with htext | htext
  · rw [htext]
    rfl
  · rw [htext]
    exact linesOutcome_strip_newline _

def commentedBundle : String :=
  "/* == */\n==\nIDL: a/A // c\n/* IDL:\n*/ struct A \x7b int8 x /**/; \x7d; // ==\n==\nmodule b \x7b const string S = \"//\"; \x7d;"

theorem definitions_stripComments_commentedBundle :
    ReturnsKept .code commentedBundle.toList ∧ CommentsApart (textLines commentedBundle.toList) ∧
      (definitions commentedBundle).toOption =
        (definitions (String.ofList (stripComments commentedBundle.toList))).toOption :=
  have hreturns : ReturnsKept .code commentedBundle.toList := by decide +kernel
  have hapart : CommentsApart (textLines commentedBundle.toList) := by decide +kernel
  ⟨hreturns, hapart, definitions_stripComments commentedBundle hreturns hapart⟩

/-- Texts in which a comment stands before a header, a separator stands in a comment, a comment ends a
line of equality signs, a comment goes on after a header, a comment stands before a line of other blanks,
and a comment that no string holds starts after a carriage return that one does. -/
def entangledTexts : List String :=
  ["// c\nIDL: a/b\nmodule m \x7b struct S \x7b int8 x; \x7d; \x7d;",
    "/*\n==\n*/",
    "==//",
    "IDL: a/b /*\n*/",
    "// c\n\u00a0",
    "#include <a\"b>\nmodule m \x7b const string C = \"x\r// y\n\"; \x7d;\n#include <c\"d>"]

/-- Without comments such a text does not define the same, though every string in it is closed. -/
theorem definitions_ne_of_mem_entangledTexts : entangledTexts.Forall fun text =>
    endContext .code text.toList ≠ .string ∧
      (definitions text).toOption ≠ (definitions (String.ofList (stripComments text.toList))).toOption := by
  rw [List.forall_iff_forall_mem]
  decide +kernel

end RosSchema.Idl

import RosSchema.Proofs.Line.Agreement
import RosSchema.Proofs.Line.Declared
import RosSchema.Proofs.Line.Separation
import RosSchema.Proofs.Literal.Elements
import RosSchema.Proofs.Validity.Field
import RosSchema.Schema

/-!
# Assignments that are no constants

A line that assigns a text to a name is read as a constant where it can be. With a blank before the
equality sign it has a second reading, in which the sign is the first character of a default. That one is
left for a text that starts with a quote and does not end with it, and only bare strings start with an
equality sign. `parseLines_assignment` lists what such a line has to be made of.
-/

namespace RosSchema.Line.Ros2

open RosSchema.Literal
open RosSchema.Text (trim trimLeft trimRight isBlank before)
open Reader

/-! ## Written assignments -/

structure Assignment where
  type : List Char
  bound : Option (List Char)
  array : Option (ArrayMark (List Char))
  /-- The blanks in front of the name. -/
  gap : List Char
  name : List Char
  /-- The blanks in front of the equality sign. -/
  blanks : List Char
  /-- All that follows the equality sign. -/
  text : List Char

namespace Assignment

def tail (a : Assignment) : List Char := a.blanks ++ '=' :: a.text

def line (a : Assignment) : List Char :=
  a.type ++ (boundText a.bound ++ (markText a.array ++ (a.gap ++ (a.name ++ a.tail))))

structure WellFormed (a : Assignment) : Prop where
  type : Word isTypePart a.type
  bound : ∀ digits ∈ a.bound, Word Char.isDigit digits
  array : MarkDigits a.array
  gap : Word isBlank a.gap
  name : Word isNamePart a.name
  blanks : ∀ c ∈ a.blanks, isBlank c = true

end Assignment

/-- A text starts with a quote, and more than a comment stands after the end of what it quotes, if that
ends at all. -/
def HasOpenQuote (text : List Char) : Prop :=
  ∃ q rest, trimLeft text = q :: rest ∧ isQuote q = true ∧
    ∀ body after, rest = body ++ q :: after → Escaped (· == q) body → isFinished after = false

/-- An assignment is read as a variable with a default: it has a blank before the equality sign and no
whole literal after it, its type is one of strings, its name that of a variable, and what is left before
a comment, with the equality sign, is decoded as a string. -/
structure Assignment.ReadsAsDefault (a : Assignment) : Prop where
  type : a.type = "string".toList ∨ a.type = "wstring".toList
  bound : ∀ digits ∈ a.bound, (count64? digits).isSome
  scalar : a.array = none
  name : isNameIn Char.isLower a.name = true
  blank : a.blanks ≠ []
  quote : HasOpenQuote a.text
  decoded : ∃ s, decodeString (trim (before '#' ('=' :: a.text))) = .ok s

/-! ## What follows the name -/

theorem drop_lengthBefore_append {ends : Char → Bool} {as : List Char} (h : Escaped ends as)
    (bs : List Char) : (as ++ bs).drop (lengthBefore ends (as ++ bs)) = bs.drop (lengthBefore ends bs) := by
  rw [lengthBefore_append h, List.drop_length_add_append]

theorem trimLeft_sign {blanks : List Char} (h : ∀ c ∈ blanks, isBlank c = true) (text : List Char) :
    trimLeft (blanks ++ '=' :: text) = '=' :: text := by
  rw [Text.trimLeft_append h]
  exact Text.trimLeft_of_head (by
    rintro c ⟨⟩
    decide)

theorem assigned?_sign {blanks : List Char} (h : ∀ c ∈ blanks, isBlank c = true) (text : List Char) :
    assigned? (blanks ++ '=' :: text) =
      (finished? (trimLeft text) (literalLength? endsLine (trimLeft text)) <|>
        finished? (trimLeft text) (some 0)) := by
  rw [assigned?, trimLeft_sign h]
  rfl

theorem default?_sign {b : Char} {blanks : List Char} (hb : isBlank b = true)
    (h : ∀ c ∈ blanks, isBlank c = true) (text : List Char) :
    default? (b :: (blanks ++ '=' :: text)) =
      finished? ('=' :: text) (some (lengthBefore endsLine ('=' :: text))) := by
  have hlength : literalLength? endsLine ('=' :: text) = some (lengthBefore endsLine ('=' :: text)) := by
    have hends : endsLine '=' = false := by decide
    rw [literalLength?_bare (by decide) (by decide), lengthBefore_char (by decide), hends]
    rfl
  rw [default?, hb, trimLeft_sign h, ← hlength]
  rfl

/-- With bare text or nothing after the sign, an assignment is one wherever its other reading is left. -/
theorem assigned?_bare {blanks : List Char} (h : ∀ c ∈ blanks, isBlank c = true) {text : List Char}
    (hquote : ∀ c ∈ (trimLeft text).head?, isQuote c = false)
    (hfinished : isFinished (('=' :: text).drop (lengthBefore endsLine ('=' :: text))) = true) :
    assigned? (blanks ++ '=' :: text) ≠ none := by
  obtain ⟨front, htext, hfront⟩ := Text.exists_append_trimLeft text
  have hescaped : Escaped endsLine ('=' :: front) := by
    refine .char (by decide) (by decide) (.of_all fun c hc => ⟨?_, beq_eq_false_iff_ne.2 ?_⟩)
    · rintro rfl
      exact absurd (hfront _ hc) (by decide)
    · rintro rfl
      exact absurd (hfront _ hc) (by decide)
  have hsplit : '=' :: text = ('=' :: front) ++ trimLeft text := by rw [List.cons_append, ← htext]
  rw [hsplit, drop_lengthBefore_append hescaped] at hfinished
  have hhead : ∀ c ∈ (trimLeft text).head?, isBlank c = false := Text.head_trimLeft
  rw [assigned?_sign h]
  generalize trimLeft text = bare at *
  cases bare with
  | nil => simp [finished?_some]
  | cons c bare =>
    rw [literalLength?_bare (hquote c rfl) (hhead c rfl)]
    split
    · next hzero =>
      rw [hzero] at hfinished
      rw [finished?_some, hfinished]
      simp [finished?]
    · rw [finished?_some, hfinished]
      simp

/-- A quoted text is no constant if its quote is open. -/
theorem assigned?_quoted {blanks : List Char} (h : ∀ c ∈ blanks, isBlank c = true) {text rest : List Char}
    {q : Char} (hquote : isQuote q = true) (htext : trimLeft text = q :: rest) :
    assigned? (blanks ++ '=' :: text) = none ↔ HasOpenQuote text := by
  have hplain := ne_backslash_of_isQuote hquote
  have hnot : isFinished (q :: rest) = false := by
    have hmark : (q == '#') = false := by
      refine beq_eq_false_iff_ne.2 ?_
      rintro rfl
      exact absurd hquote (by decide)
    have htrim : trimLeft (q :: rest) = q :: rest := htext ▸ Text.trimLeft_of_head Text.head_trimLeft
    rw [isFinished, htrim]
    exact hmark
  have hzero : finished? (q :: rest) (some 0) = none := by
    rw [finished?_some, List.drop_zero, hnot]
    rfl
  rw [assigned?_sign h, htext, hzero, literalLength?, if_pos hquote]
  constructor
  · intro hnone
    refine ⟨q, rest, htext, hquote, ?_⟩
    rintro body after rfl hbody
    have hlength := (lengthToQuote?_eq_some hplain).2 ⟨body, after, rfl, hbody, rfl⟩
    have hdrop : (q :: (body ++ q :: after)).drop (body.length + 1 + 1) = after := by
      rw [List.drop_succ_cons, ← List.drop_drop, List.drop_left]
      rfl
    rw [hlength, Option.map_some, finished?_some, hdrop] at hnone
    cases hafter : isFinished after with
    | false => rfl
    | true =>
      rw [hafter] at hnone
      cases hnone
  · rintro ⟨q', rest', htext', -, hopen⟩
    obtain ⟨rfl, rfl⟩ := List.cons.inj (htext.symm.trans htext')
    cases hlength : lengthToQuote? q rest with
    | none => rfl
    | some n =>
      obtain ⟨body, after, rfl, hbody, rfl⟩ := (lengthToQuote?_eq_some hplain).1 hlength
      have hdrop : (q :: (body ++ q :: after)).drop (body.length + 1 + 1) = after := by
        rw [List.drop_succ_cons, ← List.drop_drop, List.drop_left]
        rfl
      rw [Option.map_some, finished?_some, hdrop, hopen body after rfl hbody]
      rfl

/-- Where an assignment has its other reading, it is no constant exactly if its quote is open. -/
theorem assigned?_eq_none {blanks : List Char} (h : ∀ c ∈ blanks, isBlank c = true) {text : List Char}
    (hfinished : isFinished (('=' :: text).drop (lengthBefore endsLine ('=' :: text))) = true) :
    assigned? (blanks ++ '=' :: text) = none ↔ HasOpenQuote text := by
  by_cases hbare : ∀ c ∈ (trimLeft text).head?, isQuote c = false
  · refine ⟨fun hnone => absurd hnone (assigned?_bare h hbare hfinished), ?_⟩
    rintro ⟨q, rest, htext, hquote, -⟩
    have := hbare q (by rw [htext]; rfl)
    rw [hquote] at this
    cases this
  · simp only [not_forall, Bool.not_eq_false] at hbare
    obtain ⟨q, hq, hquote⟩ := hbare
    obtain ⟨rest, htext⟩ := List.head?_eq_some_iff.1 hq
    exact assigned?_quoted h hquote htext

theorem isFinished_sign {blanks : List Char} (h : ∀ c ∈ blanks, isBlank c = true) (text : List Char) :
    isFinished (blanks ++ '=' :: text) = false := by
  rw [isFinished, trimLeft_sign h]
  rfl

/-- An assignment is read as a default where the quote after the sign is open and a blank stands before
the sign. The default goes on to the comment. -/
theorem read?_sign {blanks : List Char} (h : ∀ c ∈ blanks, isBlank c = true) {text raw : List Char} :
    Ending.read? (blanks ++ '=' :: text) = some (.default raw) ↔ blanks ≠ [] ∧ HasOpenQuote text ∧
      finished? ('=' :: text) (some (lengthBefore endsLine ('=' :: text))) = some raw := by
  rw [Ending.read?, isFinished_sign h]
  cases hassigned : assigned? (blanks ++ '=' :: text) with
  | some assigned =>
    refine ⟨fun hread => absurd hread (by simp), ?_⟩
    rintro ⟨-, hopen, hraw⟩
    rw [finished?_some] at hraw
    split at hraw
    · next hfinished =>
      rw [(assigned?_eq_none h hfinished).2 hopen] at hassigned
      cases hassigned
    · cases hraw
  | none =>
    cases blanks with
    | nil =>
      refine ⟨fun hread => ?_, fun hread => absurd rfl hread.1⟩
      have hdefault : default? ([] ++ '=' :: text) = none := rfl
      rw [hdefault] at hread
      cases hread
    | cons b blanks =>
      have hb := h b List.mem_cons_self
      have hblanks : ∀ c ∈ blanks, isBlank c = true := fun c hc => h c (List.mem_cons_of_mem _ hc)
      rw [List.cons_append] at hassigned
      rw [List.cons_append, default?_sign hb hblanks]
      cases hraw : finished? ('=' :: text) (some (lengthBefore endsLine ('=' :: text))) with
      | none => simp
      | some whole =>
        have hfinished : isFinished (('=' :: text).drop (lengthBefore endsLine ('=' :: text))) = true := by
          rw [finished?_some] at hraw
          split at hraw
          · next hfinished => exact hfinished
          · cases hraw
        have hopen := (assigned?_eq_none h hfinished).1 hassigned
        simp [hopen]

/-- An assignment is not read as a declaration without one. -/
theorem read?_sign_ne_nothing {blanks : List Char} (h : ∀ c ∈ blanks, isBlank c = true) (text : List Char) :
    Ending.read? (blanks ++ '=' :: text) ≠ some .nothing := by
  rw [Ending.read?, isFinished_sign h]
  cases assigned? (blanks ++ '=' :: text) <;> cases default? (blanks ++ '=' :: text) <;> simp

/-! ## The string that is left as a default -/

/-- Without a comment mark in it, such a text is not ended by one. -/
theorem escaped_endsLine_of_plainMarks {cs : List Char} (h : PlainMarks cs) (hmark : '#' ∉ cs) :
    Escaped endsLine cs := by
  induction h with
  | nil => exact .nil
  | pair _ _ ih =>
    exact .pair _ (ih fun hm => hmark (List.mem_cons_of_mem _ (List.mem_cons_of_mem _ hm)))
  | char plain _ ih =>
    have hc : endsLine _ = false := beq_eq_false_iff_ne.2 fun hc => hmark (hc ▸ List.mem_cons_self)
    exact .char plain hc (ih fun hm => hmark (List.mem_cons_of_mem _ hm))

theorem plainMarks_of_trim {cs : List Char} {s : String} (h : decodeString (trim cs) = .ok s) :
    PlainMarks cs :=
  .of_trimLeft (.of_trimRight (plainMarks_of_decodeString h))

/-- Bare text ends where a mark stands, or before a backslash at the end. -/
theorem drop_lengthBefore (ends : Char → Bool) (cs : List Char) :
    cs.drop (lengthBefore ends cs) = ['\\'] ∨ ∀ c ∈ (cs.drop (lengthBefore ends cs)).head?, ends c = true := by
  induction cs using escapes_induction with
  | nil => simp
  | dangling =>
    have hzero : lengthBefore ends ['\\'] = 0 := by simp [lengthBefore]
    rw [hzero]
    exact .inl rfl
  | pair c cs ih =>
    rw [lengthBefore, List.drop_succ_cons, List.drop_succ_cons]
    exact ih
  | char c cs plain ih =>
    rw [lengthBefore_char plain]
    cases hc : ends c with
    | true => simp [hc]
    | false => exact ih

/-- The text up to a comment is what goes on to the comment, if it is decoded at all. -/
theorem finished?_eq_some_before {text raw : List Char} {s : String} (h : decodeString (trim raw) = .ok s) :
    finished? text (some (lengthBefore endsLine text)) = some raw ↔ raw = before '#' text := by
  have hplain := plainMarks_of_trim h
  obtain ⟨comment, hsplit, hcomment⟩ := exists_comment text
  constructor
  · intro hraw
    rw [finished?_some] at hraw
    split at hraw
    · next hfinished =>
      obtain rfl := Option.some.inj hraw
      have hescaped := escaped_take_lengthBefore endsLine text
      have hescaped' : Escaped endsLine (text.take (lengthBefore endsLine text) ++ []) := by rwa [List.append_nil]
      have hmark := hplain.not_mem (by rfl) hescaped'
      have hstop : ∀ c ∈ (text.drop (lengthBefore endsLine text)).head?, c = '#' := by
        rcases drop_lengthBefore endsLine text with hend | hstop
        · rw [hend] at hfinished
          cases hfinished
        · exact fun c hc => by simpa [endsLine] using hstop c hc
      have hunique : Splits (· != '#') text (text.take (lengthBefore endsLine text))
          (text.drop (lengthBefore endsLine text)) := by
        refine ⟨(List.take_append_drop _ text).symm, fun c hc => ?_, fun c hc => ?_⟩
        · simp only [bne_iff_ne]
          rintro rfl
          exact hmark hc
        · simp [hstop c hc]
      exact (splits_iff.1 hunique).1.symm
    · cases hraw
  · rintro rfl
    have hmark : '#' ∉ before '#' text := fun hm => by simpa using List.mem_takeWhile_imp hm
    have hlength := lengthBefore_eq_length (escaped_endsLine_of_plainMarks hplain hmark)
      (endsLine_comment hcomment)
    have hfinished := finished?_append (before '#' text) hcomment
    rwa [← hlength, ← hsplit] at hfinished

/-! ## Fields of assignments -/

namespace Assignment

variable {a : Assignment}

theorem isNamePart_head_tail (w : a.WellFormed) : ∀ c ∈ a.tail.head?, isNamePart c = false := by
  intro c hc
  rw [tail] at hc
  cases hblanks : a.blanks with
  | nil =>
    rw [hblanks] at hc
    cases hc
    decide
  | cons b blanks =>
    rw [hblanks] at hc
    obtain rfl : b = c := Option.some.inj hc
    have hb := w.blanks b (by rw [hblanks]; exact List.mem_cons_self)
    by_contra hname
    simp [isBlank_eq_false_of_isNamePart (Bool.not_eq_false _ ▸ hname)] at hb

theorem declaration_line (w : a.WellFormed) : whole? declaration a.line =
    (Ending.read? a.tail).map fun ending => ⟨a.type, a.bound, a.array, a.name, ending⟩ :=
  declaration_append w.type w.bound w.array w.gap w.name (isNamePart_head_tail w)

def variableField (a : Assignment) (s : String) : Field :=
  { Field.variableOf (String.ofList a.type) (String.ofList a.name) with
    stringBound := a.bound.bind count64?
    defaultValue := some (.string s) }

/-- A type of strings is written as it is called. -/
theorem type_of_isString {type : List Char} {p : Primitive}
    (h : literalType (foldAlias (String.ofList type)) = .ok p) (hp : p.isString = true) :
    type = "string".toList ∨ type = "wstring".toList := by
  have hfold := Primitive.foldAlias_eq_tag (ofTag?_of_literalType h)
  rw [foldAlias_foldAlias] at hfold
  have hstring : p.tag = "string" ∨ p.tag = "wstring" := by
    cases p <;> first | exact .inl rfl | exact .inr rfl | cases hp
  have hne (other : String) (hother : foldAlias other ≠ "string" ∧ foldAlias other ≠ "wstring") :
      String.ofList type ≠ other := by
    rintro rfl
    rw [hfold] at hother
    exact hstring.elim hother.1 hother.2
  rw [foldAlias_of_ne (hne "char" (by decide)) (hne "byte" (by decide))] at hfold
  rw [← hfold] at hstring
  exact hstring.imp (fun h => by rw [← h, String.toList_ofList]) fun h => by rw [← h, String.toList_ofList]

/-- The text of a default starts with the sign. -/
theorem exists_trim_take (text : List Char) :
    ∃ rest, trim (('=' :: text).take (lengthBefore endsLine ('=' :: text))) = '=' :: rest := by
  have hends : endsLine '=' = false := by decide
  have htrim (cs : List Char) : trimLeft ('=' :: cs) = '=' :: cs := Text.trimLeft_of_head (by
    rintro c ⟨⟩
    decide)
  rw [lengthBefore_char (by decide), hends]
  refine ⟨trimRight (text.take (lengthBefore endsLine text)), ?_⟩
  rw [if_neg (by simp), List.take_succ_cons, trim, htrim]
  exact Text.trimRight_append_cons (by decide) [] _

/-- With an equality sign in front, only a bare string is decoded. -/
theorem isString_of_decodeScalar {type : String} {raw rest : List Char} {v : Value}
    (hsign : trim raw = '=' :: rest) (h : decodeScalar type (trim raw) = .ok v) :
    ∃ p s, literalType type = .ok p ∧ p.isString = true ∧ decodeString (trim raw) = .ok s := by
  obtain ⟨p, hp, hv⟩ := decodeScalar_eq_ok.1 h
  rw [Text.trim_trim] at hv
  cases hs : p.isString with
  | false =>
    have hword := word_of_decodeAs hs hv
    rw [hsign] at hword
    exact absurd (hword.all '=' List.mem_cons_self) (by decide)
  | true =>
    have hstring : ∃ s, decodeString (trim raw) = .ok s := by
      cases p with
      | string => exact (Steps.map_eq_ok.1 hv).imp fun s hs => hs.1
      | wstring => exact (Steps.map_eq_ok.1 hv).imp fun s hs => hs.1
      | _ => cases hs
    exact ⟨p, hstring.choose, hp, hs, hstring.choose_spec⟩

/-- An assignment yields a constant of its name, or it is read as a default. -/
theorem constant_or_readsAsDefault (w : a.WellFormed) {f : Field} (h : field a.line = .ok f) :
    (f.isConstant = true ∧ f.name = String.ofList a.name) ∨ a.ReadsAsDefault := by
  obtain ⟨d, hd, hf⟩ := field_eq_ok.1 h
  rw [declaration_line w] at hd
  obtain ⟨ending, hending, rfl⟩ := Option.map_eq_some_iff.1 hd
  obtain ⟨bound, hbound, array, harray, -, hyields⟩ := Declaration.field_eq_ok.1 hf
  cases hyields with
  | constant raw value => exact .inl ⟨rfl, rfl⟩
  | plain hnothing =>
    rw [tail, show ending = .nothing from hnothing] at hending
    exact absurd hending (read?_sign_ne_nothing w.blanks a.text)
  | default raw value hraw name type decoded =>
    right
    rw [tail, show ending = .default raw from hraw, read?_sign w.blanks] at hending
    obtain ⟨hblank, hquote, hraw⟩ := hending
    obtain ⟨rest, hsign⟩ : ∃ rest, trim raw = '=' :: rest := by
      obtain ⟨n, hn, rfl⟩ := finished?_eq_some hraw
      obtain rfl := Option.some.inj hn
      exact exists_trim_take a.text
    cases hscalar : array with
    | some m =>
      rw [hscalar] at decoded
      obtain ⟨inner, hinside, -⟩ := decodeArray_eq_ok.1 decoded
      rw [Text.trim_trim, hsign] at hinside
      cases hinside
    | none =>
      rw [hscalar] at decoded harray
      obtain ⟨p, s, hp, hs, hstring⟩ := isString_of_decodeScalar hsign decoded
      have hbefore := (finished?_eq_some_before hstring).1 hraw
      have hnone : a.array = none := by
        rcases mapM_eq_ok.1 harray with ⟨hnone, -⟩ | ⟨_, _, -, -, hsome⟩
        · exact hnone
        · cases hsome
      exact ⟨type_of_isString hp hs, (mapM_count_eq_ok.1 hbound).1, hnone, name, hblank, hquote, s,
        hbefore ▸ hstring⟩

/-- What is read as a default yields a variable. -/
theorem field_of_readsAsDefault (w : a.WellFormed) (h : a.ReadsAsDefault) :
    ∃ s, decodeString (trim (before '#' ('=' :: a.text))) = .ok s ∧ field a.line = .ok (a.variableField s) := by
  obtain ⟨s, hs⟩ := h.decoded
  generalize hraw : before '#' ('=' :: a.text) = raw at hs
  have hread : Ending.read? a.tail = some (.default raw) :=
    (read?_sign w.blanks).2 ⟨h.blank, h.quote, (finished?_eq_some_before hs).2 hraw.symm⟩
  have hdeclaration : whole? declaration a.line = some ⟨a.type, a.bound, none, a.name, .default raw⟩ := by
    rw [declaration_line w, hread, h.scalar]
    rfl
  obtain ⟨type, htype, htypes⟩ : ∃ type, String.ofList a.type = type ∧ (type = "string" ∨ type = "wstring") := by
    refine ⟨_, rfl, h.type.imp (fun htype => ?_) fun htype => ?_⟩ <;> rw [htype, String.ofList_toList]
  have hfold : foldAlias type = type := by rcases htypes with rfl | rfl <;> decide
  have hvalue : decodeScalar type (trim raw) = .ok (.string s) := by
    rcases htypes with rfl | rfl
    · exact decodeScalar_eq_ok.2 ⟨.string, rfl, by rw [Text.trim_trim, decodeAs, hs]; rfl⟩
    · exact decodeScalar_eq_ok.2 ⟨.wstring, rfl, by rw [Text.trim_trim, decodeAs, hs]; rfl⟩
  have hliteral : takesLiteral type = true := by rcases htypes with rfl | rfl <;> decide
  have hbound : ((a.bound.bind count64?).isSome && type != "string" && type != "wstring") = false := by
    rcases htypes with rfl | rfl <;> simp
  obtain ⟨d, hd⟩ : ∃ d : Declaration, d = ⟨a.type, a.bound, none, a.name, .default raw⟩ := ⟨_, rfl⟩
  have hfieldType : d.fieldType = type := by rw [hd, Declaration.fieldType, htype, hfold]
  refine ⟨s, hs, field_eq_ok.2 ⟨d, hd ▸ hdeclaration, Declaration.field_eq_ok.2
    ⟨a.bound.bind count64?, hd ▸ mapM_count_eq_ok.2 ⟨h.bound, rfl⟩, none, hd ▸ rfl, ?_, ?_⟩⟩⟩
  · rw [hfieldType]
    exact hbound
  · have hyields : d.Yields (a.bound.bind count64?) none _ := .default raw (.string s) (by rw [hd])
      (by rw [hd]; exact h.name) (by rw [hfieldType]; exact hliteral)
      (by rw [hfieldType]; exact hvalue)
    have hplain : d.plainField (a.bound.bind count64?) none =
        { Field.variableOf type (String.ofList a.name) with stringBound := a.bound.bind count64? } := by
      rw [Declaration.plainField, hfieldType, hd]
      rfl
    rw [hplain] at hyields
    rw [variableField, htype]
    exact hyields

end Assignment

/-- An assignment without a line end, and without a blank at its end, is read as a constant of its name or
not at all, unless it is read as a default. -/
theorem parseLines_assignment {a : Assignment} (w : a.WellFormed) (hline : '\n' ∉ a.line)
    (hlast : ∀ c ∈ a.line.getLast?, isBlank c = false) :
    (∀ definitions, parseLines (String.ofList a.line) .ros2 = .ok definitions →
      ∃ f, definitions = [⟨none, [f]⟩] ∧ f.isConstant = true ∧ f.name = String.ofList a.name) ↔
        ¬ a.ReadsAsDefault := by
  have hheader : header? a.line = none :=
    header?_eq_none (not_headerMark_append w.type w.gap a.bound a.array (a.name ++ a.tail))
  have hdefinitions : parseLines (String.ofList a.line) .ros2 = (field a.line).map fun f => [⟨none, [f]⟩] := by
    obtain ⟨c, cs, htype, hc⟩ := w.type.exists_cons
    obtain ⟨rest, hrest⟩ : ∃ rest, a.line = c :: rest := by
      rw [Assignment.line, htype]
      exact ⟨_, rfl⟩
    rw [hrest] at hline hlast hheader ⊢
    exact ros2.definitions_of_line hc hline hlast hheader
  simp only [hdefinitions, Steps.map_eq_ok]
  constructor
  · intro h hread
    obtain ⟨s, -, hfield⟩ := Assignment.field_of_readsAsDefault w hread
    obtain ⟨f, hf, hconstant, -⟩ := h _ ⟨_, hfield, rfl⟩
    simp only [List.cons.injEq, Definition.mk.injEq, and_true, true_and] at hf
    subst hf
    cases hconstant
  · rintro hnot definitions ⟨f, hf, rfl⟩
    obtain ⟨hconstant, hname⟩ := (Assignment.constant_or_readsAsDefault w hf).resolve_right hnot
    exact ⟨f, rfl, hconstant, hname⟩

def stringAssignment (name text : List Char) : Assignment :=
  ⟨"string".toList, none, none, [' '], name, [' '], ' ' :: text⟩

theorem wellFormed_stringAssignment {name : List Char} (h : Word isNamePart name) (text : List Char) :
    (stringAssignment name text).WellFormed where
  type := show Word isTypePart "string".toList from word_of_all (by decide) (by decide)
  bound := by rintro digits ⟨⟩
  array := trivial
  gap := show Word isBlank [' '] from word_of_all (by decide) (by decide)
  name := h
  blanks := show ∀ c ∈ [' '], isBlank c = true from List.all_eq_true.1 (by decide)

theorem parseLines_assignment_of_quotedMark :
    ∃ f, parseLines "string S = 'a#b' # c" .ros2 = .ok [⟨none, [f]⟩] ∧ f.isConstant = true ∧ f.name = "S" := by
  have hparse : parseLines "string S = 'a#b' # c" .ros2 =
      .ok [⟨none, [.constantOf "string" "S" (.string "a#b") (some "'a#b'")]⟩] := by decide +kernel
  have hnot : ¬ (stringAssignment ['S'] "'a#b' # c".toList).ReadsAsDefault := fun h =>
    absurd h.name (by decide)
  have w : (stringAssignment ['S'] "'a#b' # c".toList).WellFormed :=
    wellFormed_stringAssignment (word_of_all (by decide) (by decide)) _
  have hlast : ∀ c ∈ (stringAssignment ['S'] "'a#b' # c".toList).line.getLast?, isBlank c = false := by
    rintro c ⟨⟩
    decide
  obtain ⟨f, hf, hconstant, hname⟩ := (parseLines_assignment w (by decide +kernel) hlast).2 hnot _ hparse
  exact ⟨f, hf ▸ hparse, hconstant, hname⟩

/-- A word after the quote makes a default of an assignment that is a constant without it. -/
theorem not_isConstant_of_wordAfterQuote :
    (stringAssignment ['x'] "'a' b".toList).WellFormed ∧
      (stringAssignment ['x'] "'a' b".toList).line = "string x = 'a' b".toList ∧
      parseLines "string x = 'a' b" .ros2 = .ok [⟨none,
        [{ Field.variableOf "string" "x" with defaultValue := some (.string "= 'a' b") }]⟩] :=
  ⟨wellFormed_stringAssignment (word_of_all (by decide) (by decide)) _, by decide +kernel,
    by decide +kernel⟩

end RosSchema.Line.Ros2

import RosSchema.Proofs.Line.Derived
import RosSchema.Proofs.Line.Endings
import RosSchema.Proofs.Line.Field
import RosSchema.Proofs.Literal.Words

/-!
# Where the two line grammars agree

A line that both grammars read has the same parts for both. What follows its name is nothing but a comment
for the one and the other, or a literal that is no string and that both read up to the comment, whatever
other readings ROS 2 would try next.
-/

namespace RosSchema.Line

open RosSchema.Text (isBlank trim trimLeft before)
open RosSchema.Literal (isLiteralPart word_of_decodeAs)
open Reader
open Ros1 (isGap IsCount Brackets Tail IsWord isFieldName Derivation)
open Ros2 (Declaration isTypePart Ending boundText markText MarkDigits countMark)

/-! ## One spelling for both grammars -/

/-- Between brackets stand digits and maybe the mark of a bound. -/
theorem exists_inside {m : ArrayMark (List Char)} (h : MarkDigits (some m)) :
    ∃ inner, markText (some m) = '[' :: inner ++ [']'] ∧ ∀ c ∈ inner, c = '<' ∨ c = '=' ∨ c.isDigit = true := by
  cases m with
  | any => exact ⟨[], rfl, by simp⟩
  | exactly digits => exact ⟨digits, rfl, fun c hc => .inr (.inr (h.all c hc))⟩
  | atMost digits =>
    refine ⟨'<' :: '=' :: digits, rfl, fun c hc => ?_⟩
    rcases List.mem_cons.1 hc with rfl | hc
    · exact .inl rfl
    rcases List.mem_cons.1 hc with rfl | hc
    · exact .inr (.inl rfl)
    · exact .inr (.inr (h.all c hc))

/-- Brackets that both grammars read have no gap inside, and close at one place. -/
theorem inside_eq {m : ArrayMark Nat} {front digits back inner rest rest' : List Char}
    (hcount : IsCount m digits) (hgaps : ∀ c ∈ front ++ back, isGap c = true)
    (hinner : ∀ c ∈ inner, c = '<' ∨ c = '=' ∨ c.isDigit = true)
    (h : (front ++ (digits ++ back)) ++ ']' :: rest = inner ++ ']' :: rest') :
    front = [] ∧ back = [] ∧ digits = inner ∧ rest = rest' := by
  have hfront : ']' ∉ front ++ (digits ++ back) := by
    simp only [List.mem_append, not_or]
    refine ⟨fun hm => ?_, fun hm => ?_, fun hm => ?_⟩
    · exact absurd (hgaps _ (List.mem_append_left _ hm)) (by decide)
    · exact absurd (hcount.digit _ hm) (by decide)
    · exact absurd (hgaps _ (List.mem_append_right _ hm)) (by decide)
  have hclose : ']' ∉ inner := fun hm => by
    rcases hinner _ hm with h | h | h <;> exact absurd h (by decide)
  -- the first closing bracket ends the mark for both
  obtain ⟨rfl, rfl⟩ := append_cons_inj_of_first h hfront hclose
  have hnil {cs : List Char} (hsub : cs ⊆ front ++ back) (hsub' : cs ⊆ front ++ (digits ++ back)) :
      cs = [] := by
    refine List.eq_nil_iff_forall_not_mem.2 fun c hc => ?_
    have hgap := hgaps c (hsub hc)
    rcases hinner c (hsub' hc) with rfl | rfl | hdigit
    · exact absurd hgap (by decide)
    · exact absurd hgap (by decide)
    · rw [Ros1.isGap_eq_false_of_isDigit hdigit] at hgap
      cases hgap
  obtain rfl : front = [] := hnil (by simp) (by simp)
  obtain rfl : back = [] := hnil (by simp) (by simp)
  exact ⟨rfl, rfl, by simp, rfl⟩

/-- The text of a count without a bound is read as the mark with that count. -/
theorem countMark_of_isCount {m : ArrayMark Nat} {m' : ArrayMark (List Char)} {digits : List Char}
    (hcount : IsCount m digits) (heq : markText (some m') = '[' :: digits ++ [']'])
    (hdigits : MarkDigits (some m')) (line : List Char) : countMark line m' = .ok m := by
  cases m' with
  | any =>
    obtain rfl : digits = [] := by simpa [markText] using heq.symm
    cases m with
    | any => rfl
    | exactly n => exact absurd rfl hcount.1.ne_nil
    | atMost n => exact hcount.elim
  | exactly digits' =>
    obtain rfl : digits' = digits := by simpa [markText] using heq
    cases m with
    | any => exact absurd hcount hdigits.ne_nil
    | exactly n =>
      rw [countMark, Ros2.count, hcount.2]
      rfl
    | atMost n => exact hcount.elim
  | atMost digits' =>
    obtain rfl : '<' :: '=' :: digits' = digits := List.append_cancel_right (List.cons.inj heq).2
    exact absurd (hcount.digit '<' (by simp)) (by decide)

/-- Brackets are read by both grammars as one mark. -/
theorem countMark_of_brackets {m : ArrayMark Nat} {m' : ArrayMark (List Char)} {marks rest rest' : List Char}
    (h : Brackets (some m) marks) (heq : marks ++ rest = markText (some m') ++ rest')
    (hdigits : MarkDigits (some m')) (line : List Char) :
    countMark line m' = .ok m ∧ rest = rest' := by
  obtain ⟨inner, hinner, hnot⟩ := exists_inside hdigits
  cases h with
  | some _ front digits back hcount hgaps =>
    have hsplit : (front ++ (digits ++ back)) ++ ']' :: rest = inner ++ ']' :: rest' := by
      rw [hinner] at heq
      simpa using heq
    obtain ⟨rfl, rfl, rfl, rfl⟩ := inside_eq hcount hgaps hnot hsplit
    exact ⟨countMark_of_isCount hcount hinner hdigits line, rfl⟩

/-- What stands between a type and a gap is one mark for both grammars. -/
theorem marks_eq {array : Option (ArrayMark Nat)} {array' : Option (ArrayMark (List Char))}
    {marks gap rest gap' rest' : List Char} (h : Brackets array marks) (hgap : Word isGap gap)
    (hdigits : MarkDigits array') (hgap' : Word isBlank gap')
    (heq : marks ++ (gap ++ rest) = markText array' ++ (gap' ++ rest')) (line : List Char) :
    array'.mapM (countMark line) = .ok array ∧ gap ++ rest = gap' ++ rest' := by
  obtain ⟨g, gs, hg, hblank⟩ := hgap.exists_cons
  obtain ⟨g', gs', hg', hblank'⟩ := hgap'.exists_cons
  cases array with
  | none =>
    cases h with
    | none =>
      cases array' with
      | none => exact ⟨rfl, heq⟩
      | some m' =>
        obtain ⟨inner, hinner, -⟩ := exists_inside hdigits
        rw [hinner, hg] at heq
        obtain ⟨rfl, -⟩ := List.cons.inj heq
        exact absurd hblank (by decide)
  | some m =>
    cases array' with
    | none =>
      cases h with
      | some _ front digits back =>
        rw [hg'] at heq
        obtain ⟨rfl, -⟩ := List.cons.inj heq
        exact absurd hblank' (by decide)
    | some m' =>
      obtain ⟨hcount, hrest⟩ := countMark_of_brackets h heq hdigits line
      refine ⟨?_, hrest⟩
      rw [Option.mapM_some, hcount]
      rfl

/-- After the type of a declaration stands a bound, an array mark or a blank. -/
theorem head_marks {e : Declaration} {gap' tail' line : List Char} (w : e.Written gap' tail' line) :
    ∀ c ∈ (boundText e.bound ++ (markText e.array ++ (gap' ++ (e.name ++ tail')))).head?,
      c = '<' ∧ e.bound.isSome ∨ c = '[' ∨ isBlank c = true := by
  obtain ⟨g, gs, hg, hgap⟩ := w.gap.exists_cons
  cases e.bound with
  | some digits =>
    rintro c ⟨⟩
    exact .inl ⟨rfl, rfl⟩
  | none =>
    intro c hc
    rw [hg] at hc
    rcases Ros2.head?_markText_append e.array g _ c hc with rfl | rfl
    · exact .inr (.inl rfl)
    · exact .inr (.inr hgap)

section Parts

variable {d : Derivation} {e : Declaration} {lead marks gap tail gap' tail' line : List Char}
  (s : d.Spelled lead marks gap tail line) (w : e.Written gap' tail' line)
include s w

/-- No gap stands in front of a declaration. -/
theorem lead_eq_nil : lead = [] := by
  have hline := s.eq.symm.trans w.eq
  obtain ⟨t, ts, htype, ht⟩ := w.type.exists_cons
  cases lead with
  | nil => rfl
  | cons c lead =>
    have hgap := Ros1.isBlank_of_isGap (s.lead c (by simp))
    rw [htype] at hline
    obtain ⟨rfl, -⟩ := List.cons.inj hline
    rw [Ros2.isBlank_eq_false_of_isTypePart ht] at hgap
    cases hgap

/-- The type ends where a mark or a gap starts, and no bound follows it. -/
theorem type_eq : e.type = d.type ∧ e.bound = none ∧
    marks ++ (gap ++ (d.name ++ tail)) = markText e.array ++ (gap' ++ (e.name ++ tail')) := by
  have hline := s.eq.symm.trans w.eq
  rw [lead_eq_nil s w, List.nil_append] at hline
  have hhead := Ros1.head_brackets s.marks s.gap (d.name ++ tail)
  obtain ⟨htype, hrest⟩ := Splits.unique (p := isTypePart)
    ⟨rfl, s.type.word.all, fun c hc => by
      rcases hhead c hc with rfl | h
      · decide
      · exact Ros2.isTypePart_eq_false_of_isBlank (Ros1.isBlank_of_isGap h)⟩
    ⟨hline, w.type.all, fun c hc => by
      rcases head_marks w c hc with ⟨rfl, -⟩ | rfl | h
      · decide
      · decide
      · exact Ros2.isTypePart_eq_false_of_isBlank h⟩
  have hbound : e.bound = none := by
    cases hb : e.bound with
    | none => rfl
    | some digits =>
      rw [hb] at hrest
      rcases hhead '<' (by rw [hrest]; rfl) with h | h <;> exact absurd h (by decide)
  rw [hbound, boundText, List.nil_append] at hrest
  exact ⟨htype.symm, hbound, hrest⟩

/-- The gap ends where the name starts, and the name where no character of one follows. -/
theorem name_eq (hname : isFieldName d.name = true)
    (h : gap ++ (d.name ++ tail) = gap' ++ (e.name ++ tail')) : e.name = d.name ∧ tail' = tail := by
  have hhead : ∀ c ∈ (d.name ++ tail).head?, isBlank c = false := by
    obtain ⟨n, ns, hn, hstart⟩ := s.name.head
    rw [hn]
    rintro c ⟨⟩
    exact Ros2.isBlank_eq_false_of_isNamePart (isNamePart_of_isNameStart hstart)
  have hhead' : ∀ c ∈ (e.name ++ tail').head?, isBlank c = false := by
    obtain ⟨n, ns, hn, hpart⟩ := w.name.exists_cons
    rw [hn]
    rintro c ⟨⟩
    exact Ros2.isBlank_eq_false_of_isNamePart hpart
  obtain ⟨-, hnames⟩ := Splits.unique (p := isBlank)
    ⟨rfl, fun c hc => Ros1.isBlank_of_isGap (s.gap.all c hc), hhead⟩ ⟨h, w.gap.all, hhead'⟩
  obtain ⟨hnameEq, htail⟩ := Splits.unique (p := isNamePart)
    ⟨rfl, (Ros1.isWord_of_isFieldName hname).2.all, fun c hc =>
      Ros2.isNamePart_eq_false_of_isTypePart (Ros1.head_tail s.tail c hc)⟩ ⟨hnames, w.name.all, w.stops⟩
  exact ⟨hnameEq.symm, htail.symm⟩

/-- A line that both grammars read has the same parts for both. -/
theorem parts_eq (hname : isFieldName d.name = true) :
    e.type = d.type ∧ e.bound = none ∧ e.array.mapM (countMark line) = .ok d.array ∧ e.name = d.name ∧
      tail' = tail := by
  obtain ⟨htype, hbound, hrest⟩ := type_eq s w
  obtain ⟨harray, hgaps⟩ : e.array.mapM (countMark line) = .ok d.array ∧
      gap ++ (d.name ++ tail) = gap' ++ (e.name ++ tail') :=
    marks_eq s.marks s.gap w.array w.gap hrest line
  obtain ⟨hnames, htail⟩ := name_eq s w hname hgaps
  exact ⟨htype, hbound, harray, hnames, htail⟩

end Parts

/-! ## One reading of what follows a name -/

theorem trimLeft_gaps {gaps rest : List Char} (hgaps : ∀ c ∈ gaps, isGap c = true)
    (hrest : ∀ c ∈ rest.head?, isBlank c = false) : trimLeft (gaps ++ rest) = rest := by
  rw [Text.trimLeft_append fun c hc => Ros1.isBlank_of_isGap (hgaps c hc), Text.trimLeft_of_head hrest]

/-- After a variable comes nothing that is read. -/
theorem read?_finished {gaps rest : List Char} (hgaps : ∀ c ∈ gaps, isGap c = true)
    (hcomment : ∀ c ∈ rest.head?, c = '#') : Ending.read? (gaps ++ rest) = some .nothing := by
  have hblank : ∀ c ∈ rest.head?, isBlank c = false := by
    intro c hc
    rw [hcomment c hc]
    decide
  have hfinished : Ros2.isFinished (gaps ++ rest) = true := by
    rw [Ros2.isFinished, trimLeft_gaps hgaps hblank]
    cases rest with
    | nil => rfl
    | cons c rest => exact beq_iff_eq.2 (hcomment c rfl)
  have hassigned : Ros2.assigned? (gaps ++ rest) = none := by
    rw [Ros2.assigned?, trimLeft_gaps hgaps hblank]
    cases rest with
    | nil => rfl
    | cons c rest =>
      obtain rfl := hcomment c rfl
      rfl
  have hdefault : Ros2.default? (gaps ++ rest) = none := by
    cases gaps with
    | nil =>
      cases rest with
      | nil => rfl
      | cons c rest => simp [Ros2.default?, hblank c rfl]
    | cons g gs =>
      rw [List.cons_append, Ros2.default?,
        trimLeft_gaps (fun c hc => hgaps c (List.mem_cons_of_mem _ hc)) hblank,
        Ros1.isBlank_of_isGap (hgaps g (by simp))]
      cases rest with
      | nil => rfl
      | cons c rest =>
        obtain rfl := hcomment c rfl
        have hnone : Ros2.literalLength? Ros2.endsLine ('#' :: rest) = none := by
          rw [Ros2.literalLength?, Ros2.lengthBefore_char (by decide)]
          rfl
        simp [hnone, Ros2.finished?]
  simp [Ending.read?, hassigned, hdefault, hfinished]

/-- Blanks in front do not count for the text before a comment. -/
theorem trim_before_trimLeft (raw : List Char) : trim (before '#' (trimLeft raw)) = trim (before '#' raw) := by
  obtain ⟨blanks, hraw, hblanks⟩ := Text.exists_append_trimLeft raw
  have hbefore : before '#' raw = blanks ++ before '#' (trimLeft raw) := by
    conv_lhs => rw [hraw]
    refine List.takeWhile_append_of_pos fun c hc => ?_
    have hne : c ≠ '#' := by
      rintro rfl
      exact absurd (hblanks _ hc) (by decide)
    simpa using hne
  rw [hbefore, trim, trim, Text.trimLeft_append hblanks]

/-- The text before a comment, and the comment. -/
theorem exists_comment (text : List Char) :
    ∃ rest, text = before '#' text ++ rest ∧ ∀ c ∈ rest.head?, c = '#' := by
  have hsplit : Splits (· != '#') text (before '#' text) (text.dropWhile (· != '#')) :=
    splits_iff.2 ⟨rfl, rfl⟩
  exact ⟨_, hsplit.eq, fun c hc => by simpa using hsplit.stops c hc⟩

/-- A literal that is no string goes on to the comment. -/
theorem literalLength?_before {text : List Char} (hhead : ∀ c ∈ text.head?, isBlank c = false)
    (hword : Word isLiteralPart (trim (before '#' text))) :
    Ros2.literalLength? Ros2.endsLine text = some (before '#' text).length := by
  obtain ⟨rest, htext, hrest⟩ := exists_comment text
  have hnumber : ∀ c ∈ before '#' text, c ≠ '#' := fun c hc => by simpa using List.mem_takeWhile_imp hc
  generalize before '#' text = front at *
  subst htext
  -- the text before the comment is the literal and blanks
  have hpart : ∀ c ∈ front, isLiteralPart c = true ∨ isBlank c = true := by
    obtain ⟨left, right, heq, hleft, hright⟩ := Text.exists_append_trim_append front
    intro c hc
    rw [heq] at hc
    rcases List.mem_append.1 hc with hc | hc
    · exact (List.mem_append.1 hc).elim (fun h => .inr (hleft c h)) fun h => .inl (hword.all c h)
    · exact .inr (hright c hc)
  have hescaped : Literal.Escaped Ros2.endsLine front := by
    refine .of_all fun c hc => ⟨?_, beq_eq_false_iff_ne.2 (hnumber c hc)⟩
    rintro rfl
    rcases hpart _ hc with h | h <;> exact absurd h (by decide)
  cases front with
  | nil => exact absurd rfl hword.ne_nil
  | cons c front =>
    have hblank : isBlank c = false := hhead c rfl
    have hquote : Literal.isQuote c = false := by
      rcases hpart c (by simp) with h | h
      · exact (Ros2.plain_of_isLiteralPart h).2.2.2
      · rw [hblank] at h
        cases h
    exact Ros2.literalLength?_of_escaped ⟨c, rfl, hquote, hblank⟩ hescaped (Ros2.endsLine_comment hrest)

/-- A literal that is no string is assigned up to the comment. -/
theorem read?_literal {gaps raw : List Char} (hgaps : ∀ c ∈ gaps, isGap c = true)
    (hword : Word isLiteralPart (trim (before '#' raw))) :
    ∃ text, Ending.read? (gaps ++ '=' :: raw) = some (.assigned text) ∧
      trim text = trim (before '#' raw) := by
  refine ⟨before '#' (trimLeft raw), ?_, trim_before_trimLeft raw⟩
  rw [← trim_before_trimLeft] at hword
  obtain ⟨rest, htext, hrest⟩ := exists_comment (trimLeft raw)
  have hlength := literalLength?_before Text.head_trimLeft hword
  have hequal : trimLeft (gaps ++ '=' :: raw) = '=' :: raw := trimLeft_gaps hgaps (by
    rintro c ⟨⟩
    decide)
  have hassigned : Ros2.assigned? (gaps ++ '=' :: raw) = some (before '#' (trimLeft raw)) := by
    rw [Ros2.assigned?, hequal]
    generalize before '#' (trimLeft raw) = front at *
    simp only [hlength]
    rw [htext, Ros2.finished?_append _ hrest]
    rfl
  rw [Ending.read?, hassigned]
  rfl

/-! ## Agreement -/

/-- The text of a ROS 1 constant other than a string is a literal. -/
theorem word_of_decodeScalar {line : List Char} {d : Derivation} (hd : d ∈ Ros1.derivations line)
    (hassigned : d.assigned.isSome) (hother : d.typeClass ≠ .string) {text : List Char} {value : Value}
    (h : Literal.decodeScalar d.fieldType (trim text) = .ok value) : Word isLiteralPart (trim text) := by
  obtain ⟨p, hp, hdecode⟩ := Literal.decodeScalar_eq_ok.1 h
  rw [Text.trim_trim] at hdecode
  have hclass := Ros1.class_of_mem_derivations hd hassigned hother
  exact word_of_decodeAs (Ros1.isString_eq_false_of_ofWord hp hclass) hdecode

/-- **Agreement of the line grammars.** A line that both grammars read as a field, and the first not as
a string constant, is the same field for both. -/
theorem field_agrees {line : List Char} {f g : Field} (h₁ : Ros1.field line = .ok f)
    (h₂ : Ros2.field line = .ok g) (hstring : ¬ (f.isConstant = true ∧ f.type = "string")) : f = g := by
  obtain ⟨d, hd, hf⟩ := Ros1.field_eq_ok.1 h₁
  obtain ⟨hname, hyields⟩ := Derivation.field_eq_ok.1 hf
  obtain ⟨e, he, hg⟩ := Ros2.field_eq_ok.1 h₂
  obtain ⟨bound, hbound, array, harray, -, hyields'⟩ := Declaration.field_eq_ok.1 hg
  obtain ⟨gap', tail', w⟩ := Ros2.declaration_eq_some.1 he
  have hmem : d ∈ Ros1.derivations line := hd ▸ List.mem_singleton_self d
  obtain ⟨⟨lead, marks, gap, tail, s⟩, produced⟩ := Ros1.spelled_of_mem_derivations hmem
  obtain ⟨htype, hbound', harray', hnames, rfl⟩ := parts_eq s w hname
  rw [hbound'] at hbound
  cases hbound
  cases harray.symm.trans harray'
  have hfieldType : e.fieldType = d.fieldType := by rw [Declaration.fieldType, htype, Derivation.fieldType]
  have hread := w.ending
  have htail := s.tail
  cases hyields with
  | plain hassigned =>
    rw [hassigned] at htail
    cases htail with
    | finished gaps rest hgaps hcomment =>
      rw [read?_finished hgaps hcomment] at hread
      cases hyields' with
      | constant raw value ending => cases hread.trans (congrArg some ending)
      | default raw value ending => cases hread.trans (congrArg some ending)
      | plain ending =>
        rw [Declaration.plainField, hfieldType, hnames]
        rcases d.array with _ | (_ | n | n) <;> rfl
  | text raw hassigned hclass =>
    refine absurd ⟨rfl, ?_⟩ hstring
    change d.fieldType = "string"
    rw [Derivation.fieldType, Ros1.ofList_of_ofWord (produced.class_eq.trans hclass)]
    rfl
  | literal raw value hassigned hother hdecode =>
    rw [hassigned] at htail
    cases htail with
    | assigned gaps _ hgaps _ =>
      have hword := word_of_decodeScalar hmem (by rw [hassigned]; rfl) hother hdecode
      obtain ⟨text, htext, htrim⟩ := read?_literal hgaps hword
      rw [htext] at hread
      cases hyields' with
      | constant raw' value' ending name scalar type decoded =>
        cases hread.trans (congrArg some ending)
        rw [hfieldType, htrim] at decoded
        cases hdecode.symm.trans decoded
        rw [hfieldType, hnames, htrim]
        rfl
      | default raw' value' ending => cases hread.trans (congrArg some ending)
      | plain ending => cases hread.trans (congrArg some ending)

theorem field_agrees_at_least :
    ∃ f g, Ros1.field "byte LEAST =-5# a comment".toList = .ok f ∧
      Ros2.field "byte LEAST =-5# a comment".toList = .ok g ∧ f = g := by
  have hfirst : Ros1.field "byte LEAST =-5# a comment".toList =
      .ok (.constantOf "int8" "LEAST" (.int (-5)) (some "-5")) := by decide +kernel
  have hsecond : Ros2.field "byte LEAST =-5# a comment".toList =
      .ok (.constantOf "int8" "LEAST" (.int (-5)) (some "-5")) := by decide +kernel
  exact ⟨_, _, hfirst, hsecond, field_agrees hfirst hsecond (by decide)⟩

/-- Only ROS 1 takes a comment for a part of a string constant. -/
example : Ros1.field "string S = a # b".toList ≠ Ros2.field "string S = a # b".toList := by
  decide +kernel

end RosSchema.Line

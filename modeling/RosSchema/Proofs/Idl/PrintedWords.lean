import RosSchema.Proofs.Idl.Takes
import RosSchema.Proofs.Literal.Escapes
import RosSchema.Proofs.Number.Text

/-!
# Printed names and literals

The readers of names, literals and counts take the words that stand for them. No reserved word is the
first part of a scoped name, so that no alternative that starts with one takes such a name.
-/

namespace RosSchema.Idl

open Reader
open RosSchema.Literal (Digits Escaped IsDigit Units digits_eight digits_sixteen
  hexWidth?_eq_some isOctalDigit_eq_false letterEscape?_eq_some unquote unquote_eq_ok)

/-! ## Names -/

theorem isNamePart_of_mem_reserved {s : String} (hs : s ∈ reservedWords) :
    ∀ c ∈ s.toList, isNamePart c = true :=
  List.all_eq_true.1 ((show ∀ s ∈ reservedWords, s.toList.all isNamePart = true by decide) s hs)

theorem gapless_of_mem_reserved {s : String} (hs : s ∈ reservedWords) : s.toList.all (!isGap ·) = true :=
  (show ∀ s ∈ reservedWords, s.toList.all (!isGap ·) = true by decide) s hs

/-- A scoped name starts with a name, which goes on as far as it can. -/
theorem IsScopedName.splits {word : List Char} (h : IsScopedName word) :
    ∃ first rest, IsName first ∧ Splits isNamePart word first rest := by
  cases h with
  | @mk first others hfirst _ =>
    refine ⟨first, others.flatMap scopeText, hfirst, rfl, hfirst.parts, ?_⟩
    cases others with
    | nil => simp
    | cons part others =>
      rintro c ⟨⟩
      decide

/-- No reserved word stands at the front of a scoped name, unless the name goes on with a character of
names. -/
theorem IsScopedName.exists_of_reserved {word back : List Char} (h : IsScopedName word) {s : String}
    (hs : s ∈ reservedWords) (hword : word = s.toList ++ back) :
    ∃ c rest, back = c :: rest ∧ isNamePart c = true := by
  obtain ⟨first, rest, hfirst, hsplits⟩ := h.splits
  have hother (hstops : ∀ c ∈ back.head?, isNamePart c = false) : False := by
    have hsplits' : Splits isNamePart word s.toList back := ⟨hword, isNamePart_of_mem_reserved hs, hstops⟩
    exact hfirst.free s hs (hsplits.unique hsplits').1
  cases back with
  | nil => exact (hother (by simp)).elim
  | cons c back =>
    refine ⟨c, back, rfl, ?_⟩
    by_contra hc
    exact hother fun d hd => Option.some.inj hd ▸ Bool.not_eq_true _ ▸ hc

theorem IsScopedName.ne_reserved {word : List Char} (h : IsScopedName word) {s : String} (hs : s ∈ reservedWords) :
    word ≠ s.toList := by
  intro heq
  rw [← List.append_nil s.toList] at heq
  obtain ⟨c, rest, hnil, -⟩ := h.exists_of_reserved hs heq
  cases hnil

theorem IsScopedName.chars {word : List Char} (h : IsScopedName word) :
    ∀ c ∈ word, isNamePart c = true ∨ c = ':' := by
  cases h with
  | mk hfirst hothers =>
    intro c hc
    rcases List.mem_append.1 hc with hc | hc
    · exact .inl (hfirst.parts c hc)
    · obtain ⟨part, hpart, hc⟩ := List.mem_flatMap.1 hc
      rcases List.mem_cons.1 hc with rfl | hc
      · exact .inr rfl
      rcases List.mem_cons.1 hc with rfl | hc
      · exact .inr rfl
      · exact .inl ((hothers part hpart).parts c hc)

theorem IsScopedName.start {word : List Char} (h : IsScopedName word) :
    ∃ c rest, word = c :: rest ∧ isNameStart c = true := by
  cases h with
  | mk hfirst _ =>
    obtain ⟨c, rest, rfl, hc⟩ := hfirst.start
    exact ⟨c, _, rfl, hc⟩

theorem IsName.scoped {word : List Char} (h : IsName word) : IsScopedName word := by
  have hscoped : IsScopedName (word ++ [].flatMap scopeText) := .mk h (by simp)
  simpa using hscoped

/-- A character of words that neither gaps nor comments nor strings start with. -/
def isPlain (c : Char) : Bool := !isGap c && c != '/' && c != '"'

theorem isPlain_iff {c : Char} : isPlain c = true ↔ isGap c = false ∧ c ≠ '/' ∧ c ≠ '"' := by
  simp [isPlain, and_assoc]

theorem isToken_of_plain {word : List Char} (h : Word isPlain word) : IsToken word := by
  refine ⟨?_, fun rest => (strip_plain_append (fun c hc => (isPlain_iff.1 (h.all c hc)).2) rest).1⟩
  obtain ⟨c, rest, rfl, hc⟩ := h.exists_cons
  exact ⟨c, rest, rfl, (isPlain_iff.1 hc).1⟩

theorem isPlain_of_isNamePart {c : Char} (h : isNamePart c = true) : isPlain c = true := by
  refine isPlain_iff.2 ⟨isGap_eq_false_of_isNamePart h, ?_, ?_⟩ <;> rintro rfl <;> exact absurd h (by decide)

theorem IsScopedName.plain {word : List Char} (h : IsScopedName word) : Word isPlain word := by
  refine ⟨?_, fun c hc => ?_⟩
  · obtain ⟨c, rest, rfl, -⟩ := h.start
    exact List.cons_ne_nil c rest
  · rcases h.chars c hc with hpart | rfl
    · exact isPlain_of_isNamePart hpart
    · decide

section Names

variable {word : List Char} {words : List (List Char)} {limit : Nat}

theorem isNamePart_head?_of_gap {rest : List Char} (h : ∃ c tail, rest = c :: tail ∧ isGap c = true) :
    ∀ c ∈ rest.head?, isNamePart c = false := by
  obtain ⟨c, tail, rfl, hc⟩ := h
  rintro d ⟨⟩
  exact isNamePart_eq_false_of_isGap hc

theorem reads_identifier (h : IsName word) : Reads (At (word :: words)) identifier word (Behind words) :=
  reads_word fun _ hrest => identifier_eq_some.2 ⟨h.start, rfl, h.parts, isNamePart_head?_of_gap hrest⟩

theorem reads_name (h : IsName word) : Reads (At (word :: words)) name (String.ofList word) (Behind words) :=
  (reads_identifier h).map String.ofList

/-- The further parts of a scoped name are read up to a gap. -/
theorem many_scopePart {others : List (List Char)} (h : ∀ part ∈ others, IsName part) {rest : List Char}
    (hrest : ∃ c tail, rest = c :: tail ∧ isGap c = true) (hlimit : others.length ≤ limit) :
    many scopePart limit (others.flatMap scopeText ++ rest) = some (others.map scopeText, rest) := by
  have hstop : ∀ c ∈ rest.head?, isNamePart c = false := isNamePart_head?_of_gap hrest
  have hcolon : ':' ∉ rest.head? := by
    obtain ⟨c, tail, rfl, hc⟩ := hrest
    rintro ⟨⟩
    exact absurd hc (by decide)
  induction others generalizing limit with
  | nil =>
    cases limit with
    | zero => rfl
    | succ limit =>
      have hnone : scopePart rest = none := by
        refine Option.eq_none_iff_forall_ne_some.2 fun r hr => ?_
        obtain ⟨u, mid, htoken, -⟩ := bind_eq_some.1 hr
        rw [token_eq_some.1 htoken] at hcolon
        exact hcolon rfl
      rw [List.flatMap_nil, List.nil_append, many_succ_apply, hnone]
      rfl
  | cons part others ih =>
    cases limit with
    | zero => cases hlimit
    | succ limit =>
      obtain ⟨hpart, hothers⟩ := List.forall_mem_cons.1 h
      have hstops : ∀ c ∈ (others.flatMap scopeText ++ rest).head?, isNamePart c = false := by
        cases others with
        | nil => exact hstop
        | cons other others =>
          rintro c ⟨⟩
          decide
      have hread : scopePart (scopeText part ++ (others.flatMap scopeText ++ rest)) =
          some (scopeText part, others.flatMap scopeText ++ rest) :=
        bind_eq_some.2 ⟨(), part ++ (others.flatMap scopeText ++ rest), token_eq_some.2 rfl, bind_eq_some.2
          ⟨part, others.flatMap scopeText ++ rest, identifier_eq_some.2 ⟨hpart.start, rfl, hpart.parts, hstops⟩, rfl⟩⟩
      rw [List.flatMap_cons, List.append_assoc, many_succ_apply, hread, Option.bind_some,
        ih hothers (Nat.le_of_succ_le_succ hlimit)]
      rfl

theorem length_le_flatMap_scopeText (others : List (List Char)) :
    others.length ≤ (others.flatMap scopeText).length := by
  induction others with
  | nil => exact le_rfl
  | cons part others ih =>
    rw [List.flatMap_cons, List.length_append, List.length_cons, scopeText, List.length_cons, List.length_cons]
    omega

theorem reads_scopedName (h : IsScopedName word) (hlimit : word.length ≤ limit) :
    Reads (At (word :: words)) (scopedName limit) (String.ofList word) (Behind words) := by
  cases h with
  | @mk first others hfirst hothers =>
    refine reads_word fun rest hrest => ?_
    have hlength := length_le_flatMap_scopeText others
    rw [List.length_append] at hlimit
    have hmany := many_scopePart hothers hrest (show others.length ≤ limit by omega)
    have hstops : ∀ c ∈ (others.flatMap scopeText ++ rest).head?, isNamePart c = false := by
      cases others with
      | nil => exact isNamePart_head?_of_gap hrest
      | cons other others =>
        rintro c ⟨⟩
        decide
    rw [List.append_assoc]
    refine bind_eq_some.2 ⟨first, others.flatMap scopeText ++ rest,
      identifier_eq_some.2 ⟨hfirst.start, rfl, hfirst.parts, hstops⟩, ?_⟩
    exact bind_eq_some.2 ⟨others.map scopeText, rest, hmany, by rw [← List.flatMap_def]; rfl⟩

theorem fails_scopedName (h : ∀ c ∈ first? words, isNameStart c = false) : Fails (At words) (scopedName limit) :=
  (fails_identifier h).bind

end Names

/-! ## Strings -/

/-- What stands between the quotes of a string is a sequence of units. -/
theorem Spells.units {body cs : List Char} (h : Spells body cs) : Units (some '"') body cs := by
  induction h with
  | nil => exact .nil
  | plain hquote hbackslash _ ih => exact .char (by simpa using hquote) hbackslash ih
  | letter hletter _ ih => exact .escape [_] (.letter (letterEscape?_eq_some.1 hletter)) ih
  | hex hwidth hlength hcode hvalid _ ih =>
    exact .escape _ (.hex (hexWidth?_eq_some.1 hwidth) hlength (digits_sixteen.2 hcode) hvalid) ih
  | @octal digits body cs hdigits hlength hlast _ _ ih =>
    have hvalue : Digits 8 digits (Nat.ofDigitChars 8 digits 0) := digits_eight.2 ⟨hdigits.all, rfl⟩
    have hstops : digits.length = 3 ∨ ∀ c ∈ body.head?, ∀ d, ¬ IsDigit 8 c d := by
      simpa only [isOctalDigit_eq_false] using hlast
    exact .escape _ (.octal hdigits.ne_nil hlength hvalue hstops) ih

theorem Spells.escaped {body cs : List Char} (h : Spells body cs) : Escaped (· == '"') body :=
  h.units.escaped (by rintro c ⟨⟩; decide)

theorem Spells.unquote_eq {body cs : List Char} (h : Spells body cs) : unquote ('"' :: body ++ ['"']) = .ok cs := by
  rw [List.cons_append]
  exact (unquote_eq_ok (by decide)).2 ⟨body, rfl, h.units⟩

/-- Comments do not start in a string, and the text after it is no string. -/
theorem strip_string_append {body : List Char} (h : Escaped (· == '"') body) (rest : List Char) :
    strip .string (body ++ '"' :: rest) = body ++ '"' :: strip .code rest := by
  induction h with
  | nil => rw [List.nil_append, strip, List.nil_append]
  | pair c _ ih => rw [List.cons_append, List.cons_append, strip, ih, List.cons_append, List.cons_append]
  | @char c body hplain hinside _ ih =>
    have hstays : Stays .string c (body ++ '"' :: rest) := ⟨by simpa using hinside, fun hc => absurd hc hplain⟩
    rw [List.cons_append, strip_cons hstays, ih]
    rfl

theorem isToken_string {body : List Char} (h : Escaped (· == '"') body) : IsToken ('"' :: body ++ ['"']) := by
  refine ⟨⟨'"', body ++ ['"'], rfl, by decide⟩, fun rest => ?_⟩
  rw [List.append_assoc, List.singleton_append, List.cons_append, strip, strip_string_append h]
  simp

section Literals

variable {word : List Char} {words : List (List Char)} {limit : Nat} {value : Literal}

theorem reads_stringPiece {body : List Char} (h : Escaped (· == '"') body) :
    Reads (At (('"' :: body ++ ['"']) :: words)) stringPiece ('"' :: body ++ ['"']) (Behind words) :=
  reads_word fun _ _ => stringPiece_eq_some.2 ⟨body, h, rfl, rfl⟩

theorem fails_stringPiece (h : '"' ∉ first? words) : Fails (At words) stringPiece := by
  intro cs hcs
  have hhead := hcs.head?
  unfold stringPiece
  split
  · exact absurd hhead.symm h
  · rfl

theorem reads_stringLiteral {body cs : List Char} (hbody : Spells body cs) (hnext : '"' ∉ first? words) :
    Reads (At (('"' :: body ++ ['"']) :: words)) (stringLiteral limit)
      (.value (.string (String.ofList cs)), some ('"' :: body ++ ['"'])) (Behind words) := by
  have hmore : Fails (Behind words) (gap *> stringPiece) :=
    Fails.seqRight_of_reads reads_gap (fails_stringPiece hnext)
  have hdecode : Reads (Behind words) (decodePiece ('"' :: body ++ ['"'])) cs (Behind words) :=
    .given (by rw [hbody.unquote_eq]; rfl)
  have hresult : Reads (Behind words)
      (pure (.value (.string (String.ofList (cs ++ ([] : List (List Char)).flatten))), some ('"' :: body ++ ['"'])))
      (Literal.value (.string (String.ofList cs)), some ('"' :: body ++ ['"'])) (Behind words) := by
    rw [List.flatten_nil, List.append_nil]
    exact .pure _
  exact (reads_stringPiece hbody.escaped).bind ((Reads.many_nil hmore limit).bind
    (hdecode.bind ((Reads.pure []).bind hresult)))

theorem reads_stop : Reads (Behind words) (stop isNamePart) () (Behind words) := by
  rintro cs ⟨gaps, rest, rfl, hgaps, hrest⟩
  obtain ⟨c, tail, rfl, hc⟩ := hgaps.exists_cons
  refine ⟨c :: tail ++ rest, ?_, c :: tail, rest, rfl, hgaps, hrest⟩
  rw [List.cons_append, stop, isNamePart_eq_false_of_isGap hc]
  rfl

/-- A reserved word is not read off a scoped name and ended there. -/
theorem fails_reserved {α : Type} {s : String} (hs : s ∈ reservedWords) (hword : IsScopedName word) (a : α) :
    Fails (At (word :: words)) ((token s >>= fun _ => pure a) >>= fun b => stop isNamePart >>= fun _ => pure b) := by
  rw [bind_assoc]
  have hne : word ≠ s.toList := hword.ne_reserved hs
  refine fails_token_bind (gapless_of_mem_reserved hs) (fun heq => absurd heq hne) fun c part tail heq => ?_
  obtain ⟨d, rest, hcons, hd⟩ := hword.exists_of_reserved hs heq
  obtain ⟨rfl, -⟩ := List.cons.inj hcons
  rw [pure_bind]
  refine Option.eq_none_iff_forall_ne_some.2 fun _ hr => ?_
  obtain ⟨_, _, hstop, -⟩ := bind_eq_some.1 hr
  rw [List.cons_append, stop, hd] at hstop
  cases hstop

theorem fails_boolLiteral_name (hword : IsScopedName word) : Fails (At (word :: words)) boolLiteral := by
  rw [boolLiteral, seqLeft_eq_bind]
  exact .orElse_bind (fails_reserved (by decide) hword _) (.orElse_bind (fails_reserved (by decide) hword _)
    (.orElse_bind (fails_reserved (by decide) hword _) (fails_reserved (by decide) hword _)))

theorem fails_boolLiteral (h : ∀ c ∈ first? words, isNameStart c = false) : Fails (At words) boolLiteral := by
  have hchoice {s : String} (hs : s.toList.head?.any isNameStart = true) (b : Bool) :
      Fails (At words) (token s >>= fun _ => pure (Literal.value (.bool b), some s.toList)) :=
    (fails_token_of_start hs h).bind
  exact ((hchoice (by decide) true).orElse ((hchoice (by decide) false).orElse ((hchoice (by decide) true).orElse
    (hchoice (by decide) false)))).seqLeft

theorem reads_yes : Reads (At ("TRUE".toList :: words)) boolLiteral (.value (.bool true), some "TRUE".toList)
    (Behind words) := by
  have hchoice : Reads (At ("TRUE".toList :: words))
      (token "TRUE" >>= fun _ => pure (Literal.value (.bool true), some "TRUE".toList))
      (.value (.bool true), some "TRUE".toList) (Behind words) := (reads_token "TRUE").bind (.pure _)
  exact hchoice.orElse_left.seqLeft reads_stop

theorem reads_no : Reads (At ("FALSE".toList :: words)) boolLiteral (.value (.bool false), some "FALSE".toList)
    (Behind words) := by
  have hchoice : Reads (At ("FALSE".toList :: words))
      (token "FALSE" >>= fun _ => pure (Literal.value (.bool false), some "FALSE".toList))
      (.value (.bool false), some "FALSE".toList) (Behind words) := (reads_token "FALSE").bind (.pure _)
  have hother : Fails (At ("FALSE".toList :: words))
      (token "TRUE" >>= fun _ => pure (Literal.value (.bool true), some "TRUE".toList)) :=
    (fails_token (c := 'T') rfl (by rintro ⟨⟩)).bind
  exact (hchoice.orElse_left.orElse_right hother).seqLeft reads_stop

/-- No hexadecimal number starts in a word without its letter. -/
theorem fails_hexLiteral (h : ∀ c ∈ word, (c == 'x' || c == 'X') = false) :
    Fails (At (word :: words)) hexLiteral := by
  intro cs hcs
  refine Option.eq_none_iff_forall_ne_some.2 fun r hr => ?_
  obtain ⟨_, mid, hmark, hr⟩ := bind_eq_some.1 hr
  obtain ⟨x, mid', hone, -⟩ := bind_eq_some.1 hr
  obtain ⟨rfl, hx⟩ := one_eq_some.1 hone
  have hcs' := mark_eq_some.1 hmark
  cases hcs with
  | @cons _ gaps _ rest hword hgaps _ =>
    obtain ⟨c, tail, rfl, hc⟩ := hword.start
    obtain ⟨rfl, htail⟩ := List.cons.inj hcs'
    cases tail with
    | nil =>
      obtain ⟨g, more, rfl, hg⟩ := hgaps.exists_cons
      obtain ⟨rfl, -⟩ := List.cons.inj htail
      simp only [Bool.or_eq_true, beq_iff_eq] at hx
      rcases hx with rfl | rfl <;> exact absurd hg (by decide)
    | cons d tail =>
      obtain ⟨rfl, -⟩ := List.cons.inj htail
      rw [h d (by simp)] at hx
      cases hx

theorem numeralValue?_of_fits {sign : Option Sign} {digits : List Char}
    (hlow : -(2 ^ 63) ≤ Numeral.signed sign (Numeral.natOfDigits digits))
    (hhigh : Numeral.signed sign (Numeral.natOfDigits digits) < 2 ^ 63) :
    numeralValue? ⟨sign, digits, none, none⟩ = some (.int (Numeral.signed sign (Numeral.natOfDigits digits))) := by
  have hpow : Nat.pow 2 63 = 2 ^ 63 := rfl
  have hwhole : Numeral.isWhole ⟨sign, digits, none, none⟩ = true := rfl
  rw [numeralValue?, if_pos hwhole]
  refine if_pos ?_
  rw [hpow]
  simpa using ⟨hlow, hhigh⟩

theorem read?_digits (sign : Option Sign) {digits rest : List Char} (hdigits : Word Char.isDigit digits)
    (hrest : ∃ c tail, rest = c :: tail ∧ isGap c = true) :
    Numeral.read? (Sign.text sign ++ digits ++ rest) = some (⟨sign, digits, none, none⟩, rest) := by
  have hnumeral : Numeral.WellFormed ⟨sign, digits, none, none⟩ := ⟨hdigits, by simp, by simp⟩
  have htext : Numeral.text ⟨sign, digits, none, none⟩ = Sign.text sign ++ digits := by simp [Numeral.text]
  have hends : Numeral.EndsNumeral rest := by
    obtain ⟨c, tail, rfl, hc⟩ := hrest
    rintro d ⟨⟩
    refine ⟨isDigit_eq_false_of_isGap hc, ?_, ?_, ?_⟩ <;> rintro rfl <;> exact absurd hc (by decide)
  rw [← htext]
  exact Numeral.read?_text_append hnumeral hends

theorem reads_numeralLiteral {sign : Option Sign} {digits : List Char} (hdigits : Word Char.isDigit digits)
    (hlow : -(2 ^ 63) ≤ Numeral.signed sign (Numeral.natOfDigits digits))
    (hhigh : Numeral.signed sign (Numeral.natOfDigits digits) < 2 ^ 63) :
    Reads (At ((Sign.text sign ++ digits) :: words)) numeralLiteral
      (.value (.int (Numeral.signed sign (Numeral.natOfDigits digits))), some (Sign.text sign ++ digits))
      (Behind words) := by
  have hread : Reads (At ((Sign.text sign ++ digits) :: words)) (Numeral.read? : Reader Numeral)
      ⟨sign, digits, none, none⟩ (Behind words) := reads_word fun _ hrest => read?_digits sign hdigits hrest
  have htext : Numeral.text ⟨sign, digits, none, none⟩ = Sign.text sign ++ digits := by simp [Numeral.text]
  refine hread.bind ((Reads.given (numeralValue?_of_fits hlow hhigh)).bind ?_)
  rw [htext]
  exact .pure _

theorem isDigit_eq_false_of_isNameStart {c : Char} (h : isNameStart c = true) : c.isDigit = false := by
  have hunderscore : '_'.isDigit = false := by decide
  simp only [isNameStart, Char.isAlpha, Char.isUpper, Char.isLower, Bool.or_eq_true, Bool.and_eq_true,
    decide_eq_true_eq, beq_iff_eq, UInt32.le_iff_toNat_le, ge_iff_le] at h
  rcases h with h | rfl
  · simp only [Char.isDigit, Bool.and_eq_false_iff, decide_eq_false_iff_not, UInt32.le_iff_toNat_le, ge_iff_le]
    have hnine : (57 : UInt32).toNat = 57 := rfl
    simp at h ⊢
    omega
  · exact hunderscore

theorem fails_numeralLiteral (h : IsScopedName word) : Fails (At (word :: words)) numeralLiteral := by
  refine Fails.bind fun cs hcs => ?_
  obtain ⟨c, tail, rfl, hc⟩ := h.start
  cases hcs with
  | @cons _ gaps _ rest _ _ _ =>
    have hdigit := isDigit_eq_false_of_isNameStart hc
    have hsign : Sign.read (c :: tail ++ (gaps ++ rest)) = (none, c :: tail ++ (gaps ++ rest)) := by
      refine @Numeral.read_sign none _ ?_
      rintro _ ⟨⟩
      constructor <;> rintro rfl <;> exact absurd hc (by decide)
    have hfraction : Numeral.fraction? (c :: tail ++ (gaps ++ rest)) = (none, c :: tail ++ (gaps ++ rest)) := by
      unfold Numeral.fraction?
      split
      · next heq => exact absurd ((List.cons.inj heq).1 ▸ hc) (by decide)
      · rfl
    have htake : (c :: tail ++ (gaps ++ rest)).takeWhile Char.isDigit = [] := by simp [hdigit]
    have hdrop : (c :: tail ++ (gaps ++ rest)).dropWhile Char.isDigit = c :: tail ++ (gaps ++ rest) := by
      simp [hdigit]
    rw [Numeral.read?, hsign]
    simp only [htake, hdrop, hfraction]
    rfl

theorem reads_constantName (h : IsScopedName word) (hlimit : word.length ≤ limit) :
    Reads (At (word :: words)) (constantName limit) (.constant (String.ofList word), some word) (Behind words) := by
  have hresult : Reads (Behind words) (pure (.constant (String.ofList word), some (String.ofList word).toList))
      (Literal.constant (String.ofList word), some word) (Behind words) := by
    rw [String.toList_ofList]
    exact .pure _
  exact (reads_scopedName h hlimit).bind hresult

/-- The characters of an integer. -/
theorem mem_integer {sign : Option Sign} {digits : List Char} (hdigits : Word Char.isDigit digits) {c : Char}
    (hc : c ∈ Sign.text sign ++ digits) : c = '+' ∨ c = '-' ∨ c.isDigit = true := by
  rcases List.mem_append.1 hc with hc | hc
  · rcases sign with _ | (_ | _) <;> simp [Sign.text, Sign.char] at hc <;> simp [hc]
  · exact .inr (.inr (hdigits.all c hc))

/-- An integer is no literal of the kinds that are tried before numerals. -/
theorem reads_integer {sign : Option Sign} {digits : List Char} (hdigits : Word Char.isDigit digits)
    (hlow : -(2 ^ 63) ≤ Numeral.signed sign (Numeral.natOfDigits digits))
    (hhigh : Numeral.signed sign (Numeral.natOfDigits digits) < 2 ^ 63) :
    Reads (At ((Sign.text sign ++ digits) :: words)) (literal limit)
      (.value (.int (Numeral.signed sign (Numeral.natOfDigits digits))), some (Sign.text sign ++ digits))
      (Behind words) := by
  have hfirst : ∀ c ∈ first? ((Sign.text sign ++ digits) :: words), c = '+' ∨ c = '-' ∨ c.isDigit = true :=
    fun c hc => mem_integer hdigits (List.mem_of_mem_head? hc)
  have hstring : Fails (At ((Sign.text sign ++ digits) :: words)) (stringLiteral limit) := by
    refine (fails_stringPiece fun hquote => ?_).bind
    rcases hfirst '"' hquote with hc | hc | hc <;> exact absurd hc (by decide)
  have hbool : Fails (At ((Sign.text sign ++ digits) :: words)) boolLiteral := by
    refine fails_boolLiteral fun c hc => ?_
    rcases hfirst c hc with rfl | rfl | hc
    · decide
    · decide
    · by_contra hstart
      simp [isDigit_eq_false_of_isNameStart (by simpa using hstart)] at hc
  have hhex : Fails (At ((Sign.text sign ++ digits) :: words)) hexLiteral := by
    refine fails_hexLiteral fun c hc => ?_
    by_contra hx
    simp only [Bool.not_eq_false, Bool.or_eq_true, beq_iff_eq] at hx
    rcases hx with rfl | rfl <;> rcases mem_integer hdigits hc with hc | hc | hc <;> exact absurd hc (by decide)
  exact (((reads_numeralLiteral hdigits hlow hhigh).orElse_left.orElse_right hhex).orElse_right
    hbool).orElse_right hstring

/-- A literal is read off a text as it is spelled, unless it is a string before another one. -/
theorem reads_literal (h : LiteralWord word value) (hlimit : word.length ≤ limit) (hnext : '"' ∉ first? words) :
    Reads (At (word :: words)) (literal limit) (value, some word) (Behind words) := by
  cases h with
  | integer sign hdigits hlow hhigh => exact reads_integer hdigits hlow hhigh
  | yes => exact reads_yes.orElse_left.orElse_right (fails_stringPiece (by rintro ⟨⟩)).bind
  | no => exact reads_no.orElse_left.orElse_right (fails_stringPiece (by rintro ⟨⟩)).bind
  | string hbody => exact (reads_stringLiteral hbody hnext).orElse_left
  | constant hname =>
    have hne : ∀ c, isNameStart c = false → c ∉ first? (word :: words) := by
      obtain ⟨c, tail, rfl, hc⟩ := hname.start
      rintro d hd ⟨⟩
      simp [hc] at hd
    have hhex : Fails (At (word :: words)) hexLiteral := (fails_mark (hne '0' (by decide))).bind
    exact ((((reads_constantName hname hlimit).orElse_right (fails_numeralLiteral hname)).orElse_right
      hhex).orElse_right (fails_boolLiteral_name hname)).orElse_right (fails_stringPiece (hne '"' (by decide))).bind

/-- A count is read off a text as it is written. -/
theorem reads_bound {n : Literal} (h : BoundWord word n) (hlimit : word.length ≤ limit) :
    Reads (At (word :: words)) (bound limit) n (Behind words) := by
  cases h with
  | count hdigits hfits =>
    have hread : Reads (At (word :: words)) (run1 Char.isDigit) word (Behind words) := by
      refine reads_word fun rest hrest => run1_append hdigits ?_
      obtain ⟨c, tail, rfl, hc⟩ := hrest
      rintro _ ⟨⟩
      exact isDigit_eq_false_of_isGap hc
    have hcount : count64? word = some (Numeral.natOfDigits word) := if_pos hfits
    exact Reads.orElse_left (hread.bind ((Reads.given hcount).bind (.pure _)))
  | constant hname =>
    have hdigits : Fails (At (word :: words)) (run1 Char.isDigit) := by
      refine fails_run1 ?_
      obtain ⟨c, tail, rfl, hc⟩ := hname.start
      rintro _ ⟨⟩
      exact isDigit_eq_false_of_isNameStart hc
    exact Reads.orElse_right hdigits.bind ((reads_scopedName hname hlimit).bind (.pure _))

/-! ## Words of literals -/

theorem isPlain_of_isDigit {c : Char} (h : c.isDigit = true) : isPlain c = true :=
  isPlain_of_isNamePart (by simp [isNamePart, Char.isAlphanum, h])

theorem LiteralWord.isToken (h : LiteralWord word value) : IsToken word := by
  cases h with
  | @integer sign digits hdigits _ _ =>
    refine isToken_of_plain ⟨by simp [hdigits.ne_nil], fun c hc => ?_⟩
    rcases mem_integer hdigits hc with rfl | rfl | hc
    · decide
    · decide
    · exact isPlain_of_isDigit hc
  | yes => exact isToken_of_plain (word_of_all (by decide) (by decide))
  | no => exact isToken_of_plain (word_of_all (by decide) (by decide))
  | string hbody => exact isToken_string hbody.escaped
  | constant hname => exact isToken_of_plain hname.plain

theorem BoundWord.plain {n : Literal} (h : BoundWord word n) : Word isPlain word := by
  cases h with
  | count hdigits _ => exact ⟨hdigits.ne_nil, fun c hc => isPlain_of_isDigit (hdigits.all c hc)⟩
  | constant hname => exact hname.plain

end Literals

end RosSchema.Idl

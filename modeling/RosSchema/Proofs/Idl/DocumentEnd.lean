import RosSchema.Proofs.Idl.Alike
import RosSchema.Proofs.Literal.Escapes
import RosSchema.Proofs.Literal.Words

/-!
# The end of a document

A document is read alike whatever gaps stand at its two ends and however great the limits of its reader
are: `toOption_nodes_eq` compares documents by what is left of them without comments and outer gaps.
-/

namespace RosSchema.Idl

open Reader
open RosSchema.Literal (lengthToQuote?_eq_some)

/-! ## Classes without gaps -/

theorem isGap_eq_false_of_isNamePart {c : Char} (h : isNamePart c = true) : isGap c = false := by
  by_contra hc
  simp only [isGap, Bool.not_eq_false, Bool.or_eq_true, beq_iff_eq] at hc
  rcases hc with ((rfl | rfl) | rfl) | rfl <;> exact absurd h (by decide)

section Classes

variable {c : Char} (h : isGap c = true)
include h

theorem isNamePart_eq_false_of_isGap : isNamePart c = false :=
  Bool.eq_false_iff.2 fun hc => by simp [isGap_eq_false_of_isNamePart hc] at h

theorem isNameStart_eq_false_of_isGap : isNameStart c = false :=
  Bool.eq_false_iff.2 fun hc => by
    simp [isGap_eq_false_of_isNamePart (isNamePart_of_isNameStart hc)] at h

theorem isAlphanum_eq_false_of_isGap : c.isAlphanum = false := by
  have hpart := isNamePart_eq_false_of_isGap h
  rw [isNamePart, Bool.or_eq_false_iff] at hpart
  exact hpart.1

theorem isDigit_eq_false_of_isGap : c.isDigit = false := by
  have hpart := isAlphanum_eq_false_of_isGap h
  rw [Char.isAlphanum, Bool.or_eq_false_iff] at hpart
  exact hpart.2

end Classes

/-! ## Names -/

section Readers

variable {m n limit limit' : Nat}

theorem alike_identifier : Alike 1 m n identifier identifier :=
  (alike_one fun _ => isNameStart_eq_false_of_isGap).bind fun c =>
    (alike_run fun _ => isNamePart_eq_false_of_isGap).bind fun cs => .pure (c :: cs)

theorem alike_name : Alike 1 m n name name := alike_identifier.map String.ofList

theorem alike_spaced {c : Char} (hc : isGap c = false) : Alike 1 m n (spaced c) (spaced c) :=
  (alike_gap.seqRight (alike_mark hc)).seqRight alike_gap

theorem alike_scopePart : Alike 1 m n scopePart scopePart :=
  ((alike_token (by decide)).bind fun _ =>
    alike_identifier.bind fun cs => .pure (':' :: ':' :: cs)).weaken (by decide)

theorem alike_word_end : Alike 0 m n (stop isNamePart) (stop isNamePart) :=
  alike_stop fun _ => isNamePart_eq_false_of_isGap

/-! ## Literals without names -/

/-- A piece of a string ends at the first quote that is not escaped. -/
theorem stringPiece_eq_some {cs piece rest : List Char} : stringPiece cs = some (piece, rest) ↔
    ∃ body, Literal.Escaped (· == '"') body ∧ piece = '"' :: body ++ ['"'] ∧ cs = piece ++ rest := by
  constructor
  · intro h
    unfold stringPiece at h
    split at h
    · obtain ⟨k, hk, hread⟩ := Option.map_eq_some_iff.1 h
      obtain ⟨body, rest', rfl, hbody, rfl⟩ := (lengthToQuote?_eq_some (by decide)).1 hk
      rw [List.append_cons, List.take_left' (by simp), List.drop_left' (by simp)] at hread
      cases hread
      exact ⟨body, hbody, by simp, by simp⟩
    · cases h
  · rintro ⟨body, hbody, rfl, rfl⟩
    have hlength : Literal.lengthToQuote? '"' (body ++ '"' :: rest) = some (body.length + 1) :=
      (lengthToQuote?_eq_some (by decide)).2 ⟨body, rest, rfl, hbody, rfl⟩
    rw [List.append_assoc, List.singleton_append, List.cons_append, stringPiece, hlength, Option.map_some,
      List.append_cons, List.take_left' (by simp), List.drop_left' (by simp)]
    rfl

theorem alike_stringPiece : Alike 1 m n stringPiece stringPiece := by
  refine alike_of_front fun cs piece rest h => ?_
  obtain ⟨body, hbody, rfl, rfl⟩ := stringPiece_eq_some.1 h
  refine ⟨'"' :: body ++ ['"'], rfl, by simp, ?_, fun rest => stringPiece_eq_some.2 ⟨body, hbody, rfl, rfl⟩⟩
  intro c hc
  rw [List.getLast?_concat] at hc
  obtain rfl := Option.some.inj hc
  decide

theorem alike_boolLiteral : Alike 1 m n boolLiteral boolLiteral := by
  have hchoice (s : String) (b : Bool) (hs : s.toList.getLast?.all (!isGap ·) = true) (hne : 1 ≤ s.length) :
      Alike 1 m n (do
        token s
        return (Literal.value (.bool b), some s.toList)) (do
        token s
        return (Literal.value (.bool b), some s.toList)) :=
    ((alike_token hs).bind fun _ => .pure _).weaken (by omega)
  exact ((hchoice "TRUE" true (by decide) (by decide)).orElse
    ((hchoice "FALSE" false (by decide) (by decide)).orElse
      ((hchoice "true" true (by decide) (by decide)).orElse
        (hchoice "false" false (by decide) (by decide))))).seqLeft alike_word_end

theorem alike_hexLiteral : Alike 1 m n hexLiteral hexLiteral := by
  have hx : ∀ c, isGap c = true → (c == 'x' || c == 'X') = false := by
    intro c hc
    by_contra hne
    simp only [Bool.not_eq_false, Bool.or_eq_true, beq_iff_eq] at hne
    rcases hne with rfl | rfl <;> exact absurd hc (by decide)
  have hdigit : ∀ c, isGap c = true → (Literal.hexDigit? c).isSome = false := by
    intro c hc
    cases hd : Literal.hexDigit? c with
    | none => rfl
    | some k =>
      have halphanum := (Literal.isDigit_sixteen.2 hd).isAlphanum le_rfl
      simp [isAlphanum_eq_false_of_isGap hc] at halphanum
  rw [hexLiteral]
  refine ((alike_mark (by decide)).bind fun _ => (alike_one hx).bind fun x =>
    (alike_run1 hdigit).bind fun digits => (Alike.given _).bind fun k => (Alike.guarded _).bind fun _ =>
      .pure _).weaken (by decide)

end Readers

/-! ## Numerals -/

namespace EndsAlike

variable {cs ds : List Char}

theorem sign (h : EndsAlike cs ds) :
    (Sign.read cs).1 = (Sign.read ds).1 ∧ EndsAlike (Sign.read cs).2 (Sign.read ds).2 := by
  have hnone (es : List Char) (hes : ∀ c ∈ es.head?, c ≠ '+' ∧ c ≠ '-') : Sign.read es = (none, es) :=
    @Numeral.read_sign none es hes
  cases h with
  | gaps left right =>
    have hhead (es : List Char) (hes : ∀ c ∈ es, isGap c = true) : ∀ c ∈ es.head?, c ≠ '+' ∧ c ≠ '-' := by
      intro c hc
      have hgap := hes c (List.mem_of_mem_head? hc)
      exact ⟨fun heq => absurd (heq ▸ hgap) (by decide), fun heq => absurd (heq ▸ hgap) (by decide)⟩
    rw [hnone cs (hhead cs left), hnone ds (hhead ds right)]
    exact ⟨rfl, .gaps left right⟩
  | @cons c cs ds rest =>
    by_cases hplus : c = '+'
    · subst hplus
      exact ⟨rfl, rest⟩
    by_cases hminus : c = '-'
    · subst hminus
      exact ⟨rfl, rest⟩
    · rw [hnone (c :: cs) (by simp [hplus, hminus]), hnone (c :: ds) (by simp [hplus, hminus])]
      exact ⟨rfl, .cons c rest⟩

theorem digits (h : EndsAlike cs ds) : cs.takeWhile Char.isDigit = ds.takeWhile Char.isDigit ∧
    EndsAlike (cs.dropWhile Char.isDigit) (ds.dropWhile Char.isDigit) :=
  ⟨h.takeWhile_eq fun _ => isDigit_eq_false_of_isGap, h.dropWhile _⟩

theorem fraction (h : EndsAlike cs ds) :
    (Numeral.fraction? cs).1 = (Numeral.fraction? ds).1 ∧
      EndsAlike (Numeral.fraction? cs).2 (Numeral.fraction? ds).2 := by
  have hnone (es : List Char) (hes : '.' ∉ es.head?) : Numeral.fraction? es = (none, es) := by
    unfold Numeral.fraction?
    split
    · simp at hes
    · rfl
  cases h with
  | gaps left right =>
    have hhead (es : List Char) (hes : ∀ c ∈ es, isGap c = true) : '.' ∉ es.head? := fun hc =>
      absurd (hes '.' (List.mem_of_mem_head? hc)) (by decide)
    rw [hnone cs (hhead cs left), hnone ds (hhead ds right)]
    exact ⟨rfl, .gaps left right⟩
  | @cons c cs ds rest =>
    by_cases hpoint : c = '.'
    · subst hpoint
      exact ⟨congrArg some rest.digits.1, rest.digits.2⟩
    · rw [hnone (c :: cs) (by simpa [eq_comm] using hpoint), hnone (c :: ds) (by simpa [eq_comm] using hpoint)]
      exact ⟨rfl, .cons c rest⟩

/-- A power of ten is read on both sides, or on none. -/
theorem tenPower (h : EndsAlike cs ds) (upperCase : Bool) :
    TenPower.read? upperCase cs = none ∧ TenPower.read? upperCase ds = none ∨
      ∃ p left right, TenPower.read? upperCase cs = some (p, left) ∧
        TenPower.read? upperCase ds = some (p, right) ∧ EndsAlike left right := by
  obtain ⟨hsign, hrest⟩ := h.sign
  obtain ⟨hdigits, hdrop⟩ := hrest.digits
  unfold TenPower.read?
  dsimp only
  rw [hsign, hdigits]
  split
  · exact .inl ⟨rfl, rfl⟩
  · exact .inr ⟨_, _, _, rfl, rfl, hdrop⟩

theorem power (h : EndsAlike cs ds) : Numeral.power? cs = none ∧ Numeral.power? ds = none ∨
    ∃ p left right, Numeral.power? cs = some (p, left) ∧ Numeral.power? ds = some (p, right) ∧
      EndsAlike left right := by
  have hnone (es : List Char) (hes : ∀ c ∈ es.head?, c ≠ 'e' ∧ c ≠ 'E') :
      Numeral.power? es = some (none, es) := by
    unfold Numeral.power?
    split
    · simp at hes
    · simp at hes
    · rfl
  cases h with
  | gaps left right =>
    have hhead (es : List Char) (hes : ∀ c ∈ es, isGap c = true) : ∀ c ∈ es.head?, c ≠ 'e' ∧ c ≠ 'E' := by
      intro c hc
      have hgap := hes c (List.mem_of_mem_head? hc)
      exact ⟨fun heq => absurd (heq ▸ hgap) (by decide), fun heq => absurd (heq ▸ hgap) (by decide)⟩
    exact .inr ⟨none, cs, ds, hnone cs (hhead cs left), hnone ds (hhead ds right), .gaps left right⟩
  | @cons c cs ds rest =>
    by_cases hmark : c = 'e' ∨ c = 'E'
    · rcases hmark with rfl | rfl <;> rcases rest.tenPower _ with ⟨hl, hr⟩ | ⟨p, left, right, hl, hr, hends⟩
      · exact .inl ⟨by rw [Numeral.power?, hl]; rfl, by rw [Numeral.power?, hr]; rfl⟩
      · exact .inr ⟨some p, left, right, by rw [Numeral.power?, hl]; rfl, by rw [Numeral.power?, hr]; rfl, hends⟩
      · exact .inl ⟨by rw [Numeral.power?, hl]; rfl, by rw [Numeral.power?, hr]; rfl⟩
      · exact .inr ⟨some p, left, right, by rw [Numeral.power?, hl]; rfl, by rw [Numeral.power?, hr]; rfl, hends⟩
    · rw [not_or] at hmark
      exact .inr ⟨none, c :: cs, c :: ds, hnone _ (by simp [hmark]), hnone _ (by simp [hmark]), .cons c rest⟩

end EndsAlike

section Readers

variable {m n limit limit' : Nat}

theorem alike_numeral : Alike 0 m n (Numeral.read? : Reader Numeral) (Numeral.read? : Reader Numeral) := by
  intro cs ds hends _ _
  have hread : Numeral.read? cs = none ∧ Numeral.read? ds = none ∨
      ∃ k left right, Numeral.read? cs = some (k, left) ∧ Numeral.read? ds = some (k, right) ∧
        EndsAlike left right := by
    obtain ⟨hsign, hrest⟩ := hends.sign
    obtain ⟨hwhole, hrest⟩ := hrest.digits
    obtain ⟨hfraction, hrest⟩ := hrest.fraction
    unfold Numeral.read?
    dsimp only
    rw [hsign, hwhole, hfraction]
    split
    · exact .inl ⟨rfl, rfl⟩
    · rcases hrest.power with ⟨hl, hr⟩ | ⟨p, left, right, hl, hr, hends⟩
      · exact .inl ⟨by rw [hl]; rfl, by rw [hr]; rfl⟩
      · exact .inr ⟨_, left, right, by rw [hl]; rfl, by rw [hr]; rfl, hends⟩
  have hshorter {es rest : List Char} {k : Numeral} (h : Numeral.read? es = some (k, rest)) :
      rest.length + 0 ≤ es.length := by
    obtain ⟨front, rfl, -⟩ := Literal.leadsTo_numeral h
    simp
  rcases hread with ⟨hl, hr⟩ | ⟨k, left, right, hl, hr, hends⟩
  · rw [hl, hr]
    exact .fail
  · have hleft := hshorter hl
    have hright := hshorter hr
    rw [hl, hr]
    exact .read k hends hleft hright

theorem alike_numeralLiteral : Alike 0 m n numeralLiteral numeralLiteral :=
  alike_numeral.bind fun k => (Alike.given (numeralValue? k)).bind fun _ => .pure _

end Readers

/-! ## Names, literals and types -/

section Readers

variable {m n limit limit' : Nat} (hm : m ≤ limit) (hn : n ≤ limit')
include hm hn

theorem alike_scopedName : Alike 1 m n (scopedName limit) (scopedName limit') :=
  alike_identifier.bind fun _ => (alike_scopePart.many hm hn).bind fun _ => .pure _

theorem alike_stringLiteral : Alike 1 m n (stringLiteral limit) (stringLiteral limit') :=
  alike_stringPiece.bind fun first =>
    ((alike_gap.seqRight alike_stringPiece).many hm hn).bind fun others =>
      (Alike.given (Literal.unquote first).toOption).bind fun _ =>
        (Alike.mapM (fun piece => .given (Literal.unquote piece).toOption) others).bind fun _ => .pure _

theorem alike_constantName : Alike 1 m n (constantName limit) (constantName limit') :=
  (alike_scopedName hm hn).bind fun _ => .pure _

theorem alike_literal : Alike 0 m n (literal limit) (literal limit') :=
  ((alike_stringLiteral hm hn).weaken (by decide)).orElse <|
    (alike_boolLiteral.weaken (by decide)).orElse <|
      (alike_hexLiteral.weaken (by decide)).orElse <|
        alike_numeralLiteral.orElse ((alike_constantName hm hn).weaken (by decide))

theorem alike_bound : Alike 1 m n (bound limit) (bound limit') :=
  ((alike_run1 fun _ => isDigit_eq_false_of_isGap).bind fun digits =>
      (Alike.given (count64? digits)).bind fun _ => .pure _).orElse
    ((alike_scopedName hm hn).bind fun _ => .pure _)

theorem alike_boundedString : Alike 1 m n (boundedString limit) (boundedString limit') := by
  have htype (s : String) (hs : s.toList.getLast?.all (!isGap ·) = true) (hne : 1 ≤ s.length) :
      Alike 1 m n (token s *> pure s) (token s *> pure s) :=
    ((alike_token hs).seqRight (.pure s)).weaken hne
  exact (((htype "wstring" (by decide) (by decide)).orElse (htype "string" (by decide) (by decide))).bind
    fun _ => (alike_spaced (by decide)).bind fun _ => (alike_bound hm hn).bind fun _ =>
      alike_gap.bind fun _ => (alike_mark (by decide)).bind fun _ => .pure _).weaken (by decide)

omit hm hn in
theorem phrase_cons_cons (s t : String) (rest : List String) : phrase (s :: t :: rest) = (do
    token s
    gap1
    phrase (t :: rest)) := by
  simp [phrase, seqRight_eq_bind]

omit hm hn in
theorem alike_phrase {words : List String} (hne : words ≠ [])
    (hwords : ∀ s ∈ words, s.toList.getLast?.all (!isGap ·) = true ∧ 1 ≤ s.length) :
    Alike 1 m n (phrase words) (phrase words) := by
  induction words with
  | nil => exact absurd rfl hne
  | cons s rest ih =>
    obtain ⟨⟨hs, hlength⟩, hrest⟩ := List.forall_mem_cons.1 hwords
    cases rest with
    | nil => exact (alike_token hs).weaken hlength
    | cons t rest =>
      have hgap := (ih (List.cons_ne_nil t rest) hrest).gap1_bind
      rw [phrase_cons_cons]
      exact ((alike_token hs).bind fun _ => hgap).weaken (Nat.le_add_left 1 s.length)

omit hm hn in
theorem alike_phraseType : Alike 1 m n phraseType phraseType := by
  have hphrase (words : List String) (type : String) (hne : words ≠ [])
      (hwords : ∀ s ∈ words, s.toList.getLast?.all (!isGap ·) = true ∧ 1 ≤ s.length) :
      Alike 1 m n (phrase words *> pure type) (phrase words *> pure type) :=
    (alike_phrase hne hwords).seqRight (.pure type)
  exact ((hphrase _ _ (by decide) (by decide)).orElse <| (hphrase _ _ (by decide) (by decide)).orElse <|
    (hphrase _ _ (by decide) (by decide)).orElse <| hphrase _ _ (by decide) (by decide)).seqLeft alike_word_end

theorem alike_elementType : Alike 1 m n (elementType limit) (elementType limit') :=
  (alike_boundedString hm hn).orElse <| (alike_phraseType.bind fun _ => .pure _).orElse <|
    (alike_scopedName hm hn).bind fun _ => .pure _

theorem alike_sequenceType : Alike 1 m n (sequenceType limit) (sequenceType limit') :=
  ((alike_token (by decide)).bind fun _ => (alike_spaced (by decide)).bind fun _ =>
    (alike_elementType hm hn).bind fun _ =>
      ((alike_spaced (by decide)).seqRight (alike_bound hm hn)).optional.bind fun _ =>
        alike_gap.bind fun _ => (alike_mark (by decide)).bind fun _ => .pure _).weaken (by decide)

theorem alike_typeSpec : Alike 1 m n (typeSpec limit) (typeSpec limit') :=
  (alike_sequenceType hm hn).orElse (alike_elementType hm hn)

/-! ## Members -/

theorem alike_declarator : Alike 1 m n (declarator limit) (declarator limit') :=
  alike_name.bind fun _ =>
    (((alike_spaced (by decide)).bind fun _ => (alike_bound hm hn).bind fun _ => alike_gap.bind fun _ =>
      (alike_mark (by decide)).bind fun _ => .pure _).optional).bind fun _ => .pure _

theorem alike_typedName : Alike 1 m n (typedName limit) (typedName limit') :=
  ((alike_typeSpec hm hn).bind fun spec =>
    ((alike_declarator hm hn).bind fun d =>
      Alike.given (spec.member? d.1 d.2)).gap1_bind).weaken (by decide)

theorem alike_typedef : Alike 1 m n (typedef limit) (typedef limit') :=
  ((alike_token (by decide)).bind fun _ =>
    ((alike_typedName hm hn).bind fun _ => .pure _).gap1_bind).weaken (by decide)

theorem alike_field : Alike 1 m n (field limit) (field limit') := (alike_typedName hm hn).map Node.field

theorem alike_constant : Alike 1 m n (constant limit) (constant limit') := by
  exact ((alike_token (by decide)).bind fun _ => ((alike_typeSpec hm hn).bind fun spec =>
    (Alike.guarded _).bind fun _ => (alike_name.bind fun _ => (alike_spaced (by decide)).bind fun _ =>
      (alike_literal hm hn).bind fun _ => .pure _).gap1_bind).gap1_bind).weaken (by decide)

/-! ## Notes -/

theorem alike_parameter : Alike 0 m n (parameter limit) (parameter limit') :=
  ((alike_name.bind fun _ => (alike_spaced (by decide)).bind fun _ =>
      (alike_literal hm hn).bind fun _ => .pure _).weaken (by decide)).orElse
    ((alike_literal hm hn).bind fun _ => .pure _)

theorem alike_parameters : Alike 0 m n (parameters limit) (parameters limit') :=
  (alike_gap.bind fun _ => (alike_mark (by decide)).bind fun _ => alike_gap.bind fun _ =>
    ((alike_spaced (by decide)).separated (alike_parameter hm hn) hm hn).bind fun _ =>
      alike_gap.bind fun _ => (alike_mark (by decide)).bind fun _ => .pure _).weaken (by decide)

theorem alike_note : Alike 1 m n (note limit) (note limit') :=
  ((alike_mark (by decide)).bind fun _ => (alike_scopedName hm hn).bind fun _ =>
    (alike_parameters hm hn).optional.bind fun _ => .pure _).weaken (by decide)

theorem alike_annotated {p q : Reader Node} (hp : Alike 1 m n p q) :
    Alike 1 m n (annotated limit p) (annotated limit' q) :=
  (((alike_note hm hn).seqLeft alike_gap).many hm hn).bind fun _ => hp.bind fun _ => .pure _

/-! ## Declarations -/

theorem alike_braced {α : Type} {keyword : String} {inner inner' : Reader α}
    (hkeyword : keyword.toList.getLast?.all (!isGap ·) = true) (hne : 1 ≤ keyword.length)
    (hinner : Alike 1 (m - 1) (n - 1) inner inner') :
    Alike 1 m n (braced keyword inner limit) (braced keyword inner' limit') := by
  have hmembers := (hinner.seqLeft alike_gap).many (show m - 1 ≤ limit by omega) (show n - 1 ≤ limit' by omega)
  exact (((alike_token hkeyword).weaken hne).bind_shorter fun _ =>
    (alike_name.bind fun _ => alike_gap.bind fun _ => (alike_mark (by decide)).bind fun _ =>
      alike_gap.bind fun _ => hmembers.bind fun _ => (alike_mark (by decide)).bind fun _ =>
        .pure _).gap1_bind).weaken (by decide)

omit hm hn in
theorem alike_semicolon : Alike 1 m n semicolon semicolon := alike_gap.seqRight (alike_mark (by decide))

theorem alike_structMember : Alike 1 m n (structMember limit) (structMember limit') :=
  alike_annotated hm hn ((((alike_constant hm hn).orElse (alike_field hm hn)).seqLeft
    alike_semicolon).weaken (by decide))

theorem alike_struct : Alike 1 m n (struct limit) (struct limit') :=
  (alike_braced hm hn (by decide) (by decide)
    ((alike_structMember hm hn).mono le_rfl (Nat.sub_le m 1) (Nat.sub_le n 1))).bind fun _ => .pure _

omit hm hn in
theorem alike_includeFile : Alike 1 m n includeFile includeFile := by
  have hangle : Alike 1 m n (do
      mark '<'
      let _ ← run1 fun c => c != '>' && c != '\n'
      mark '>') (do
      mark '<'
      let _ ← run1 fun c => c != '>' && c != '\n'
      mark '>') := by
    refine alike_of_front fun cs a rest h => ?_
    obtain ⟨⟨⟩, mid, hopen, hread⟩ := bind_eq_some.1 h
    obtain rfl := mark_eq_some.1 hopen
    obtain ⟨path, mid, hpath, hclose⟩ := bind_eq_some.1 hread
    obtain rfl := mark_eq_some.1 hclose
    obtain ⟨hword, rfl, -⟩ := run1_eq_some.1 hpath
    refine ⟨'<' :: path ++ ['>'], by simp, by simp, ?_, fun rest => ?_⟩
    · intro c hc
      rw [List.getLast?_concat] at hc
      obtain rfl := Option.some.inj hc
      decide
    · rw [List.append_assoc, List.singleton_append, List.cons_append]
      exact bind_eq_some.2 ⟨(), path ++ '>' :: rest, mark_eq_some.2 rfl, bind_eq_some.2
        ⟨path, '>' :: rest, run1_append hword (by simp), mark_eq_some.2 rfl⟩⟩
  exact ((alike_token (by decide)).bind fun _ => (alike_skip fun c => c == ' ' || c == '\t').bind fun _ =>
    (alike_stringPiece.map fun _ => ()).orElse hangle).weaken (by decide)

theorem alike_declaration {inner inner' : Reader (Option Node)} (hinner : Alike 1 (m - 1) (n - 1) inner inner') :
    Alike 1 m n (declaration limit inner) (declaration limit' inner') :=
  alike_annotated hm hn <|
    ((alike_braced hm hn (by decide) (by decide) hinner).bind fun _ => .pure _).orElse <|
      (alike_struct hm hn).orElse <| (alike_typedef hm hn).orElse <|
        (alike_constant hm hn).orElse (alike_field hm hn)

theorem alike_item_succ {depth depth' : Nat}
    (hinner : Alike 1 (m - 1) (n - 1) (item limit depth) (item limit' depth')) :
    Alike 1 m n (item limit (depth + 1)) (item limit' (depth' + 1)) :=
  (alike_includeFile.bind fun _ => .pure none).orElse <|
    (((alike_declaration hm hn hinner).seqLeft alike_semicolon).map some).weaken (by decide)

/-- Without modules left to go into, no declaration is read. -/
theorem alike_item_self : ∀ depth, Alike 1 m n (item limit depth) (item limit' depth)
  | 0 => fun _ _ _ _ _ => .fail
  | depth + 1 => alike_item_succ hm hn ((alike_item_self depth).mono le_rfl (Nat.sub_le m 1) (Nat.sub_le n 1))

/-- Modules inside modules need no more depth than the text has characters. -/
theorem alike_item {depth depth' : Nat} (hdepth : m ≤ depth) (hdepth' : n ≤ depth') :
    Alike 1 m n (item limit depth) (item limit' depth') := by
  induction depth generalizing m n depth' with
  | zero =>
    intro cs ds hends hcs hds
    obtain rfl := List.length_eq_zero_iff.1 (Nat.le_zero.1 (hcs.trans hdepth))
    rcases (alike_item_self hn hn depth').elim hends (Nat.zero_le n) hds with
      ⟨-, hq⟩ | ⟨a, left, right, -, -, -, hlen, -⟩
    · rw [hq]
      exact .fail
    · simp at hlen
  | succ depth ih =>
    cases depth' with
    | zero =>
      intro cs ds hends hcs hds
      obtain rfl := List.length_eq_zero_iff.1 (Nat.le_zero.1 (hds.trans hdepth'))
      rcases (alike_item_self hm hm (depth + 1)).elim hends.symm (Nat.zero_le m) hcs with
        ⟨-, hq⟩ | ⟨a, left, right, -, -, -, hlen, -⟩
      · rw [hq]
        exact .fail
      · simp at hlen
    | succ depth' =>
      exact alike_item_succ hm hn (ih (by omega) (by omega) (by omega) (by omega))

end Readers

/-! ## Documents -/

theorem length_strip_le (context : Context) (cs : List Char) : (strip context cs).length ≤ cs.length := by
  fun_induction strip context cs <;> simp only [List.length_cons, List.length_nil] at * <;> omega

/-- What stands after a declaration and its gap is no gap. -/
theorem head?_rest_many {α : Type} {p : Reader α} {limit : Nat} {cs : List Char} {as : List α}
    {rest : List Char} (hcs : ∀ c ∈ cs.head?, isGap c = false)
    (h : many (p <* gap) limit cs = some (as, rest)) : ∀ c ∈ rest.head?, isGap c = false := by
  induction limit generalizing cs as with
  | zero =>
    obtain ⟨-, rfl⟩ := pure_eq_some.1 h
    exact hcs
  | succ limit ih =>
    rw [many, orElse_eq_some] at h
    rcases h with h | ⟨-, h⟩
    · obtain ⟨first, mid, hfirst, h⟩ := bind_eq_some.1 h
      obtain ⟨others, left, hothers, h⟩ := bind_eq_some.1 h
      obtain ⟨-, rfl⟩ := pure_eq_some.1 h
      rw [seqLeft_eq_bind] at hfirst
      obtain ⟨a, mid', -, hfirst⟩ := bind_eq_some.1 hfirst
      obtain ⟨⟨⟩, mid'', hgap, hend⟩ := bind_eq_some.1 hfirst
      obtain ⟨-, rfl⟩ := pure_eq_some.1 hend
      obtain ⟨word, hrun⟩ := discard_eq_some.1 hgap
      exact ih (run_eq_some.1 hrun).stops hothers
    · obtain ⟨-, rfl⟩ := pure_eq_some.1 h
      exact hcs

theorem toOption_nodes (document : List Char) :
    (nodes document).toOption = whole? (items document.length) (stripComments document) := by
  unfold nodes
  split
  · next h => exact h.symm
  · next h => exact h.symm

/-- Gaps at the two ends of a document do not count, and neither does its length. -/
theorem toOption_nodes_eq {document document' : List Char}
    (h : EndsAlike ((stripComments document).dropWhile isGap) ((stripComments document').dropWhile isGap)) :
    (nodes document).toOption = (nodes document').toOption := by
  have hlimit (d : List Char) : ((stripComments d).dropWhile isGap).length ≤ d.length :=
    (List.dropWhile_sublist isGap).length_le.trans (length_strip_le .code d)
  have hread (d : List Char) : items d.length (stripComments d) =
      (many (item d.length d.length <* gap) d.length ((stripComments d).dropWhile isGap)).map
        fun r => (r.1.filterMap id, r.2) := by
    have hgap : gap (stripComments d) = some ((), (stripComments d).dropWhile isGap) :=
      discard_eq_some.2 ⟨_, rfl⟩
    rw [items, bind_of_eq_some hgap]
    exact map_apply _ _ _
  have hhead (d : List Char) : ∀ c ∈ ((stripComments d).dropWhile isGap).head?, isGap c = false :=
    (splits_iff.2 ⟨rfl, rfl⟩).stops
  have hitems := ((alike_item (hlimit document) (hlimit document') (hlimit document)
    (hlimit document')).seqLeft alike_gap).many (hlimit document) (hlimit document')
  rw [toOption_nodes, toOption_nodes, whole?, whole?, hread, hread]
  rcases hitems.elim h le_rfl le_rfl with ⟨hl, hr⟩ | ⟨all, left, right, hl, hr, hends, -, -⟩
  · rw [hl, hr]
  · rw [hl, hr]
    have hleft := head?_rest_many (hhead document) hl
    have hright := head?_rest_many (hhead document') hr
    have hnil : left = [] ↔ right = [] :=
      ⟨fun heq => (heq ▸ hends).eq_nil hright, fun heq => (heq ▸ hends.symm).eq_nil hleft⟩
    cases left <;> cases right <;> simp_all

end RosSchema.Idl

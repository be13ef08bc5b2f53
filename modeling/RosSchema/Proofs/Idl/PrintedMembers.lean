import RosSchema.Proofs.Idl.PrintedWords

/-!
# Printed members

The readers of types, fields and constants take the words that those are printed as. What decides at every
choice is the first word, and after a name that could be the start of more, the word that follows.
-/

namespace RosSchema.Idl

open Reader

variable {word name : List Char} {words more : List (List Char)} {limit : Nat}

/-! ## First words -/

/-- A word that declarations can start with. -/
def opens (word : List Char) : Bool := word.head?.any isNameStart && word.all (!isGap ·)

theorem gapless_of_opens (h : opens word = true) : ∀ c ∈ word, isGap c = false := by
  rw [opens, Bool.and_eq_true] at h
  simpa using List.all_eq_true.1 h.2

theorem not_mem_first?_of_opens (h : opens word = true) {c : Char} (hc : isNameStart c = false) :
    c ∉ first? (word :: words) := by
  intro hfirst
  have hhead : word.head? = some c := hfirst
  rw [opens, hhead, Option.any_some, hc] at h
  cases h

theorem IsScopedName.opens (h : IsScopedName word) : opens word = true := by
  have hgapless : word.all (!isGap ·) = true :=
    List.all_eq_true.2 fun c hc => by simp [(isPlain_iff.1 (h.plain.all c hc)).1]
  obtain ⟨c, rest, rfl, hc⟩ := h.start
  rw [Idl.opens, hgapless, List.head?_cons, Option.any_some, hc]
  rfl

/-! ## Types -/

theorem ne_bracket_of_scoped (h : IsScopedName word) : ∀ c ∈ word, isGap c = false ∧ c ≠ '<' := by
  refine fun c hc => ⟨(isPlain_iff.1 (h.plain.all c hc)).1, ?_⟩
  rintro rfl
  rcases h.chars '<' hc with hpart | hcolon
  · exact absurd hpart (by decide)
  · cases hcolon

theorem keywordType_of_scoped (h : IsScopedName word) : keywordType (String.ofList word) = String.ofList word := by
  have hne {s : String} (hs : s ∈ reservedWords) : String.ofList word ≠ s := by
    rintro rfl
    exact h.ne_reserved hs (by simp)
  unfold keywordType
  split
  · next heq => exact absurd heq (hne (by decide))
  · next heq => exact absurd heq (hne (by decide))
  · next heq => exact absurd heq (hne (by decide))
  · next heq => exact absurd heq (hne (by decide))
  · next heq => exact absurd heq (hne (by decide))
  · next heq => exact absurd heq (hne (by decide))
  · rfl

theorem fails_boundedString (h : IsScopedName word) (hnext : '<' ∉ first? more) :
    Fails (At (word :: more)) (boundedString limit) := by
  have hstring {s : String} (hs : s.toList.all (!isGap ·) = true) {f : String → Reader TypeSpec} :
      Fails (At (word :: more)) ((token s *> pure s) >>= fun type => spaced '<' >>= fun _ => f type) := by
    rw [seqRight_eq_bind, bind_assoc]
    exact fails_opened hs (ne_bracket_of_scoped h) hnext
  exact .orElse_bind (hstring (by decide)) (hstring (by decide))

def phraseStarts : List String := ["unsigned", "long"]

theorem fails_phraseType_of {S : List Char → Prop}
    (h : ∀ s ∈ phraseStarts, ∀ f : Reader Unit, Fails S (token s >>= fun _ => gap1 >>= fun _ => f)) :
    Fails S phraseType := by
  have hphrase {s t : String} {rest : List String} (hs : s ∈ phraseStarts) : Fails S (phrase (s :: t :: rest)) := by
    rw [phrase_cons_cons]
    exact h s hs _
  exact ((hphrase (by decide)).seqRight.orElse ((hphrase (by decide)).seqRight.orElse
    ((hphrase (by decide)).seqRight.orElse (hphrase (by decide)).seqRight))).seqLeft

theorem fails_phraseType (h : IsScopedName word) : Fails (At (word :: more)) phraseType := by
  refine fails_phraseType_of fun s hs _ => ?_
  have hreserved : s ∈ reservedWords := (show ∀ s ∈ phraseStarts, s ∈ reservedWords by decide) s hs
  exact fails_keyword (gapless_of_mem_reserved hreserved) (gapless_of_opens h.opens) (h.ne_reserved hreserved)

/-- A type is read off a text as it is printed, unless a bracket makes more of it. -/
theorem reads_elementType {type : String} {stringBound : Option Literal} (h : ElementWords type stringBound words)
    (hlimit : ∀ word ∈ words, word.length ≤ limit) (hnext : '<' ∉ first? more) :
    Reads (At (words ++ more)) (elementType limit) { type, stringBound } (Behind more) := by
  cases h with
  | @named name hname =>
    have hread : Reads (At (name :: more)) (scopedName limit >>= fun name => pure { type := keywordType name })
        ({ type := keywordType (String.ofList name) } : TypeSpec) (Behind more) :=
      (reads_scopedName hname (hlimit name (by simp))).bind (.pure _)
    rw [keywordType_of_scoped hname] at hread
    exact (hread.orElse_right (fails_phraseType hname).bind).orElse_right (fails_boundedString hname hnext)
  | @bounded _ word n hkeyword hword =>
    have hchoice : Reads (At (type.toList :: ['<'] :: word :: ['>'] :: more))
        ((token "wstring" *> pure "wstring") <|> (token "string" *> pure "string")) type
        (Behind (['<'] :: word :: ['>'] :: more)) := by
      rcases hkeyword with rfl | rfl
      · exact ((reads_token "string").seqRight (.pure "string")).orElse_right
          (fails_token (c := 'w') rfl (by rintro ⟨⟩)).seqRight
      · exact ((reads_token "wstring").seqRight (.pure "wstring")).orElse_left
    have hbound : Reads (At (word :: ['>'] :: more)) (bound limit) n (Behind (['>'] :: more)) :=
      reads_bound hword (hlimit word (by simp))
    exact Reads.orElse_left (hchoice.bind (reads_spaced.bind (hbound.bind (reads_gap.bind (reads_mark.bind
      (.pure _))))))

/-- Only sequences start with the word for them and a bracket. -/
theorem fails_sequenceType {type : String} {stringBound : Option Literal}
    (h : ElementWords type stringBound words) (hnext : '<' ∉ first? more) :
    Fails (At (words ++ more)) (sequenceType limit) := by
  have hgaps : "sequence".toList.all (!isGap ·) = true := by decide
  cases h with
  | named hname => exact fails_opened hgaps (ne_bracket_of_scoped hname) hnext
  | bounded hkeyword _ =>
    have hlength : type.toList.length < "sequence".toList.length := by
      rcases hkeyword with rfl | rfl <;> decide
    refine fails_token_bind hgaps (fun heq => ?_) fun c part tail heq => ?_
    · rw [heq] at hlength
      exact absurd hlength (lt_irrefl _)
    · rw [heq, List.length_append] at hlength
      omega

theorem reads_typeSpec {type : String} {stringBound : Option Literal} (h : ElementWords type stringBound words)
    (hlimit : ∀ word ∈ words, word.length ≤ limit) (hnext : '<' ∉ first? more) :
    Reads (At (words ++ more)) (typeSpec limit) { type, stringBound } (Behind more) :=
  (reads_elementType h hlimit hnext).orElse_right (fails_sequenceType h hnext)

theorem reads_sequence {type : String} {stringBound : Option Literal} (h : ElementWords type stringBound words)
    (hlimit : ∀ word ∈ words, word.length ≤ limit) :
    Reads (At ("sequence".toList :: ['<'] :: words ++ ['>'] :: more)) (typeSpec limit)
      { type, stringBound, sequence := some none } (Behind more) := by
  have helement : Reads (At (words ++ ['>'] :: more)) (elementType limit) { type, stringBound }
      (Behind (['>'] :: more)) := reads_elementType h hlimit (by rintro ⟨⟩)
  have hbound : Fails (Behind (['>'] :: more)) (spaced ',' *> bound limit) :=
    (fails_spaced (by rintro ⟨⟩)).seqRight
  exact Reads.orElse_left ((reads_token "sequence").bind (reads_spaced.bind (helement.bind
    ((Reads.optional_none hbound).bind (reads_gap.bind (reads_mark.bind (.pure _)))))))

theorem reads_boundedSequence {type : String} {stringBound : Option Literal} {n : Literal}
    (h : ElementWords type stringBound words) (hword : BoundWord word n)
    (hlimit : ∀ word ∈ words, word.length ≤ limit) (hlimit' : word.length ≤ limit) :
    Reads (At ("sequence".toList :: ['<'] :: words ++ [','] :: word :: ['>'] :: more)) (typeSpec limit)
      { type, stringBound, sequence := some (some n) } (Behind more) := by
  have helement : Reads (At (words ++ [','] :: word :: ['>'] :: more)) (elementType limit) { type, stringBound }
      (Behind ([','] :: word :: ['>'] :: more)) := reads_elementType h hlimit (by rintro ⟨⟩)
  have hbound : Reads (Behind ([','] :: word :: ['>'] :: more)) (spaced ',' *> bound limit) n
      (Behind (['>'] :: more)) := reads_spaced.seqRight (reads_bound hword hlimit')
  exact Reads.orElse_left ((reads_token "sequence").bind (reads_spaced.bind (helement.bind
    (hbound.optional_some.bind (reads_gap.bind (reads_mark.bind (.pure _)))))))

/-! ## Members -/

theorem reads_declarator (hname : IsName name) (hnext : '[' ∉ first? more) :
    Reads (At (name :: more)) (declarator limit) (String.ofList name, none) (Behind more) :=
  (reads_name hname).bind ((Reads.optional_none (fails_spaced hnext).bind).bind (.pure _))

theorem reads_arrayDeclarator {n : Literal} (hname : IsName name) (hword : BoundWord word n)
    (hlimit : word.length ≤ limit) :
    Reads (At (name :: ['['] :: word :: [']'] :: more)) (declarator limit) (String.ofList name, some n)
      (Behind more) := by
  have hlength : Reads (Behind (['['] :: word :: [']'] :: more)) (do
      spaced '['
      let n ← bound limit
      gap
      mark ']'
      return n) n (Behind more) :=
    reads_spaced.bind ((reads_bound hword hlimit).bind (reads_gap.bind (reads_mark.bind (.pure n))))
  exact (reads_name hname).bind (hlength.optional_some.bind (.pure _))

theorem IsName.not_mem_first? (h : IsName name) {c : Char} (hc : isNameStart c = false) :
    c ∉ first? (name :: more) :=
  not_mem_first?_of_opens h.scoped.opens hc

theorem reads_typedName_of {S T : List Char → Prop} {spec : TypeSpec} {name : String} {length : Option Literal}
    {m : Member} (hspec : Reads S (typeSpec limit) spec (Behind words))
    (hdeclarator : Reads (At words) (declarator limit) (name, length) T) (hm : spec.member? name length = some m) :
    Reads S (typedName limit) m T :=
  hspec.bind (reads_gap1.bind (hdeclarator.bind (.given hm)))

/-- The words of a member are read as that member. -/
theorem reads_typedName {m : Member} (h : MemberWords m words) (hlimit : ∀ word ∈ words, word.length ≤ limit)
    (hnext : '[' ∉ first? more) : Reads (At (words ++ more)) (typedName limit) m (Behind more) := by
  cases h with
  | @single type stringBound words name htype hname =>
    have hwords : ∀ word ∈ words, word.length ≤ limit := fun word hword => hlimit word (by simp [hword])
    rw [List.append_assoc]
    exact reads_typedName_of (reads_typeSpec htype hwords (hname.not_mem_first? (by decide)))
      (reads_declarator hname hnext) rfl
  | @array type stringBound words name word n htype hname hword =>
    have hwords : ∀ word ∈ words, word.length ≤ limit := fun word hword => hlimit word (by simp [hword])
    rw [List.append_assoc]
    exact reads_typedName_of (reads_typeSpec htype hwords (hname.not_mem_first? (by decide)))
      (reads_arrayDeclarator hname hword (hlimit word (by simp))) rfl
  | @sequence type stringBound words name htype hname =>
    have hwords : ∀ word ∈ words, word.length ≤ limit := fun word hword => hlimit word (by simp [hword])
    rw [List.append_assoc]
    exact reads_typedName_of (reads_sequence htype hwords) (reads_declarator hname hnext) rfl
  | @boundedSequence type stringBound words name word n htype hname hword =>
    have hwords : ∀ word ∈ words, word.length ≤ limit := fun word hword => hlimit word (by simp [hword])
    rw [List.append_assoc]
    exact reads_typedName_of (reads_boundedSequence htype hword hwords (hlimit word (by simp)))
      (reads_declarator hname hnext) rfl

/-- The words of the declarations that a struct does not hold. -/
def outerWords : List String := ["module", "struct", "typedef"]

/-- Words whose first one is that of no declaration but a field. -/
def StartsMember (words : List (List Char)) : Prop :=
  ∃ first rest, words = first :: rest ∧ opens first = true ∧ first ≠ "const".toList ∧
    ∀ s ∈ outerWords, first ≠ s.toList

theorem ElementWords.startsMember {type : String} {stringBound : Option Literal}
    (h : ElementWords type stringBound words) : StartsMember words := by
  have hconst : "const" ∈ reservedWords := by decide
  have houter : ∀ s ∈ outerWords, s ∈ reservedWords := by decide
  cases h with
  | @named name hname =>
    exact ⟨name, [], rfl, hname.opens, hname.ne_reserved hconst, fun s hs => hname.ne_reserved (houter s hs)⟩
  | bounded hkeyword _ => rcases hkeyword with rfl | rfl <;> exact ⟨_, _, rfl, by decide, by decide, by decide⟩

theorem MemberWords.startsMember {m : Member} (h : MemberWords m words) : StartsMember words := by
  cases h with
  | single htype _ | array htype _ _ =>
    obtain ⟨first, rest, rfl, hfirst⟩ := htype.startsMember
    exact ⟨first, _, rfl, hfirst⟩
  | sequence _ _ | boundedSequence _ _ _ => exact ⟨_, _, rfl, by decide, by decide, by decide⟩

theorem reads_constant {type : String} {stringBound : Option Literal} {value : Literal}
    (htype : ElementWords type stringBound words) (hname : IsName name) (hword : LiteralWord word value)
    (hlimit : ∀ word ∈ words, word.length ≤ limit) (hlimit' : word.length ≤ limit) :
    Reads (At ("const".toList :: words ++ name :: ['='] :: word :: [';'] :: more)) (constant limit)
      (.constant
        { type
          name := String.ofList name
          stringBound
          value := some value
          valueText := some (String.ofList word) })
      (Behind ([';'] :: more)) := by
  have hspec : Reads (At (words ++ name :: ['='] :: word :: [';'] :: more)) (typeSpec limit) { type, stringBound }
      (Behind (name :: ['='] :: word :: [';'] :: more)) :=
    reads_typeSpec htype hlimit (hname.not_mem_first? (by decide))
  have hliteral : Reads (At (word :: [';'] :: more)) (literal limit) (value, some word) (Behind ([';'] :: more)) :=
    reads_literal hword hlimit' (by rintro ⟨⟩)
  exact (reads_token "const").bind (reads_gap1.bind (hspec.bind ((Reads.guarded rfl).bind (reads_gap1.bind
    ((reads_name hname).bind (reads_spaced.bind (hliteral.bind (.pure _))))))))

/-! ## Notes -/

theorem fails_note (h : '@' ∉ first? words) : Fails (At words) (note limit) := (fails_mark h).bind

/-- The note of a default is read with its value. -/
theorem reads_note {value : Literal} (hword : LiteralWord word value) (hlimit : word.length ≤ limit)
    (hlimit' : "@default".toList.length ≤ limit) :
    Reads (At ("@default".toList :: ['('] :: "value".toList :: ['='] :: word :: [')'] :: more)) (note limit)
      ⟨"default", [(some "value", value)]⟩ (Behind more) := by
  have hdefault : IsName "default".toList := by decide
  have hvalue : IsName "value".toList := by decide
  have hliteral : Reads (At (word :: [')'] :: more)) (literal limit) (value, some word) (Behind ([')'] :: more)) :=
    reads_literal hword hlimit (by rintro ⟨⟩)
  have hparameter : Reads (At ("value".toList :: ['='] :: word :: [')'] :: more)) (parameter limit)
      (some "value", value) (Behind ([')'] :: more)) :=
    Reads.orElse_left ((reads_name hvalue).bind (reads_spaced.bind (hliteral.bind (.pure _))))
  have hothers : Fails (Behind ([')'] :: more)) (spaced ',' *> parameter limit) :=
    (fails_spaced (by rintro ⟨⟩)).seqRight
  have hall : Reads (At ("value".toList :: ['='] :: word :: [')'] :: more))
      (separated (spaced ',') (parameter limit) limit) [(some "value", value)] (Behind ([')'] :: more)) :=
    Reads.orElse_left (hparameter.bind ((Reads.many_nil hothers limit).bind (.pure _)))
  have hparameters : Reads (Behind (['('] :: "value".toList :: ['='] :: word :: [')'] :: more)) (parameters limit)
      [(some "value", value)] (Behind more) :=
    reads_gap.bind (reads_mark.bind (reads_gap.bind (hall.bind (reads_gap.bind (reads_mark.bind (.pure _))))))
  have hname : Reads (At ("default".toList :: ['('] :: "value".toList :: ['='] :: word :: [')'] :: more))
      (scopedName limit) "default" (Behind (['('] :: "value".toList :: ['='] :: word :: [')'] :: more)) :=
    reads_scopedName hdefault.scoped (le_trans (by decide) hlimit')
  exact (reads_mark_front (isToken_of_plain hdefault.scoped.plain)).bind
    (hname.bind (hparameters.optional_some.bind (.pure _)))

section Annotated

variable {S T : List Char → Prop} {p : Reader Node} {node : Node}

theorem reads_annotated (hp : Reads (At words) p node T) (hnote : '@' ∉ first? words) :
    Reads (At words) (annotated limit p) node T := by
  have hnone : annotate [] node = node := by cases node <;> rfl
  have hread : Reads (At words) (p >>= fun node => pure (annotate [] node)) (annotate [] node) T := hp.bind (.pure _)
  rw [hnone] at hread
  exact (Reads.many_nil (fails_note hnote).seqLeft limit).bind hread

theorem reads_annotated_note {n : Note} (hn : Reads S (note limit) n (Behind words)) (hnote : '@' ∉ first? words)
    (hp : Reads (At words) p node T) (hlimit : 0 < limit) :
    Reads S (annotated limit p) (annotate [n] node) T :=
  (Reads.many_one (hn.seqLeft reads_gap) (fails_note hnote).seqLeft hlimit).bind (hp.bind (.pure _))

/-- Notes can be read before a declaration or before that and its semicolon. -/
theorem annotated_seqLeft (p : Reader Node) (q : Reader Unit) :
    annotated limit p <* q = annotated limit (p <* q) := by
  simp only [annotated, seqLeft_eq_bind, bind_assoc, pure_bind]

end Annotated

/-! ## Fields and constants -/

theorem reads_semicolon : Reads (Behind ([';'] :: words)) semicolon () (Behind words) := reads_gap.seqRight reads_mark

def TakesMembers (limit : Nat) (p : Reader Node) : Prop :=
  ∀ ⦃first : List Char⦄ ⦃rest : List (List Char)⦄ ⦃node : Node⦄ ⦃T : List Char → Prop⦄, opens first = true →
    (∀ s ∈ outerWords, first ≠ s.toList) →
    Reads (At (first :: rest)) (constant limit <|> field limit) node T → Reads (At (first :: rest)) p node T

/-- The words of a field or a constant are read as that, with its notes and its semicolon. -/
theorem reads_printsMember {node : Node} (h : PrintsMember node words)
    (hlimit : ∀ word ∈ words, word.length ≤ limit) {p : Reader Node} (hp : TakesMembers limit p) :
    Reads (At (words ++ more)) (annotated limit (p <* semicolon)) node (Behind more) := by
  have hfield {m : Member} {words : List (List Char)} (hm : MemberWords m words)
      (hlimit : ∀ word ∈ words, word.length ≤ limit) :
      '@' ∉ first? (words ++ [';'] :: more) ∧
        Reads (At (words ++ [';'] :: more)) (p <* semicolon) (.field m) (Behind more) := by
    have hread : Reads (At (words ++ [';'] :: more)) (field limit) (.field m) (Behind ([';'] :: more)) :=
      (reads_typedName hm hlimit (by rintro ⟨⟩)).map Node.field
    obtain ⟨first, rest, rfl, hopens, hconst, houter⟩ := hm.startsMember
    have hother : Fails (At (first :: rest ++ [';'] :: more)) (constant limit) :=
      fails_keyword (by decide) (gapless_of_opens hopens) hconst
    exact ⟨not_mem_first?_of_opens hopens (by decide),
      (hp hopens houter (hread.orElse_right hother)).seqLeft reads_semicolon⟩
  cases h with
  | @field m words hm =>
    obtain ⟨hnote, hread⟩ := hfield hm fun word hword => hlimit word (by simp [hword])
    rw [List.append_assoc]
    exact reads_annotated hread hnote
  | @default m words word value hm hword =>
    obtain ⟨hnote, hread⟩ := hfield hm fun word hword => hlimit word (by simp [hword])
    have hdefault : "@default".toList.length ≤ limit := hlimit _ (by simp)
    have hread := reads_annotated_note (reads_note hword (hlimit word (by simp)) hdefault) hnote hread
      (lt_of_lt_of_le (by decide) hdefault)
    rw [List.append_assoc]
    exact hread
  | @constant type stringBound words name word value htype hname hword =>
    have hread : Reads (At ("const".toList :: words ++ name :: ['='] :: word :: [';'] :: more))
        (constant limit <|> field limit) _ (Behind ([';'] :: more)) :=
      (reads_constant htype hname hword (fun word hword => hlimit word (by simp [hword]))
        (hlimit word (by simp))).orElse_left
    have hopens : opens "const".toList = true := by decide
    rw [List.append_assoc]
    exact reads_annotated ((hp hopens (by decide) hread).seqLeft reads_semicolon)
      (not_mem_first?_of_opens hopens (by decide))

end RosSchema.Idl

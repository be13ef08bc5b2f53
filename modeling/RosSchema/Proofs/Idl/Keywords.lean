import RosSchema.Proofs.Idl.DocumentEnd
import RosSchema.Proofs.Line.Spelling

/-!
# Types spelled by keywords

The primitive types of documents are spelled by keywords, some by two or three of them. A reader that has
taken the longest spelling for a type is not tried on a shorter one, not even where the last keyword is only
the beginning of the name that follows. `nodes_of_structText` says which members are lost in that way, and
with them their struct and document.
-/

namespace RosSchema.Idl

open Reader
open RosSchema.Line.Ros1 (IsIdentifier identifier_append)

/-! ## Keywords -/

inductive Spelling where
  | boolean
  | octet
  | char
  | short
  | unsignedShort
  | long
  | unsignedLong
  | longLong
  | unsignedLongLong
  | float
  | double
  deriving DecidableEq, Repr

namespace Spelling

def words : Spelling → List String
  | boolean => ["boolean"]
  | octet => ["octet"]
  | char => ["char"]
  | short => ["short"]
  | unsignedShort => ["unsigned", "short"]
  | long => ["long"]
  | unsignedLong => ["unsigned", "long"]
  | longLong => ["long", "long"]
  | unsignedLongLong => ["unsigned", "long", "long"]
  | float => ["float"]
  | double => ["double"]

def type : Spelling → String
  | boolean => "bool"
  | octet => "uint8"
  | char => "char"
  | short => "int16"
  | unsignedShort => "uint16"
  | long => "int32"
  | unsignedLong => "uint32"
  | longLong => "int64"
  | unsignedLongLong => "uint64"
  | float => "float32"
  | double => "float64"

def primitive : Spelling → Primitive
  | boolean => .bool
  | octet | char => .uint8
  | short => .int16
  | unsignedShort => .uint16
  | long => .int32
  | unsignedLong => .uint32
  | longLong => .int64
  | unsignedLongLong => .uint64
  | float => .float32
  | double => .float64

/-- A name that could be, or start with, one more keyword of a longer spelling. -/
def clashes (k : Spelling) (name : List Char) : Bool :=
  match k with
  | unsignedLong => "long".toList.isPrefixOf name
  | long => name == "long".toList
  | _ => false

end Spelling

/-! ## Texts in front of other texts -/

theorem gap_append {gaps rest : List Char} (hgaps : ∀ c ∈ gaps, isGap c = true)
    (hrest : ∀ c ∈ rest.head?, isGap c = false) : gap (gaps ++ rest) = some ((), rest) :=
  discard_eq_some.2 ⟨gaps, run_eq_some.2 ⟨rfl, hgaps, hrest⟩⟩

theorem gap1_append {gaps rest : List Char} (hgaps : Word isGap gaps)
    (hrest : ∀ c ∈ rest.head?, isGap c = false) : gap1 (gaps ++ rest) = some ((), rest) :=
  discard_eq_some.2 ⟨gaps, run1_append hgaps hrest⟩

theorem many_eq_nil {α : Type} {p : Reader α} {cs : List Char} (h : p cs = none) (limit : Nat) :
    many p limit cs = some ([], cs) := by
  cases limit with
  | zero => rfl
  | succ limit => rw [many_succ_apply, h]; rfl

theorem isIdentifier_of_checks {cs : List Char} (hstart : cs.head?.any isNameStart = true)
    (hall : cs.all isNamePart = true) : IsIdentifier cs := by
  obtain ⟨c, hc, hstart⟩ := (Option.any_eq_true _ _).1 hstart
  obtain ⟨rest, rfl⟩ := List.head?_eq_some_iff.1 hc
  exact ⟨⟨c, rest, rfl, hstart⟩, List.all_eq_true.1 hall⟩

theorem isGap_head?_identifier {name : List Char} (h : IsIdentifier name) (rest : List Char) :
    ∀ c ∈ (name ++ rest).head?, isGap c = false := by
  obtain ⟨c, tail, rfl, hc⟩ := h.first
  rintro d ⟨⟩
  exact isGap_eq_false_of_isNamePart (isNamePart_of_isNameStart hc)

theorem isGap_head?_gaps {gaps : List Char} (h : Word isGap gaps) (rest : List Char) :
    ∀ c ∈ (gaps ++ rest).head?, isGap c = true := by
  obtain ⟨c, more, rfl, hc⟩ := h.exists_cons
  rintro d ⟨⟩
  exact hc

/-- An identifier before anything but a colon or more of a name is a scoped name. -/
theorem scopedName_append {name rest : List Char} (h : IsIdentifier name)
    (hrest : ∀ c ∈ rest.head?, isNamePart c = false ∧ c ≠ ':') (limit : Nat) :
    scopedName limit (name ++ rest) = some (String.ofList name, rest) := by
  have hpart : scopePart rest = none := by
    refine bind_of_eq_none ?_
    rw [Option.eq_none_iff_forall_ne_some]
    rintro ⟨⟨⟩, left⟩ hread
    rw [token_eq_some.1 hread] at hrest
    exact (hrest ':' rfl).2 rfl
  refine bind_eq_some.2 ⟨name, rest, identifier_append h fun c hc => (hrest c hc).1, ?_⟩
  refine bind_eq_some.2 ⟨[], rest, many_eq_nil hpart limit, ?_⟩
  simp

/-! ## Phrases -/

/-- What the words of a phrase are read as, with the text after them. -/
def phraseRead? (words : List String) (type : String) (cs : List Char) : Option (String × List Char) :=
  (phrase words cs).map fun r => (type, r.2)

def integerRead? (cs : List Char) : Option (String × List Char) :=
  (phraseRead? ["unsigned", "long", "long"] "uint64" cs).or
    ((phraseRead? ["long", "long"] "int64" cs).or
      ((phraseRead? ["unsigned", "short"] "uint16" cs).or (phraseRead? ["unsigned", "long"] "uint32" cs)))

/-- The first phrase counts, and the type is none if a longer word starts with the last one of that. -/
theorem phraseType_apply (cs : List Char) : phraseType cs = (integerRead? cs).bind fun r =>
    (stop isNamePart r.2).map fun s => (r.1, s.2) := by
  have hchoice (words : List String) (type : String) (cs : List Char) :
      (phrase words *> pure type : Reader String) cs = phraseRead? words type cs := by
    rw [phraseRead?, seqRight_eq_bind]
    change ((phrase words cs).bind fun r => some (type, r.2)) = _
    rw [Option.map_eq_bind]
    rfl
  rw [phraseType, seqLeft_apply, orElse_apply, orElse_apply, orElse_apply, hchoice, hchoice, hchoice, hchoice]
  rfl

theorem phrase_append {s t : String} {words : List String} {gaps cs : List Char} (hgaps : Word isGap gaps)
    (hcs : ∀ c ∈ cs.head?, isGap c = false) :
    phrase (s :: t :: words) (s.toList ++ (gaps ++ cs)) = phrase (t :: words) cs := by
  rw [phrase_cons_cons, bind_of_eq_some (token_append s _), bind_of_eq_some (gap1_append hgaps hcs)]

theorem phrase_eq_none {s : String} {words : List String} {cs : List Char} (h : token s cs = none) :
    phrase (s :: words) cs = none := by
  cases words with
  | nil => exact h
  | cons t words =>
    rw [phrase_cons_cons]
    exact bind_of_eq_none h

/-! ## Types -/

/-- What types with brackets, and notes and declarations other than structs and fields, start with. -/
def leads : List String := ["sequence", "wstring", "string", "const", "typedef", "module", "#include", "@"]

/-- A word that is not the beginning of a lead, nor the other way round. -/
def IsApart (word : List Char) : Prop := ∀ s ∈ leads, ¬ s.toList <+: word ∧ ¬ word <+: s.toList

instance (word : List Char) : Decidable (IsApart word) :=
  inferInstanceAs (Decidable (∀ s ∈ leads, ¬ s.toList <+: word ∧ ¬ word <+: s.toList))

theorem IsApart.token {word : List Char} (h : IsApart word) {s : String} (hs : s ∈ leads) (after : List Char) :
    token s (word ++ after) = none :=
  token_eq_none s word (h s hs).1 (h s hs).2 after

def brackets : List String := ["sequence", "wstring", "string"]

def IsUnbracketed (word : List Char) : Prop := ∀ s ∈ brackets, ¬ s.toList <+: word ∧ ¬ word <+: s.toList

instance (word : List Char) : Decidable (IsUnbracketed word) :=
  inferInstanceAs (Decidable (∀ s ∈ brackets, ¬ s.toList <+: word ∧ ¬ word <+: s.toList))

theorem IsApart.unbracketed {word : List Char} (h : IsApart word) : IsUnbracketed word := fun s hs =>
  h s ((show ∀ s ∈ brackets, s ∈ leads by decide) s hs)

section Types

variable {word after rest : List Char} (limit : Nat) (h : IsUnbracketed word)
include h

theorem bracketed_eq_none (after : List Char) :
    sequenceType limit (word ++ after) = none ∧ boundedString limit (word ++ after) = none := by
  have htoken {s : String} (hs : s ∈ brackets) : token s (word ++ after) = none :=
    token_eq_none s word (h s hs).1 (h s hs).2 after
  have hstring {s : String} (hs : s ∈ brackets) : (token s *> pure s : Reader String) (word ++ after) = none := by
    rw [seqRight_eq_bind]
    exact bind_of_eq_none (htoken hs)
  refine ⟨bind_of_eq_none (htoken (by decide)), bind_of_eq_none ?_⟩
  rw [orElse_apply, hstring (by decide), hstring (by decide)]
  rfl

/-- A keyword is the first word of a phrase where it can be. -/
theorem typeSpec_of_phrase {type : String} (hread : phraseType (word ++ after) = some (type, rest)) :
    typeSpec limit (word ++ after) = some ({ type }, rest) := by
  obtain ⟨hsequence, hstring⟩ := bracketed_eq_none limit h after
  refine orElse_eq_some.2 (.inr ⟨hsequence, orElse_eq_some.2 (.inr ⟨hstring, orElse_eq_some.2 (.inl ?_)⟩)⟩)
  exact bind_eq_some.2 ⟨type, rest, hread, rfl⟩

/-- Any other keyword is read as a name. -/
theorem typeSpec_of_name (hnone : phraseType (word ++ after) = none) (hword : IsIdentifier word)
    (hafter : ∀ c ∈ after.head?, isGap c = true) :
    typeSpec limit (word ++ after) = some ({ type := keywordType (String.ofList word) }, after) := by
  obtain ⟨hsequence, hstring⟩ := bracketed_eq_none limit h after
  have hname : scopedName limit (word ++ after) = some (String.ofList word, after) := by
    refine scopedName_append hword (fun c hc => ⟨isNamePart_eq_false_of_isGap (hafter c hc), ?_⟩) limit
    rintro rfl
    exact absurd (hafter ':' hc) (by decide)
  refine orElse_eq_some.2 (.inr ⟨hsequence, orElse_eq_some.2 (.inr ⟨hstring, orElse_eq_some.2 (.inr ⟨?_, ?_⟩)⟩)⟩)
  · exact bind_of_eq_none hnone
  · exact bind_eq_some.2 ⟨String.ofList word, after, hname, rfl⟩

/-- A word that is neither a phrase nor a name is no type. -/
theorem typeSpec_eq_none (hphrase : phraseType (word ++ after) = none)
    (hname : identifier (word ++ after) = none) : typeSpec limit (word ++ after) = none := by
  obtain ⟨hsequence, hstring⟩ := bracketed_eq_none limit h after
  rw [typeSpec, orElse_apply, hsequence, Option.none_or, elementType, orElse_apply, hstring, Option.none_or,
    orElse_apply, bind_of_eq_none hphrase, Option.none_or]
  exact bind_of_eq_none (bind_of_eq_none hname)

end Types

/-! ## Integer types and the name after them -/

section Integers

variable {gaps gaps' : List Char} {cs after : List Char}

theorem phraseRead?_eq_none {s : String} {words : List String} {type : String} (h : token s cs = none) :
    phraseRead? (s :: words) type cs = none := by
  rw [phraseRead?, phrase_eq_none h]
  rfl

theorem phraseRead?_append {s t : String} {words : List String} {type : String} (hgaps : Word isGap gaps)
    (hcs : ∀ c ∈ cs.head?, isGap c = false) :
    phraseRead? (s :: t :: words) type (s.toList ++ (gaps ++ cs)) = phraseRead? (t :: words) type cs := by
  rw [phraseRead?, phrase_append hgaps hcs]
  rfl

theorem phraseRead?_last (s type : String) (cs : List Char) :
    phraseRead? [s] type cs = (token s cs).map fun r => (type, r.2) := rfl

/-- No phrase starts with a word that none of its first words is read off. -/
theorem integerRead?_eq_none (hunsigned : token "unsigned" cs = none) (hlong : token "long" cs = none) :
    integerRead? cs = none := by
  rw [integerRead?, phraseRead?_eq_none hunsigned, phraseRead?_eq_none hlong, phraseRead?_eq_none hunsigned,
    phraseRead?_eq_none hunsigned]
  rfl

theorem phraseType_eq_none (hunsigned : token "unsigned" cs = none) (hlong : token "long" cs = none) :
    phraseType cs = none := by
  rw [phraseType_apply, integerRead?_eq_none hunsigned hlong]
  rfl

/-- What follows `long` counts if it starts like that word as well. -/
theorem integerRead?_long (hgaps : Word isGap gaps) (hcs : ∀ c ∈ cs.head?, isGap c = false) :
    integerRead? ("long".toList ++ (gaps ++ cs)) = (token "long" cs).map fun r => ("int64", r.2) := by
  have hunsigned := token_eq_none "unsigned" "long".toList (by decide) (by decide) (gaps ++ cs)
  rw [integerRead?, phraseRead?_eq_none hunsigned, phraseRead?_append hgaps hcs, phraseRead?_eq_none hunsigned,
    phraseRead?_eq_none hunsigned, phraseRead?_last]
  cases token "long" cs <;> rfl

theorem integerRead?_unsignedShort (hgaps : Word isGap gaps) :
    integerRead? ("unsigned".toList ++ (gaps ++ ("short".toList ++ after))) = some ("uint16", after) := by
  have hshort : ∀ c ∈ ("short".toList ++ after).head?, isGap c = false := by
    rintro c ⟨⟩
    decide
  have hlong := token_eq_none "long" "short".toList (by decide) (by decide) after
  have hfirst := token_eq_none "long" "unsigned".toList (by decide) (by decide)
    (gaps ++ ("short".toList ++ after))
  rw [integerRead?, phraseRead?_append hgaps hshort, phraseRead?_eq_none hlong, phraseRead?_eq_none hfirst,
    phraseRead?_append hgaps hshort, phraseRead?_last, token_append]
  rfl

/-- What follows `unsigned long` counts if it starts like the last word of that. -/
theorem integerRead?_unsignedLong (hgaps : Word isGap gaps) (hgaps' : Word isGap gaps')
    (hcs : ∀ c ∈ cs.head?, isGap c = false) :
    integerRead? ("unsigned".toList ++ (gaps ++ ("long".toList ++ (gaps' ++ cs)))) =
      ((token "long" cs).map fun r => ("uint64", r.2)).or (some ("uint32", gaps' ++ cs)) := by
  have hlong : ∀ c ∈ ("long".toList ++ (gaps' ++ cs)).head?, isGap c = false := by
    rintro c ⟨⟩
    decide
  have hshort := token_eq_none "short" "long".toList (by decide) (by decide) (gaps' ++ cs)
  have hfirst := token_eq_none "long" "unsigned".toList (by decide) (by decide)
    (gaps ++ ("long".toList ++ (gaps' ++ cs)))
  rw [integerRead?, phraseRead?_append hgaps hlong, phraseRead?_append hgaps' hcs, phraseRead?_last,
    phraseRead?_eq_none hfirst, phraseRead?_append hgaps hlong, phraseRead?_eq_none hshort,
    phraseRead?_append hgaps hlong, phraseRead?_last, token_append]
  rfl

end Integers

theorem stop_of_head {cs : List Char} (h : ∀ c ∈ cs.head?, isNamePart c = false) :
    stop isNamePart cs = some ((), cs) := by
  cases cs with
  | nil => rfl
  | cons c cs => rw [stop, h c rfl]; rfl

theorem stop_of_part {c : Char} {cs : List Char} (h : isNamePart c = true) : stop isNamePart (c :: cs) = none := by
  rw [stop, h]
  rfl

/-- A word of names is read off a name that starts with it, and off no other. -/
theorem token_name_eq_none {s : String} {name rest : List Char} (hrest : ∀ c ∈ rest.head?, isNamePart c = false)
    (hs : s.toList.all isNamePart = true) (hnot : ¬ s.toList <+: name) : token s (name ++ rest) = none := by
  rw [Option.eq_none_iff_forall_ne_some]
  rintro ⟨⟨⟩, left⟩ hread
  rcases List.append_eq_append_iff.1 (token_eq_some.1 hread) with ⟨part, heq, htail⟩ | ⟨part, heq, -⟩
  · cases part with
    | nil => exact hnot ⟨[], heq ▸ by simp⟩
    | cons c part =>
      have hc : isNamePart c = true := List.all_eq_true.1 hs c (by simp [heq])
      rw [hrest c (by simp [htail])] at hc
      cases hc
  · exact hnot ⟨part, heq.symm⟩

/-! ## Spellings -/

inductive PhraseText : List String → List Char → Prop where
  | last (s : String) : PhraseText [s] s.toList
  | cons (s : String) {gaps : List Char} {words : List String} {cs : List Char} (hgaps : Word isGap gaps)
      (rest : PhraseText words cs) : PhraseText (s :: words) (s.toList ++ (gaps ++ cs))

/-- A text of words starts with the first of them. -/
theorem PhraseText.exists_append {w : String} {words : List String} {text : List Char}
    (h : PhraseText (w :: words) text) : ∃ after, text = w.toList ++ after := by
  cases h with
  | last => exact ⟨[], by simp⟩
  | cons => exact ⟨_, rfl⟩

theorem PhraseText.eq_of_one {w : String} {text : List Char} (h : PhraseText [w] text) : text = w.toList := by
  cases h with
  | last => rfl
  | cons _ _ hrest => cases hrest

theorem PhraseText.exists_of_two {w w' : String} {text : List Char} (h : PhraseText [w, w'] text) :
    ∃ gaps, Word isGap gaps ∧ text = w.toList ++ (gaps ++ w'.toList) := by
  cases h with
  | cons _ hgaps hrest => exact ⟨_, hgaps, hrest.eq_of_one ▸ rfl⟩

theorem PhraseText.exists_of_three {w w' w'' : String} {text : List Char} (h : PhraseText [w, w', w''] text) :
    ∃ gaps gaps', Word isGap gaps ∧ Word isGap gaps' ∧
      text = w.toList ++ (gaps ++ (w'.toList ++ (gaps' ++ w''.toList))) := by
  cases h with
  | cons _ hgaps hrest =>
    obtain ⟨gaps', hgaps', rfl⟩ := hrest.exists_of_two
    exact ⟨_, gaps', hgaps, hgaps', rfl⟩

/-- Every spelling starts with an identifier. -/
theorem Spelling.exists_cons (k : Spelling) :
    ∃ w words, k.words = w :: words ∧ IsApart w.toList ∧ IsIdentifier w.toList := by
  cases k <;> exact ⟨_, _, rfl, by decide, isIdentifier_of_checks (by decide) (by decide)⟩

/-- A spelling of one keyword. That is the first word of a phrase only if it is `long`. -/
theorem Spelling.single {k : Spelling} {w : String} (hw : k.words = [w]) : keywordType w = k.type ∧
    ∀ s, s = "unsigned" ∨ s = "long" ∧ k ≠ .long → ¬ s.toList <+: w.toList ∧ ¬ w.toList <+: s.toList := by
  have hcheck : ∀ w ∈ k.words, k.words.length = 1 → keywordType w = k.type ∧
      (¬ "unsigned".toList <+: w.toList ∧ ¬ w.toList <+: "unsigned".toList) ∧
      (k ≠ .long → ¬ "long".toList <+: w.toList ∧ ¬ w.toList <+: "long".toList) := by
    cases k <;> decide
  obtain ⟨htype, hunsigned, hlong⟩ := hcheck w (by simp [hw]) (by simp [hw])
  refine ⟨htype, ?_⟩
  rintro s (rfl | ⟨rfl, hk⟩)
  · exact hunsigned
  · exact hlong hk

section Spellings

variable {k : Spelling} {text gaps name rest : List Char}
  (hgaps : Word isGap gaps) (hname : IsIdentifier name) (hrest : ∀ c ∈ rest.head?, isNamePart c = false)
include hgaps hname hrest

/-- A keyword that is a spelling by itself is no phrase. -/
theorem phraseType_spelling {w : String} (hw : k.words = [w]) (hclash : k.clashes name = false) :
    phraseType (w.toList ++ (gaps ++ (name ++ rest))) = none := by
  obtain ⟨-, hother⟩ := Spelling.single hw
  have hunsigned := token_eq_none _ _ (hother _ (.inl rfl)).1 (hother _ (.inl rfl)).2 (gaps ++ (name ++ rest))
  by_cases hk : k = .long
  · subst hk
    obtain rfl : "long" = w := List.head_eq_of_cons_eq hw
    rw [phraseType_apply, integerRead?_long hgaps (isGap_head?_identifier hname rest)]
    by_cases hprefix : "long".toList <+: name
    · -- the name goes on after the word, which ends the phrase in the middle of it
      obtain ⟨more, rfl⟩ := hprefix
      cases more with
      | nil =>
        rw [List.append_nil] at hclash
        exact absurd hclash (by decide)
      | cons c more =>
        have hc : isNamePart c = true := hname.all c (by simp)
        rw [List.append_assoc, token_append, Option.map_some, Option.bind_some, List.cons_append, stop_of_part hc]
        rfl
    · rw [token_name_eq_none hrest (by decide) hprefix]
      rfl
  · have hapart := hother _ (.inr ⟨rfl, hk⟩)
    have hlong := token_eq_none _ _ hapart.1 hapart.2 (gaps ++ (name ++ rest))
    exact phraseType_eq_none hunsigned hlong

variable (htext : PhraseText k.words text)
include htext

theorem integerRead?_spelling (hw : k.words.length ≠ 1) (hclash : k.clashes name = false) :
    integerRead? (text ++ (gaps ++ (name ++ rest))) = some (k.type, gaps ++ (name ++ rest)) := by
  have hlong (after : List Char) : ∀ c ∈ ("long".toList ++ after).head?, isGap c = false := by
    rintro c ⟨⟩
    decide
  cases k with
  | unsignedShort =>
    obtain ⟨gaps₁, hgaps₁, rfl⟩ := htext.exists_of_two
    simp only [List.append_assoc]
    exact integerRead?_unsignedShort hgaps₁
  | unsignedLong =>
    obtain ⟨gaps₁, hgaps₁, rfl⟩ := htext.exists_of_two
    have hnone : token "long" (name ++ rest) = none := by
      refine token_name_eq_none hrest (by decide) fun hprefix => ?_
      exact Bool.false_ne_true (hclash.symm.trans (List.isPrefixOf_iff_prefix.2 hprefix))
    have hread := integerRead?_unsignedLong hgaps₁ hgaps (isGap_head?_identifier hname rest)
    rw [hnone] at hread
    simp only [List.append_assoc]
    exact hread
  | longLong =>
    obtain ⟨gaps₁, hgaps₁, rfl⟩ := htext.exists_of_two
    have hread := integerRead?_long hgaps₁ (hlong (gaps ++ (name ++ rest)))
    rw [token_append] at hread
    simp only [List.append_assoc]
    exact hread
  | unsignedLongLong =>
    obtain ⟨gaps₁, gaps₂, hgaps₁, hgaps₂, rfl⟩ := htext.exists_of_three
    have hread := integerRead?_unsignedLong hgaps₁ hgaps₂ (hlong (gaps ++ (name ++ rest)))
    rw [token_append] at hread
    simp only [List.append_assoc]
    exact hread
  | _ => exact absurd rfl hw

/-- The type of a member whose name does not clash with its spelling. -/
theorem typeSpec_spelling (limit : Nat) (hclash : k.clashes name = false) :
    typeSpec limit (text ++ (gaps ++ (name ++ rest))) = some ({ type := k.type }, gaps ++ (name ++ rest)) := by
  have hgap := isGap_head?_gaps hgaps (name ++ rest)
  obtain ⟨w, words, hwords, hapart, hidentifier⟩ := k.exists_cons
  cases words with
  | nil =>
    obtain ⟨htype, -⟩ := Spelling.single hwords
    rw [hwords] at htext
    obtain rfl := htext.eq_of_one
    have hphrase := phraseType_spelling hgaps hname hrest hwords hclash
    rw [typeSpec_of_name limit hapart.unbracketed hphrase hidentifier hgap, String.ofList_toList, htype]
  | cons w' words =>
    have hinteger := integerRead?_spelling hgaps hname hrest htext (by simp [hwords]) hclash
    have hstop : stop isNamePart (gaps ++ (name ++ rest)) = some ((), gaps ++ (name ++ rest)) :=
      stop_of_head fun c hc => isNamePart_eq_false_of_isGap (hgap c hc)
    obtain ⟨after, rfl⟩ := (hwords ▸ htext : PhraseText (w :: w' :: words) text).exists_append
    rw [List.append_assoc] at hinteger ⊢
    refine typeSpec_of_phrase limit hapart.unbracketed ?_
    rw [phraseType_apply, hinteger, Option.bind_some, hstop]
    rfl

end Spellings

end RosSchema.Idl

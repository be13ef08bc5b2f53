import RosSchema.Proofs.Idl.Fields
import RosSchema.Proofs.Idl.Flattening
import RosSchema.Proofs.Idl.Numerals
import RosSchema.Proofs.Idl.PrintedWords
import RosSchema.Proofs.Idl.Sections

/-!
# Documents of one constant

The readers of a module with one constant of a number in it: every step takes its text, but for the literal,
and where that is none no other alternative takes the declaration or the module. So the document defines
the constant if its numeral is a value of the declared type, and is refused otherwise.
-/

namespace RosSchema

def Field.ofNumeral (type : String) (name : List Char) (n : Numeral) (v : Value) : Field :=
  .constantOf type (String.ofList name) v (some (String.ofList n.text))

namespace Idl

open Reader
open RosSchema.Line.Ros1 (IsIdentifier identifier_append)
open RosSchema.Line.Ros2 (isNameIn isNameTail)
open RosSchema.Literal (coerceScalar)

/-! ## Names of constants -/

theorem isNamePart_of_isUpper {c : Char} (h : c.isUpper = true) : isNamePart c = true := by
  simp [isNamePart, Char.isAlphanum, Char.isAlpha, h]

theorem all_isNamePart_of_isNameTail {cs : List Char} (h : isNameTail Char.isUpper cs = true) :
    ∀ c ∈ cs, isNamePart c = true := by
  have hletter {c : Char} (hc : (c.isUpper || c.isDigit) = true) : isNamePart c = true := by
    rcases Bool.or_eq_true _ _ ▸ hc with hc | hc
    · exact isNamePart_of_isUpper hc
    · simp [isNamePart, Char.isAlphanum, hc]
  fun_induction isNameTail Char.isUpper cs with
  | case1 => simp
  | case2 c rest ih =>
    rw [Bool.and_eq_true] at h
    exact List.forall_mem_cons.2 ⟨by decide, List.forall_mem_cons.2 ⟨hletter h.1, ih h.2⟩⟩
  | case3 c rest _ ih =>
    rw [Bool.and_eq_true] at h
    exact List.forall_mem_cons.2 ⟨hletter h.1, ih h.2⟩

/-- The names of constants in lines are identifiers, and no keyword starts like one. -/
theorem isIdentifier_of_isNameIn {name : List Char} (h : isNameIn Char.isUpper name = true) :
    IsIdentifier name ∧ ∀ k : Spelling, k.clashes name = false := by
  cases name with
  | nil => cases h
  | cons c name =>
    rw [isNameIn, Bool.and_eq_true] at h
    obtain ⟨hc, htail⟩ := h
    have hstart : isNameStart c = true := by simp [isNameStart, Char.isAlpha, hc]
    have hall := all_isNamePart_of_isNameTail htail
    have hne : 'l' ≠ c := by
      rintro rfl
      exact absurd hc (by decide)
    refine ⟨⟨⟨c, name, rfl, hstart⟩, List.forall_mem_cons.2 ⟨isNamePart_of_isUpper hc, hall⟩⟩, fun k => ?_⟩
    cases k <;> simp [Spelling.clashes, List.isPrefixOf, hne, hne.symm]

/-! ## Types of numbers -/

inductive TypeText (p : Primitive) : List Char → Prop where
  | keywords (k : Spelling) {text : List Char} (htext : PhraseText k.words text) (hk : k.primitive = p) :
      TypeText p text
  | name : TypeText p p.tag.toList

theorem isIdentifier_tag (p : Primitive) : IsIdentifier p.tag.toList := by
  have hcheck : p.tag.toList.head?.any isNameStart = true ∧ p.tag.toList.all isNamePart = true := by
    cases p <;> decide
  exact isIdentifier_of_checks hcheck.1 hcheck.2

theorem word_space : Word isGap [' '] := word_of_all (by decide) (by decide)

/-- No phrase is read off a word that differs early from the first words of all of them. -/
theorem phraseType_append_eq_none {word : List Char}
    (h : ∀ s ∈ ["unsigned", "long"], ¬ s.toList <+: word ∧ ¬ word <+: s.toList) (after : List Char) :
    phraseType (word ++ after) = none := by
  refine phraseType_eq_none ?_ ?_
  · exact token_eq_none _ _ (h _ (by simp)).1 (h _ (by simp)).2 after
  · exact token_eq_none _ _ (h _ (by simp)).1 (h _ (by simp)).2 after

section Types

variable {p : Primitive} {text name rest : List Char}

theorem Spelling.isIdentifier_of_mem_words (k : Spelling) : ∀ w ∈ k.words, IsIdentifier w.toList := by
  have hcheck : ∀ w ∈ k.words, w.toList.head?.any isNameStart = true ∧ w.toList.all isNamePart = true := by
    cases k <;> decide
  exact fun w hw => isIdentifier_of_checks (hcheck w hw).1 (hcheck w hw).2

/-- A type starts with an identifier, and after a gap more of it or the name follows. -/
theorem TypeText.exists_identifier (h : TypeText p text) (hname : IsIdentifier name) (rest : List Char) :
    ∃ word gaps c after, IsIdentifier word ∧ Word isGap gaps ∧ isNameStart c = true ∧
      text ++ ([' '] ++ (name ++ rest)) = word ++ (gaps ++ c :: after) := by
  have hlast {word : List Char} (hword : IsIdentifier word) : ∃ word' gaps c after, IsIdentifier word' ∧
      Word isGap gaps ∧ isNameStart c = true ∧ word ++ ([' '] ++ (name ++ rest)) = word' ++ (gaps ++ c :: after) := by
    obtain ⟨c, tail, rfl, hc⟩ := hname.first
    exact ⟨word, [' '], c, tail ++ rest, hword, word_space, hc, rfl⟩
  cases h with
  | name => exact hlast (isIdentifier_tag p)
  | keywords k htext _ =>
    have hwords := k.isIdentifier_of_mem_words
    generalize k.words = words at htext hwords
    cases htext with
    | last w => exact hlast (hwords w (by simp))
    | @cons w gaps words cs hgaps hmore =>
      have hmore' : ∃ w' words', words = w' :: words' := by
        cases hmore <;> exact ⟨_, _, rfl⟩
      obtain ⟨w', words', rfl⟩ := hmore'
      obtain ⟨tail, rfl⟩ := hmore.exists_append
      obtain ⟨c, front, hfront, hc⟩ := (hwords w' (by simp)).first
      refine ⟨w.toList, gaps, c, front ++ (tail ++ ([' '] ++ (name ++ rest))), hwords w (by simp), hgaps, hc, ?_⟩
      simp [hfront]

/-- The type of a number is read up to the gap before the name. -/
theorem TypeText.exists_typeSpec (h : TypeText p text) (numeric : p.isNumeric = true) (hname : IsIdentifier name)
    (hclash : ∀ k : Spelling, k.clashes name = false) (hrest : ∀ c ∈ rest.head?, isNamePart c = false) :
    ∃ type, foldInterface (String.ofList (slashes type.toList)) = p.tag ∧ ∀ limit,
      typeSpec limit (text ++ ([' '] ++ (name ++ rest))) = some ({ type }, [' '] ++ (name ++ rest)) := by
  cases h with
  | keywords k htext hk =>
    refine ⟨k.type, ?_, fun limit => typeSpec_spelling word_space hname hrest htext limit (hclash k)⟩
    subst hk
    cases k <;> decide
  | name =>
    have hcheck : ∀ p : Primitive, p.isNumeric = true → IsUnbracketed p.tag.toList ∧
        (∀ s ∈ ["unsigned", "long"], ¬ s.toList <+: p.tag.toList ∧ ¬ p.tag.toList <+: s.toList) ∧
        keywordType p.tag = p.tag ∧ foldInterface (String.ofList (slashes p.tag.toList)) = p.tag := by
      intro p
      cases p <;> decide
    obtain ⟨hunbracketed, hphrase, hkeyword, hfold⟩ := hcheck p numeric
    refine ⟨p.tag, hfold, fun limit => ?_⟩
    have hnone := phraseType_append_eq_none hphrase ([' '] ++ (name ++ rest))
    have hread := typeSpec_of_name limit hunbracketed hnone (isIdentifier_tag p)
      (isGap_head?_gaps word_space (name ++ rest))
    rwa [String.ofList_toList, hkeyword] at hread

end Types

/-! ## Literals -/

/-- A word is not read off a text that starts with another character. -/
theorem token_eq_none_of_head {s : String} {cs : List Char} {c : Char} (hs : s.toList.head? = some c)
    (h : c ∉ cs.head?) : token s cs = none := by
  cases hread : token s cs with
  | none => rfl
  | some r =>
    rw [token_eq_some.1 hread, List.head?_append, hs] at h
    exact absurd rfl h

section Literals

variable {c : Char} {tail : List Char}

theorem stringLiteral_eq_none (h : c ≠ '"') (limit : Nat) : stringLiteral limit (c :: tail) = none := by
  refine bind_of_eq_none ?_
  unfold stringPiece
  split
  · next heq => exact absurd (List.cons.inj heq).1 h
  · rfl

theorem boolLiteral_eq_none (h : isNameStart c = false) : boolLiteral (c :: tail) = none := by
  have hchoice {s : String} (hs : s.toList.head?.any isNameStart = true) (b : Bool) :
      (token s >>= fun _ => pure (Literal.value (.bool b), some s.toList) : Reader _) (c :: tail) = none := by
    obtain ⟨d, hd, hd'⟩ := (Option.any_eq_true _ _).1 hs
    refine bind_of_eq_none (token_eq_none_of_head hd ?_)
    rintro ⟨⟩
    simp [h] at hd'
  rw [boolLiteral, seqLeft_apply, orElse_apply, orElse_apply, orElse_apply]
  dsimp only
  rw [@hchoice "TRUE" (by decide), @hchoice "FALSE" (by decide), @hchoice "true" (by decide),
    @hchoice "false" (by decide)]
  rfl

theorem hexLiteral_eq_none (h : ∀ d ∈ tail.head?, d ≠ 'x' ∧ d ≠ 'X') : hexLiteral (c :: tail) = none := by
  refine Option.eq_none_iff_forall_ne_some.2 fun r hr => ?_
  obtain ⟨_, mid, hmark, hr⟩ := bind_eq_some.1 hr
  obtain ⟨x, after, hone, -⟩ := bind_eq_some.1 hr
  obtain ⟨rfl, hx⟩ := one_eq_some.1 hone
  obtain ⟨-, rfl⟩ := List.cons.inj (mark_eq_some.1 hmark)
  simp [h x rfl] at hx

theorem constantName_eq_none (h : isNameStart c = false) (limit : Nat) : constantName limit (c :: tail) = none := by
  have hidentifier : identifier (c :: tail) = none := bind_of_eq_none (by rw [one, h]; rfl)
  exact bind_of_eq_none (bind_of_eq_none hidentifier)

/-- A numeral is a literal if it has a value, and it is no literal of another kind. -/
theorem literal_text_append {n : Numeral} (hn : n.WellFormed) (limit : Nat) (after : List Char) :
    literal limit (n.text ++ ';' :: after) =
      (numeralValue? n).map fun v => ((.value v, some n.text), ';' :: after) := by
  have hread : Numeral.read? (n.text ++ ';' :: after) = some (n, ';' :: after) :=
    Numeral.read?_text_append hn (by rintro c ⟨⟩; decide)
  have hnumeral : numeralLiteral (n.text ++ ';' :: after) =
      (numeralValue? n).map fun v => ((.value v, some n.text), ';' :: after) := by
    rw [numeralLiteral, bind_of_eq_some hread]
    cases numeralValue? n <;> rfl
  have hsemicolon : ∀ c ∈ (';' :: after).head?, c ≠ 'x' ∧ c ≠ 'X' := by
    rintro c ⟨⟩
    decide
  obtain ⟨c, tail, hcs, hc, htail⟩ := Numeral.exists_text_append_eq_cons hn hsemicolon
  have hstart : isNameStart c = false ∧ c ≠ '"' := by
    rcases hc with rfl | rfl | hc
    · decide
    · decide
    · refine ⟨?_, by rintro rfl; exact absurd hc (by decide)⟩
      by_contra hstart
      simp [isDigit_eq_false_of_isNameStart (by simpa using hstart)] at hc
  rw [literal, orElse_apply, orElse_apply, orElse_apply, orElse_apply, hnumeral, hcs,
    stringLiteral_eq_none hstart.2, boolLiteral_eq_none hstart.1, hexLiteral_eq_none htail,
    constantName_eq_none hstart.1, Option.none_or, Option.none_or, Option.none_or, Option.or_none]

end Literals

/-! ## The declaration -/

def assignmentText (type name text : List Char) : List Char :=
  type ++ ([' '] ++ (name ++ (" = ".toList ++ text)))

def declarationText (type name text : List Char) : List Char :=
  "const".toList ++ ([' '] ++ assignmentText type name text)

theorem declarationText_append (type name text rest : List Char) : declarationText type name text ++ rest =
    "const".toList ++ ([' '] ++ (type ++ ([' '] ++ (name ++ (" = ".toList ++ (text ++ rest)))))) := by
  rw [declarationText, assignmentText, List.append_assoc, List.append_assoc, List.append_assoc, List.append_assoc,
    List.append_assoc, List.append_assoc]

def constantMember (type : String) (name : List Char) (n : Numeral) (v : Value) : Member :=
  { type
    name := String.ofList name
    value := some (.value v)
    valueText := some (String.ofList n.text) }

theorem spaced_append {c : Char} {rest : List Char} (hc : isGap c = false)
    (hrest : ∀ d ∈ rest.head?, isGap d = false) : spaced c (' ' :: c :: ' ' :: rest) = some ((), rest) := by
  have hmark : (gap *> mark c) (' ' :: c :: ' ' :: rest) = some ((), ' ' :: rest) :=
    (gap_mark_append word_space.all hc c).trans (if_pos rfl)
  rw [spaced, seqRight_eq_bind, bind_of_eq_some hmark]
  exact gap_append word_space.all hrest

section Keywords

variable {limit : Nat} {cs : List Char}

theorem braced_eq_none {α : Type} {keyword : String} (h : token keyword cs = none) (inner : Reader α) :
    braced keyword inner limit cs = none := bind_of_eq_none h

theorem struct_eq_none (h : token "struct" cs = none) : struct limit cs = none :=
  bind_of_eq_none (braced_eq_none h _)

theorem typedef_eq_none (h : token "typedef" cs = none) : typedef limit cs = none := bind_of_eq_none h

theorem constant_eq_none (h : token "const" cs = none) : constant limit cs = none := bind_of_eq_none h

end Keywords

/-- A declaration that starts with no note is the first of the alternatives that takes it. -/
theorem declaration_apply {cs : List Char} (h : ∀ c ∈ cs.head?, c ≠ '@') (limit : Nat)
    (inner : Reader (Option Node)) :
    declaration limit inner cs =
      ((braced "module" inner limit cs).map fun r => (.module r.1.1 (r.1.2.filterMap id), r.2)).or
        ((struct limit cs).or ((typedef limit cs).or ((constant limit cs).or (field limit cs)))) := by
  rw [declaration, annotated_apply h, orElse_apply, orElse_apply, orElse_apply, orElse_apply]
  congr 1
  change (Option.bind (braced "module" inner limit cs) fun r =>
    some (Node.module r.1.1 (r.1.2.filterMap id), r.2)) = _
  cases braced "module" inner limit cs <;> rfl

/-- A text that starts with no include is a declaration with its semicolon. -/
theorem item_apply {cs : List Char} (h : ∀ c ∈ cs.head?, c ≠ '#') (limit depth : Nat) :
    item limit (depth + 1) cs =
      (declaration limit (item limit depth) cs).bind fun r => (semicolon r.2).map fun s => (some r.1, s.2) := by
  have hinclude : (includeFile *> pure none : Reader (Option Node)) cs = none := by
    rw [seqRight_eq_bind]
    refine bind_of_eq_none (bind_of_eq_none (token_eq_none_of_head (rfl : _ = some '#') ?_))
    exact fun hmem => h _ hmem rfl
  rw [item, orElse_apply, hinclude, Option.none_or, map_apply, seqLeft_apply]
  cases declaration limit (item limit depth) cs with
  | none => rfl
  | some r =>
    rw [Option.bind_some, Option.bind_some]
    cases semicolon r.2 <;> rfl

/-- A keyword in front of a name, if it is no keyword of a field, is read as a type where nothing else can
be. Then a semicolon would have to follow the name. -/
theorem field_keyword_bind {keyword name space after : List Char} {c : Char} {limit : Nat}
    (hkeyword : IsUnbracketed keyword) (hidentifier : IsIdentifier keyword)
    (hphrase : ∀ s ∈ ["unsigned", "long"], ¬ s.toList <+: keyword ∧ ¬ keyword <+: s.toList)
    (hname : IsIdentifier name) (hspace : Word isGap space) (hc : isGap c = false) (hbracket : c ≠ '[')
    (hsemicolon : c ≠ ';') :
    ((field limit (keyword ++ ([' '] ++ (name ++ (space ++ c :: after))))).bind fun r =>
      (semicolon r.2).map fun s => (some r.1, s.2)) = none := by
  have hstops : ∀ d ∈ (space ++ c :: after).head?, isNamePart d = false := fun d hd =>
    isNamePart_eq_false_of_isGap (isGap_head?_gaps hspace _ d hd)
  have hnone := phraseType_append_eq_none hphrase ([' '] ++ (name ++ (space ++ c :: after)))
  have htype := typeSpec_of_name limit hkeyword hnone hidentifier (isGap_head?_gaps word_space _)
  rw [field_append hspace.all hc word_space hname hbracket hstops htype, Option.bind_some, semicolon,
    gap_mark_append hspace.all hc, if_neg hsemicolon]
  rfl

theorem isGap_head?_numeral {n : Numeral} (hn : n.WellFormed) (after : List Char) :
    ∀ c ∈ (n.text ++ ';' :: after).head?, isGap c = false := by
  have hsemicolon : ∀ c ∈ (';' :: after).head?, c ≠ 'x' ∧ c ≠ 'X' := by
    rintro c ⟨⟩
    decide
  obtain ⟨c, tail, hcs, hc, -⟩ := Numeral.exists_text_append_eq_cons hn hsemicolon
  rw [hcs]
  rintro d ⟨⟩
  rcases hc with rfl | rfl | hc
  · decide
  · decide
  · exact isGap_eq_false_of_isNamePart (by simp [isNamePart, Char.isAlphanum, hc])

section Constants

variable {limit : Nat} {p : Primitive} {spelled : String} {type name after : List Char} {n : Numeral}
  (htype : TypeText p type) (hname : isNameIn Char.isUpper name = true) (hn : n.WellFormed)
  (hspec : typeSpec limit (type ++ ([' '] ++ (name ++ (" = ".toList ++ (n.text ++ ';' :: after))))) =
    some ({ type := spelled }, [' '] ++ (name ++ (" = ".toList ++ (n.text ++ ';' :: after)))))
include htype hname hn hspec

theorem constant_append : constant limit (declarationText type name n.text ++ ';' :: after) =
    (numeralValue? n).map fun v => (.constant (constantMember spelled name n v), ';' :: after) := by
  obtain ⟨hidentifier, -⟩ := isIdentifier_of_isNameIn hname
  obtain ⟨word, gaps, c, tail, hword, -, -, heq⟩ :=
    htype.exists_identifier hidentifier (" = ".toList ++ (n.text ++ ';' :: after))
  have hfirst := heq ▸ isGap_head?_identifier hword (gaps ++ c :: tail)
  have hread : Idl.name (name ++ (" = ".toList ++ (n.text ++ ';' :: after))) =
      some (String.ofList name, " = ".toList ++ (n.text ++ ';' :: after)) :=
    map_eq_some.2 ⟨name, identifier_append hidentifier (by rintro c ⟨⟩; decide), rfl⟩
  have hequals : spaced '=' (" = ".toList ++ (n.text ++ ';' :: after)) = some ((), n.text ++ ';' :: after) :=
    spaced_append (by decide) (isGap_head?_numeral hn after)
  have hscalar (cs : List Char) :
      (guard (({ type := spelled } : TypeSpec).sequence.isNone = true) : Reader Unit) cs = some ((), cs) :=
    guard_eq_some.2 ⟨rfl, rfl⟩
  rw [declarationText_append, constant, bind_of_eq_some (token_append _ _),
    bind_of_eq_some (gap1_append word_space hfirst), bind_of_eq_some hspec, bind_of_eq_some (hscalar _),
    bind_of_eq_some (gap1_append word_space (isGap_head?_identifier hidentifier _)), bind_of_eq_some hread,
    bind_of_eq_some hequals]
  have hliteral := literal_text_append hn limit after
  cases hv : numeralValue? n with
  | none =>
    rw [hv] at hliteral
    exact bind_of_eq_none hliteral
  | some v =>
    rw [hv] at hliteral
    exact bind_of_eq_some hliteral

/-- A constant is read with its semicolon, or no declaration is. -/
theorem item_declarationText (depth : Nat) :
    item limit (depth + 1) (declarationText type name n.text ++ ';' :: after) =
      (numeralValue? n).map fun v => (some (.constant (constantMember spelled name n v)), after) := by
  have hconstant := constant_append htype hname hn hspec
  have htokens {s : String} (hs : ¬ s.toList <+: "const".toList) (hs' : ¬ "const".toList <+: s.toList) :
      token s (declarationText type name n.text ++ ';' :: after) = none := by
    rw [declarationText_append]
    exact token_eq_none s _ hs hs' _
  have hmodule := htokens (s := "module") (by decide) (by decide)
  have hstruct := htokens (s := "struct") (by decide) (by decide)
  have htypedef := htokens (s := "typedef") (by decide) (by decide)
  rw [item_apply (by rintro c ⟨⟩; decide), declaration_apply (by rintro c ⟨⟩; decide), braced_eq_none hmodule,
    struct_eq_none hstruct, typedef_eq_none htypedef, Option.map_none, Option.none_or, Option.none_or,
    Option.none_or, hconstant]
  cases numeralValue? n with
  | some v => rfl
  | none =>
    rw [Option.map_none, Option.none_or]
    obtain ⟨hidentifier, -⟩ := isIdentifier_of_isNameIn hname
    obtain ⟨word, gaps, c, tail, hword, hgaps, hc, heq⟩ :=
      htype.exists_identifier hidentifier (" = ".toList ++ (n.text ++ ';' :: after))
    have htext : declarationText type name n.text ++ ';' :: after =
        "const".toList ++ ([' '] ++ (word ++ (gaps ++ c :: tail))) := by
      rw [declarationText_append, heq]
    have hmark {d : Char} (hd : isNameStart d = false) : c ≠ d := by
      rintro rfl
      simp [hc] at hd
    rw [htext]
    exact field_keyword_bind (by decide) (isIdentifier_of_checks (by decide) (by decide)) (by decide) hword hgaps
      (isGap_eq_false_of_isNamePart (isNamePart_of_isNameStart hc)) (hmark (by decide)) (hmark (by decide))

end Constants

/-! ## The module -/

def moduleText (name declaration : List Char) : List Char :=
  "module".toList ++ ([' '] ++ (name ++ ([' '] ++ '\x7b' :: ([' '] ++ (declaration ++ ';' :: " \x7d;".toList)))))

/-- No declaration starts with the brace that ends a module. -/
theorem item_close (limit depth : Nat) (after : List Char) : item limit depth ('\x7d' :: after) = none := by
  cases depth with
  | zero => rfl
  | succ depth =>
    have htoken {s : String} (hs : ¬ s.toList <+: ['\x7d']) (hs' : ¬ ['\x7d'] <+: s.toList) :
        token s ('\x7d' :: after) = none := token_eq_none s ['\x7d'] hs hs' after
    have hmodule := htoken (s := "module") (by decide) (by decide)
    have hstruct := htoken (s := "struct") (by decide) (by decide)
    have htypedef := htoken (s := "typedef") (by decide) (by decide)
    have hconst := htoken (s := "const") (by decide) (by decide)
    rw [item_apply (by rintro c ⟨⟩; decide), declaration_apply (by rintro c ⟨⟩; decide), braced_eq_none hmodule,
      struct_eq_none hstruct, typedef_eq_none htypedef, constant_eq_none hconst, field_close]
    rfl

section Modules

variable {name declaration : List Char} {node? : Option Node} (hname : IsIdentifier name)
  (hstart : ∀ c ∈ declaration.head?, isGap c = false ∧ c ≠ '\x7d') (hne : declaration ≠ [])
include hname hstart hne

/-- A module of one declaration is read with it, or not at all: it is no field then either. -/
theorem item_moduleText {limit depth : Nat} (hlimit : 0 < limit)
    (hinner : item limit depth (declaration ++ ';' :: " \x7d;".toList) =
      node?.map fun node => (some node, " \x7d;".toList)) :
    item limit (depth + 1) (moduleText name declaration) =
      node?.map fun node => (some (.module (String.ofList name) [node]), []) := by
  obtain ⟨limit, rfl⟩ := Nat.exists_eq_add_one.2 hlimit
  obtain ⟨c, tail, rfl⟩ := List.exists_cons_of_ne_nil hne
  obtain ⟨hc, hbrace⟩ := hstart c rfl
  have hmodule : braced "module" (item (limit + 1) depth) (limit + 1) (moduleText name (c :: tail)) =
      ((many (item (limit + 1) depth <* gap) (limit + 1) (c :: tail ++ ';' :: " \x7d;".toList)).bind fun r =>
        (mark '\x7d' r.2).map fun s => (r.1, s.2)).map fun r => ((String.ofList name, r.1), r.2) :=
    braced_append "module" _ word_space hname word_space.all word_space.all (by rintro d ⟨⟩; exact hc)
  have htoken {s : String} (hs : ¬ s.toList <+: "module".toList) (hs' : ¬ "module".toList <+: s.toList) :
      token s (moduleText name (c :: tail)) = none := token_eq_none s _ hs hs' _
  have hstruct := htoken (s := "struct") (by decide) (by decide)
  have htypedef := htoken (s := "typedef") (by decide) (by decide)
  have hconst := htoken (s := "const") (by decide) (by decide)
  rw [item_apply (by rintro c ⟨⟩; decide), declaration_apply (by rintro c ⟨⟩; decide), struct_eq_none hstruct,
    typedef_eq_none htypedef, constant_eq_none hconst, Option.none_or, Option.none_or, Option.none_or, hmodule]
  cases node? with
  | none =>
    have hstop : (item (limit + 1) depth <* gap) (c :: tail ++ ';' :: " \x7d;".toList) = none := by
      rw [seqLeft_apply, hinner]
      rfl
    rw [many_eq_nil hstop, Option.bind_some, mark_eq_none (by rintro d ⟨⟩; exact hbrace)]
    exact field_keyword_bind (by decide) (isIdentifier_of_checks (by decide) (by decide)) (by decide) hname
      word_space (by decide) (by decide) (by decide)
  | some node =>
    have hread : (item (limit + 1) depth <* gap) (c :: tail ++ ';' :: " \x7d;".toList) =
        some (some node, "\x7d;".toList) := by
      rw [seqLeft_apply, hinner, Option.map_some, Option.bind_some,
        show gap " \x7d;".toList = some ((), "\x7d;".toList) from by decide]
      rfl
    have hend : (item (limit + 1) depth <* gap) "\x7d;".toList = none := by
      rw [seqLeft_apply, show "\x7d;".toList = '\x7d' :: [';'] from rfl, item_close]
      rfl
    rw [many_succ_apply, hread, Option.bind_some, many_eq_nil hend]
    rfl

/-- A document of one module is read with the declaration in it, or not at all. -/
theorem nodes_moduleText (hplain : ∀ c ∈ moduleText name declaration, c ≠ '/' ∧ c ≠ '"')
    (hinner : ∀ limit depth, item limit (depth + 1) (declaration ++ ';' :: " \x7d;".toList) =
      node?.map fun node => (some node, " \x7d;".toList)) :
    (nodes (moduleText name declaration)).toOption =
      node?.map fun node => [.module (String.ofList name) [node]] := by
  have hstrip : stripComments (moduleText name declaration) = moduleText name declaration := by
    have happend := (strip_plain_append hplain []).1
    rw [List.append_nil] at happend
    exact happend.trans (List.append_nil _)
  obtain ⟨limit, hlimit⟩ : ∃ limit, (moduleText name declaration).length = limit + 2 :=
    ⟨_, rfl⟩
  have hitem := item_moduleText hname hstart hne (Nat.succ_pos (limit + 1)) (hinner (limit + 2) limit)
  have hgap : gap (moduleText name declaration) = some ((), moduleText name declaration) :=
    gap_append (List.forall_mem_nil _) (by rintro c ⟨⟩; decide)
  have hitems : items (limit + 2) (moduleText name declaration) =
      (many (item (limit + 2) (limit + 2) <* gap) (limit + 2) (moduleText name declaration)).map
        fun r => (r.1.filterMap id, r.2) := by
    rw [items, bind_of_eq_some hgap]
    exact map_apply _ _ _
  rw [nodes, hlimit, hstrip, whole?, hitems, many_succ_apply, seqLeft_apply, hitem]
  cases node? with
  | none => rfl
  | some node =>
    have halike : Alike 1 0 0 (item (limit + 2) (limit + 2)) (item (limit + 2) (limit + 2)) :=
      alike_item_self (Nat.zero_le _) (Nat.zero_le _) (limit + 2)
    have hend : (item (limit + 2) (limit + 2) <* gap) [] = none := by
      rw [seqLeft_apply, halike.eq_none_of_nil]
      rfl
    rw [Option.map_some, Option.bind_some, show gap [] = some ((), []) from rfl, Option.map_some,
      Option.bind_some, many_eq_nil hend]
    rfl

end Modules

/-! ## The definition -/

section Resolving

variable {spelled type : String} {name : List Char} {n : Numeral}
  (hfold : foldInterface (String.ofList (slashes spelled.toList)) = type) (v : Value)
include hfold

theorem constantField_numeral (constants : List (String × ConstantValue)) (parent : String) :
    Scope.constantField ⟨[], constants⟩ parent (constantMember spelled name n v) =
      (coerceScalar type v).map (Field.ofNumeral type name n) := by
  have htype : Scope.fieldType (constantMember spelled name n v) = type := hfold
  have hinline : Typedefs.inline [] (constantMember spelled name n v) = .ok (constantMember spelled name n v) := rfl
  have hcoerce : Literal.coerce type false v = coerceScalar type v := rfl
  rw [Scope.constantField_eq, hinline]
  dsimp only [bind, Except.bind, Scope.count, Scope.substitute, constantMember] at htype ⊢
  simp only [htype, Bool.false_eq_true, ↓reduceIte, hcoerce]
  rfl

theorem settle_numeral (parent : String) :
    Constants.settle ⟨[], [⟨constantMember spelled name n v, parent⟩]⟩ 1 [] 0 {} =
      (coerceScalar type v).map fun w => ⟨[0], [(String.ofList name, ⟨w, some (String.ofList n.text)⟩)]⟩ := by
  have hinline : Typedefs.inline [] (constantMember spelled name n v) = .ok (constantMember spelled name n v) := rfl
  have hreferences : (constantMember spelled name n v).references = [] := rfl
  rw [Constants.settle]
  simp only [List.not_mem_nil, ↓reduceIte, List.getElem?_cons_zero, hinline]
  dsimp only [bind, Except.bind]
  rw [hreferences, List.foldlM_nil]
  dsimp only [pure, Except.pure]
  rw [constantField_numeral hfold]
  cases coerceScalar type v <;> rfl

theorem ofNode_numeral (m : String) :
    Scope.ofNode (.module m [.constant (constantMember spelled name n v)]) =
      (coerceScalar type v).map fun w => ⟨[], [(String.ofList name, ⟨w, some (String.ofList n.text)⟩)]⟩ := by
  have hvalues (parent : String) : Constants.values ⟨[], [⟨constantMember spelled name n v, parent⟩]⟩ =
      (coerceScalar type v).map fun w => [(String.ofList name, ⟨w, some (String.ofList n.text)⟩)] := by
    have hrange : List.range [(⟨constantMember spelled name n v, parent⟩ : Declared)].length = [0] := rfl
    rw [Constants.values, hrange]
    dsimp only
    rw [List.foldlM_cons, List.length_singleton, settle_numeral hfold]
    cases coerceScalar type v <;> rfl
  have htypedefs : Typedefs.ofMembers (Node.module m [.constant (constantMember spelled name n v)]).typedefs =
      .ok [] := rfl
  have hconstants : (Node.module m [.constant (constantMember spelled name n v)]).constants [] =
      [⟨constantMember spelled name n v, joinPath [m]⟩] := rfl
  rw [Scope.ofNode, htypedefs]
  dsimp only [bind, Except.bind]
  rw [hconstants, hvalues]
  cases coerceScalar type v <;> rfl

theorem flatten_numeral (constants : List (String × ConstantValue)) (m : String) :
    Scope.flatten ⟨[], constants⟩ [] (.module m [.constant (constantMember spelled name n v)]) =
      (coerceScalar type v).map fun w => [⟨some m, [.ofNumeral type name n w]⟩] := by
  have hpath : joinPath [m] = m := by simp [joinPath]
  have hgroups : (Node.module m [.constant (constantMember spelled name n v)]).groups [] =
      [([m], [.constant (constantMember spelled name n v)])] := rfl
  have hfield : [Node.constant (constantMember spelled name n v)].filterMap (Scope.field? ⟨[], constants⟩ m) =
     [(coerceScalar type v).map (Field.ofNumeral type name n)] := by
    rw [List.filterMap_cons, Scope.field?, constantField_numeral hfold]
    rfl
  rw [Scope.flatten_eq, hgroups, List.mapM_cons, Scope.groupDefinition, Scope.definition, hpath, hfield]
  cases coerceScalar type v <;> rfl

theorem resolve_numeral (m : String) :
    resolve [.module m [.constant (constantMember spelled name n v)]] =
      (coerceScalar type v).map fun w => [⟨some m, [.ofNumeral type name n w]⟩] := by
  have hdefinitions : Node.definitions (.module m [.constant (constantMember spelled name n v)]) =
      (coerceScalar type v).map fun w => [⟨some m, [.ofNumeral type name n w]⟩] := by
    rw [Node.definitions, ofNode_numeral hfold]
    cases hw : coerceScalar type v with
    | error e => rfl
    | ok w =>
      dsimp only [Except.map, bind, Except.bind]
      rw [flatten_numeral hfold, hw]
      rfl
  rw [resolve, List.mapM_cons, hdefinitions]
  cases coerceScalar type v <;> rfl

end Resolving

end Idl

end RosSchema

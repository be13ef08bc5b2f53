import RosSchema.Proofs.Bundle.Contents
import RosSchema.Proofs.Idl.SingleConstant
import RosSchema.Proofs.Line.CanonicalLine
import RosSchema.Proofs.Line.Separation
import RosSchema.Proofs.Validity.Field

/-!
# Numeric constants in two dialects

A constant of a number is declared in a document, in a module of its own, and assigned in a line. The two are
the same constant, or neither of them is one, unless a whole numeral of more than 64 bits is given for
a floating point type: the document is refused then, and the line is read.
-/

namespace RosSchema

open Idl (PhraseText TypeText assignmentText coerced? declarationText isGap moduleText)
open Line.Ros1 (IsIdentifier)
open Line.Ros2 (isNameIn isTypePart)
open Literal (decodeScalar)
open Reader (Word isNamePart)
open Text (Trimmed isBlank trim)

/-! ## Constants of two texts -/

/-- Two texts that define one constant each, the same one but for the way its number is held. -/
inductive SameConstant : List Definition → List Definition → Prop where
  | mk (parent parent' : Option String) (type name : String) (text : Option String) {v w : Value}
      (number : v.SameNumber w) :
      SameConstant [⟨parent, [.constantOf type name v text]⟩] [⟨parent', [.constantOf type name w text]⟩]

theorem SameConstant.value {parent parent' : Option String} {f g : Field}
    (h : SameConstant [⟨parent, [f]⟩] [⟨parent', [g]⟩]) : Option.Rel Value.SameNumber f.value g.value := by
  cases h with
  | mk _ _ _ _ _ number => exact .some number

theorem rel_sameConstant_iff {parent parent' : Option String} {type : String} {name : List Char} {n : Numeral}
    {x y : Option Value} :
    Option.Rel SameConstant (x.map fun v => [⟨parent, [.ofNumeral type name n v]⟩])
        (y.map fun w => [⟨parent', [.ofNumeral type name n w]⟩]) ↔ Option.Rel Value.SameNumber x y := by
  have hsome (v w : Value) :
      SameConstant [⟨parent, [.ofNumeral type name n v]⟩] [⟨parent', [.ofNumeral type name n w]⟩] ↔
        v.SameNumber w :=
    ⟨fun h => Option.rel_some_some.1 h.value, .mk parent parent' type _ _⟩
  cases x <;> cases y <;> simp [hsome]

/-! ## The text of a document -/

section Texts

variable {p : Primitive} {name type constant : List Char} {n : Numeral}

theorem chars_phraseText {words : List String} {text : List Char} (h : PhraseText words text)
    (hwords : ∀ w ∈ words, IsIdentifier w.toList) : ∀ c ∈ text, isNamePart c = true ∨ isGap c = true := by
  induction h with
  | last s => exact fun c hc => .inl ((hwords s (by simp)).all c hc)
  | cons s hgaps _ ih =>
    rw [List.forall_mem_append, List.forall_mem_append]
    exact ⟨fun c hc => .inl ((hwords s (by simp)).all c hc), fun c hc => .inr (hgaps.all c hc),
      ih fun w hw => hwords w (List.mem_cons_of_mem _ hw)⟩

theorem chars_typeText (h : TypeText p type) : ∀ c ∈ type, isNamePart c = true ∨ isGap c = true := by
  cases h with
  | keywords k htext _ => exact chars_phraseText htext k.isIdentifier_of_mem_words
  | name => exact fun c hc => .inl ((Idl.isIdentifier_tag p).all c hc)

/-- What holds of the parts of a document, of all words and of the marks between them holds of all of it. -/
theorem forall_mem_moduleText {P : Char → Prop} (hname : ∀ c ∈ name, P c) (htype : ∀ c ∈ type, P c)
    (hconstant : ∀ c ∈ constant, P c) (htext : ∀ c ∈ n.text, P c) (hwords : ∀ c, isNamePart c = true → P c)
    (hmarks : ∀ c ∈ [' ', '=', ';', '\x7b', '\x7d'], P c) :
    ∀ c ∈ moduleText name (declarationText type constant n.text), P c := by
  have hpart {part : List Char}
      (h : part.all (fun c => isNamePart c || [' ', '=', ';', '\x7b', '\x7d'].contains c) = true) :
      ∀ c ∈ part, P c := by
    intro c hc
    have hclass := List.all_eq_true.1 h c hc
    rw [Bool.or_eq_true, List.contains_iff_mem] at hclass
    exact hclass.elim (hwords c) (hmarks c)
  have hparts : moduleText name (declarationText type constant n.text) = "module ".toList ++ (name ++
      (" \x7b const ".toList ++ (type ++ (" ".toList ++ (constant ++ (" = ".toList ++
        (n.text ++ "; \x7d;".toList))))))) := by
    rw [moduleText, Idl.declarationText_append]
    rfl
  rw [hparts]
  simp only [List.forall_mem_append]
  exact ⟨hpart (by decide), hname, hpart (by decide), htype, hpart (by decide), hconstant, hpart (by decide), htext,
    hpart (by decide)⟩

end Texts

/-! ## The text of a line -/

section Lines

variable {p : Primitive} {written : String} {constant : List Char} {n : Numeral}

theorem word_type (tag : Primitive.ofTag? written = some p) : Word isTypePart written.toList := by
  have hfold := Primitive.foldAlias_eq_tag tag
  unfold foldAlias at hfold
  split at hfold
  · exact Reader.word_of_all (by decide) (by decide)
  · exact Reader.word_of_all (by decide) (by decide)
  · subst hfold
    exact (Line.Ros1.IsWord.plain _ (Idl.isIdentifier_tag p)).word

theorem trimmed_assignmentText (hn : n.WellFormed) (tag : Primitive.ofTag? written = some p) :
    Trimmed (assignmentText written.toList constant n.text) := by
  have hword := Literal.word_text hn
  obtain ⟨c, tail, htype, hc⟩ := (word_type tag).exists_cons
  refine ⟨?_, ?_⟩
  · rw [assignmentText, htype]
    rintro d ⟨⟩
    exact Line.Ros2.isBlank_eq_false_of_isTypePart hc
  · have happend : assignmentText written.toList constant n.text =
        (written.toList ++ ([' '] ++ (constant ++ " = ".toList))) ++ n.text := by
      simp [assignmentText]
    rw [happend, List.getLast?_append_of_ne_nil _ hword.ne_nil]
    exact (Literal.trimmed_of_word hword).last

end Lines

/-! ## The two readings -/

section Readings

variable {p : Primitive} {name type constant : List Char} {n : Numeral}
  (numeric : p.isNumeric = true) (hconstant : isNameIn Char.isUpper constant = true) (hn : n.WellFormed)
include numeric hconstant hn

/-- A document of one constant defines it if its numeral has a value and that fits the type. -/
theorem parse_moduleText (hname : IsIdentifier name) (htype : TypeText p type) (hline : '\n' ∉ type) :
    (parse (String.ofList (moduleText name (declarationText type constant n.text))) (.ofDialect .idl)).toOption =
      (coerced? p.tag n).map fun v => [⟨some (String.ofList name), [.ofNumeral p.tag constant n v]⟩] := by
  obtain ⟨hidentifier, hclash⟩ := Idl.isIdentifier_of_isNameIn hconstant
  have hstops : ∀ c ∈ (" = ".toList ++ (n.text ++ ';' :: " \x7d;".toList)).head?, isNamePart c = false := by
    rintro c ⟨⟩
    decide
  obtain ⟨spelled, hfold, hspec⟩ := htype.exists_typeSpec numeric hidentifier hclash hstops
  have hpart {c : Char} (hc : isNamePart c = true) : c ≠ '/' ∧ c ≠ '"' ∧ c ≠ '\n' := by
    refine ⟨?_, ?_, ?_⟩ <;> rintro rfl <;> exact absurd hc (by decide)
  have hliteral {c : Char} (hc : Literal.isLiteralPart c = true) : c ≠ '/' ∧ c ≠ '"' ∧ c ≠ '\n' := by
    refine ⟨?_, ?_, ?_⟩ <;> rintro rfl <;> exact absurd hc (by decide)
  have hchars : ∀ c ∈ moduleText name (declarationText type constant n.text), c ≠ '/' ∧ c ≠ '"' ∧ c ≠ '\n' := by
    refine forall_mem_moduleText (fun c hc => hpart (hname.all c hc)) (fun c hc => ?_)
      (fun c hc => hpart (hidentifier.all c hc)) (fun c hc => hliteral ((Literal.word_text hn).all c hc))
      (fun c hc => hpart hc) (by simp)
    rcases chars_typeText htype c hc with hc' | hc'
    · exact hpart hc'
    · refine ⟨?_, ?_, fun h => hline (h ▸ hc)⟩ <;> rintro rfl <;> exact absurd hc' (by decide)
  have hitem (limit depth : Nat) :
      Idl.item limit (depth + 1) (declarationText type constant n.text ++ ';' :: " \x7d;".toList) =
        ((Idl.numeralValue? n).map fun v => .constant (Idl.constantMember spelled constant n v)).map
          fun node => (some node, " \x7d;".toList) := by
    rw [Idl.item_declarationText htype hconstant hn (hspec limit), Option.map_map]
    rfl
  have hnodes : (Idl.nodes (moduleText name (declarationText type constant n.text))).toOption = _ :=
    Idl.nodes_moduleText hname (by rintro c ⟨⟩; decide) (List.cons_ne_nil _ _)
      (fun c hc => ⟨(hchars c hc).1, (hchars c hc).2.1⟩) hitem
  have hparse : (parse (String.ofList (moduleText name (declarationText type constant n.text)))
      (.ofDialect .idl)).toOption =
        (Idl.nodes (moduleText name (declarationText type constant n.text)) >>= Idl.resolve).toOption :=
    Idl.toOption_definitions_of_line (fun h => (hchars _ h).2.2 rfl) (by decide) (by decide) (by decide)
  rw [hparse, Idl.toOption_bind, hnodes, coerced?]
  cases Idl.numeralValue? n with
  | none => rfl
  | some v =>
    rw [Option.map_some, Option.map_some, Option.bind_some, Option.bind_some, Idl.resolve_numeral hfold]
    cases Literal.coerceScalar p.tag v <;> rfl

/-- The line of an assignment is a constant if the numeral is a literal of the type. -/
theorem field_assignmentText {written : String} (tag : Primitive.ofTag? written = some p) {f : Field} :
    Line.Ros2.field (assignmentText written.toList constant n.text) = .ok f ↔
      ∃ v, decodeScalar p.tag n.text = .ok v ∧ f = .ofNumeral p.tag constant n v := by
  obtain ⟨hidentifier, -⟩ := Idl.isIdentifier_of_isNameIn hconstant
  obtain ⟨c, tail, hcons, -⟩ := hidentifier.first
  have hname : Word isNamePart constant := ⟨hcons ▸ List.cons_ne_nil c tail, hidentifier.all⟩
  have hword := Literal.word_text hn
  have htrim := Literal.trimmed_of_word hword
  have hfield : Line.Ros2.field (trim (Line.lineOf written.toList none none constant (" = ".toList ++ n.text))) =
      .ok f ↔ _ :=
    Line.Ros2.field_trim_lineOf (word_type tag) hname (by simp) (by simp) (by rintro c ⟨⟩; rfl)
  have hline : trim (Line.lineOf written.toList none none constant (" = ".toList ++ n.text)) =
      assignmentText written.toList constant n.text := (trimmed_assignmentText hn tag).trim_eq
  have hliteral : Line.Ros2.takesLiteral p.tag = true := by
    cases p <;> first | rfl | cases numeric
  have hyields : Line.Ros2.Declaration.Yields ⟨written.toList, none, none, constant, .assigned n.text⟩ none none f ↔
      ∃ v, decodeScalar p.tag n.text = .ok v ∧ f = .ofNumeral p.tag constant n v := by
    refine (Line.Ros2.Declared.yields_assigned (d := ⟨written.toList, none, none, constant, .nothing⟩)).trans ?_
    simp only [Line.Ros2.Declaration.fieldType, String.ofList_toList, Primitive.foldAlias_eq_tag tag, hconstant,
      hliteral, htrim.trim_eq, true_and]
    rfl
  rw [← hline, hfield, Line.Ros2.read?_assigned htrim (.inr (Line.Ros2.isWhole_word hword))]
  simpa using hyields

/-- A line that assigns a numeral defines a constant if it is a literal of the type. -/
theorem parse_assignmentText {written : String} (tag : Primitive.ofTag? written = some p) :
    (parse (String.ofList (assignmentText written.toList constant n.text)) (.ofDialect .ros2)).toOption =
      (decodeScalar p.tag n.text).toOption.map fun v => [⟨none, [.ofNumeral p.tag constant n v]⟩] := by
  have hword := word_type tag
  have hplain : '\n' ∉ assignmentText written.toList constant n.text := by
    have htype : '\n' ∉ written.toList := fun h => absurd (hword.all _ h) (by decide)
    have hname : '\n' ∉ constant := fun h =>
      absurd ((Idl.isIdentifier_of_isNameIn hconstant).1.all _ h) (by decide)
    have htext : '\n' ∉ n.text := fun h => absurd ((Literal.word_text hn).all _ h) (by decide)
    simp [assignmentText, htype, hname, htext]
  have hdefinitions : parseLines (String.ofList (assignmentText written.toList constant n.text)) .ros2 =
      (Line.Ros2.field (assignmentText written.toList constant n.text)).map fun f => [⟨none, [f]⟩] := by
    have hheader := Line.Ros2.header?_eq_none (Line.Ros2.not_headerMark_append hword
      (Reader.word_of_all (by decide) (by decide) : Word isBlank [' ']) none none
      (constant ++ (" = ".toList ++ n.text)))
    have hlast : ∀ c ∈ (assignmentText written.toList constant n.text).getLast?, isBlank c = false :=
      (trimmed_assignmentText hn tag).last
    obtain ⟨c, tail, htype, hc⟩ := hword.exists_cons
    simp only [assignmentText, htype, List.cons_append] at hplain hheader hlast ⊢
    exact Line.ros2.definitions_of_line hc hplain hlast hheader
  have hresolve (v : Value) : resolveReferences [⟨none, [.ofNumeral p.tag constant n v]⟩] =
      .ok [⟨none, [.ofNumeral p.tag constant n v]⟩] := by
    have hcomplex : (Field.ofNumeral p.tag constant n v).isComplex = false :=
      Line.isComplexType_eq_false (Primitive.ofTag?_tag p)
    simp [resolveReferences, Definition.resolve, Field.resolve, hcomplex]
    rfl
  rw [parse_ofDialect rfl, hdefinitions]
  cases hv : decodeScalar p.tag n.text with
  | ok v =>
    rw [(field_assignmentText numeric hconstant hn tag).2 ⟨v, hv, rfl⟩]
    exact congrArg Except.toOption (hresolve v)
  | error e =>
    cases hf : Line.Ros2.field (assignmentText written.toList constant n.text) with
    | error e => rfl
    | ok f =>
      obtain ⟨v, hv', -⟩ := (field_assignmentText numeric hconstant hn tag).1 hf
      cases hv.symm.trans hv'

end Readings

/-- A whole numeral of more than 64 bits for a floating point type is refused in a document, and in a line it is
the number nearest to it. -/
theorem parse_of_not_fitsWord {p : Primitive} {written : String} {name type constant : List Char} {n : Numeral}
    (tag : Primitive.ofTag? written = some p) (hfloat : p.isFloat = true) (htype : TypeText p type)
    (hline : '\n' ∉ type) (hname : IsIdentifier name) (hconstant : isNameIn Char.isUpper constant = true)
    (hn : n.WellFormed) (hwhole : n.isWhole = true) (hfits : ¬ FitsWord n.wholeValue) :
    (parse (String.ofList (moduleText name (declarationText type constant n.text))) (.ofDialect .idl)).toOption =
        none ∧
      (parse (String.ofList (assignmentText written.toList constant n.text)) (.ofDialect .ros2)).toOption =
        some [⟨none, [.ofNumeral p.tag constant n (.float (Decimal.ofNumeral n).toBinary64)]⟩] := by
  have numeric : p.isNumeric = true := by simp [Primitive.isNumeric, hfloat]
  rw [parse_moduleText numeric hconstant hn hname htype hline, parse_assignmentText numeric hconstant hn tag,
    coerced?, Idl.numeralValue?_eq_none hwhole hfits,
    Literal.decodeScalar_text_of_isFloat (Primitive.ofTag?_tag p) hfloat hn]
  exact ⟨rfl, rfl⟩

/-- **The same numbers.** A constant of a numeric type in a module of its own and the line that assigns the same
decimal number are accepted together, and as numbers that are equal, if and only if no whole numeral of
more than 64 bits is given for a floating point type. -/
theorem rel_parse_numericConstant {p : Primitive} {written : String} {name type constant : List Char} {n : Numeral}
    (tag : Primitive.ofTag? written = some p) (numeric : p.isNumeric = true) (htype : TypeText p type)
    (hline : '\n' ∉ type) (hname : IsIdentifier name) (hconstant : isNameIn Char.isUpper constant = true)
    (hn : n.WellFormed) :
    Option.Rel SameConstant
        (parse (String.ofList (moduleText name (declarationText type constant n.text))) (.ofDialect .idl)).toOption
        (parse (String.ofList (assignmentText written.toList constant n.text)) (.ofDialect .ros2)).toOption ↔
      (p.isFloat = true → n.isWhole = true → FitsWord n.wholeValue) := by
  rw [parse_moduleText numeric hconstant hn hname htype hline, parse_assignmentText numeric hconstant hn tag,
    rel_sameConstant_iff]
  exact Idl.rel_coerced?_decodeScalar (Primitive.ofTag?_tag p) numeric hn

/-- The greatest integer of 64 bits, for a floating point type. -/
theorem rel_parse_numericConstant_of_greatest :
    (Primitive.ofTag? "float64" = some .float64 ∧ Primitive.float64.isNumeric = true ∧
      TypeText .float64 "double".toList ∧ '\n' ∉ "double".toList ∧ IsIdentifier ['m'] ∧
      isNameIn Char.isUpper ['X'] = true ∧
      (⟨some .plus, "18446744073709551615".toList, none, none⟩ : Numeral).WellFormed) ∧
    Option.Rel SameConstant
      (parse "module m \x7b const double X = +18446744073709551615; \x7d;" (.ofDialect .idl)).toOption
      (parse "float64 X = +18446744073709551615" (.ofDialect .ros2)).toOption := by
  have tag : Primitive.ofTag? "float64" = some .float64 := by decide
  have htype : TypeText .float64 "double".toList := .keywords .double (.last "double") rfl
  have hline : '\n' ∉ "double".toList := by decide
  have hname : IsIdentifier ['m'] := Idl.isIdentifier_of_checks rfl rfl
  have hn : (⟨some .plus, "18446744073709551615".toList, none, none⟩ : Numeral).WellFormed :=
    ⟨Reader.word_of_all (by decide) (by decide), by simp, by simp⟩
  have hdocument : String.ofList (moduleText ['m'] (declarationText "double".toList ['X']
      (Numeral.text ⟨some .plus, "18446744073709551615".toList, none, none⟩))) =
        "module m \x7b const double X = +18446744073709551615; \x7d;" := by decide
  have hassigned : String.ofList (assignmentText "float64".toList ['X']
      (Numeral.text ⟨some .plus, "18446744073709551615".toList, none, none⟩)) =
        "float64 X = +18446744073709551615" := by decide
  have hrel := (rel_parse_numericConstant tag rfl htype hline hname (by decide : isNameIn Char.isUpper ['X'] = true)
    hn).2 fun _ _ => by unfold FitsWord; decide
  rw [hdocument, hassigned] at hrel
  exact ⟨⟨tag, rfl, htype, hline, hname, by decide, hn⟩, hrel⟩

/-- One more is no literal of a document, and a number of a line. -/
theorem not_rel_parse_of_tooGreat :
    (parse "module m \x7b const double X = 18446744073709551616; \x7d;" (.ofDialect .idl)).toOption = none ∧
    (parse "float64 X = 18446744073709551616" (.ofDialect .ros2)).toOption.isSome = true ∧
    ¬ Option.Rel SameConstant
      (parse "module m \x7b const double X = 18446744073709551616; \x7d;" (.ofDialect .idl)).toOption
      (parse "float64 X = 18446744073709551616" (.ofDialect .ros2)).toOption := by
  have htext : String.ofList (moduleText ['m'] (declarationText "double".toList ['X']
      (Numeral.text ⟨none, "18446744073709551616".toList, none, none⟩))) =
        "module m \x7b const double X = 18446744073709551616; \x7d;" := by decide
  have hassigned : String.ofList (assignmentText "float64".toList ['X']
      (Numeral.text ⟨none, "18446744073709551616".toList, none, none⟩)) =
        "float64 X = 18446744073709551616" := by decide
  have hn : (⟨none, "18446744073709551616".toList, none, none⟩ : Numeral).WellFormed :=
    ⟨Reader.word_of_all (by decide) (by decide), by simp, by simp⟩
  have tag : Primitive.ofTag? "float64" = some .float64 := by decide
  obtain ⟨hdocument, hline⟩ := parse_of_not_fitsWord tag rfl (.keywords .double (.last "double") rfl) (by decide)
    (Idl.isIdentifier_of_checks rfl rfl : IsIdentifier ['m']) (by decide : isNameIn Char.isUpper ['X'] = true) hn rfl
    (by unfold FitsWord; decide)
  rw [htext] at hdocument
  rw [hassigned] at hline
  rw [hdocument, hline]
  exact ⟨rfl, rfl, by rintro ⟨⟩⟩

end RosSchema

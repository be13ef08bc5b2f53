import RosSchema.Proofs.Line.DerivedLine

/-!
# Canonical lines of ROS 1 read back

A field that was derived from a line and resolved is read back from its canonical line exactly when its
type is still a word of the grammar and its value is finite, and what is read is the normal form of the
field.
-/

namespace RosSchema.Line.Ros1

open RosSchema.Literal
open RosSchema.Text (trim before isBlank Trimmed)
open Reader (Word isNamePart isNameStart)

/-! ## Types -/

theorem isWord_foldAlias {cs : List Char} (h : IsWord cs) : IsWord (foldAlias (String.ofList cs)).toList := by
  have hplain (word : List Char) (hstart : ∃ c tail, word = c :: tail ∧ isNameStart c = true)
      (hall : word.all isNamePart = true) : IsWord word :=
    .plain word ⟨hstart, List.all_eq_true.1 hall⟩
  unfold foldAlias
  split
  · exact hplain _ ⟨'u', _, rfl, by decide⟩ (by decide)
  · exact hplain _ ⟨'i', _, rfl, by decide⟩ (by decide)
  · rwa [String.toList_ofList]

/-- The older names of types are of the classes of the types that they stand for. -/
theorem ofWord_foldAlias (cs : List Char) :
    TypeClass.ofWord (foldAlias (String.ofList cs)).toList = TypeClass.ofWord cs := by
  by_cases hchar : String.ofList cs = "char"
  · rw [TypeClass.ofWord, TypeClass.ofWord, hchar]
    decide
  by_cases hbyte : String.ofList cs = "byte"
  · rw [TypeClass.ofWord, TypeClass.ofWord, hbyte]
    decide
  rw [foldAlias_of_ne hchar hbyte, String.toList_ofList]

/-- No type of another class than that of strings is one of strings, if the class has constants. -/
theorem isString_eq_false_of_ofWord {type : String} {p : Primitive} (hp : literalType type = .ok p)
    (hclass : TypeClass.ofWord type.toList = .bool ∨ TypeClass.ofWord type.toList = .numeric) :
    p.isString = false := by
  have hread (other : String) (h : type = other) {q : Primitive} (hq : literalType other = .ok q)
      (hs : q.isString = false) : p.isString = false := by
    rw [h, hq] at hp
    cases hp
    exact hs
  rw [TypeClass.ofWord, String.ofList_toList] at hclass
  split at hclass
  · exact hread "bool" rfl rfl rfl
  · exact hread "byte" rfl rfl rfl
  · exact hread "char" rfl rfl rfl
  · exact hread "float32" rfl rfl rfl
  · exact hread "float64" rfl rfl rfl
  · exact hread "int8" rfl rfl rfl
  · exact hread "uint8" rfl rfl rfl
  · exact hread "int16" rfl rfl rfl
  · exact hread "uint16" rfl rfl rfl
  · exact hread "int32" rfl rfl rfl
  · exact hread "uint32" rfl rfl rfl
  · exact hread "int64" rfl rfl rfl
  · exact hread "uint64" rfl rfl rfl
  all_goals simp at hclass

theorem ne_string_of_ofWord {type : String} {p : Primitive} {value : Value}
    (hp : literalType type = .ok p)
    (hclass : TypeClass.ofWord type.toList = .bool ∨ TypeClass.ofWord type.toList = .numeric)
    (fits : Fits p value) : ∀ s, value ≠ .string s := by
  rintro s rfl
  have hstring := isString_eq_false_of_ofWord hp hclass
  rw [fits.isString.2 ⟨s, rfl⟩] at hstring
  cases hstring

/-- Constants other than strings are of the class of truth values or of that of numbers. -/
theorem class_of_mem_derivations {line : List Char} {d : Derivation} (hd : d ∈ derivations line)
    (hassigned : d.assigned.isSome) (hother : d.typeClass ≠ .string) :
    TypeClass.ofWord d.fieldType.toList = .bool ∨ TypeClass.ofWord d.fieldType.toList = .numeric := by
  obtain ⟨-, produced⟩ := spelled_of_mem_derivations hd
  rw [Derivation.fieldType, ofWord_foldAlias, produced.class_eq]
  have hmem := (produced.constant hassigned).1
  simp only [List.mem_cons, List.not_mem_nil, or_false, hother] at hmem
  exact hmem

theorem isWord_string : IsWord "string".toList :=
  .plain _ ⟨⟨'s', _, rfl, by decide⟩, List.all_eq_true.1 (by decide)⟩

/-! ## Derived fields -/

def NoBlank (cs : List Char) : Prop := ∀ c ∈ cs, isBlank c = false

theorem isGap_eq_false_of_noBlank {cs : List Char} (h : NoBlank cs) : ∀ c ∈ cs, isGap c = false := by
  intro c hc
  by_contra hgap
  simp only [isGap, Bool.not_eq_false, Bool.or_eq_true, beq_iff_eq] at hgap
  rcases hgap with rfl | rfl <;> exact absurd (h _ hc) (by decide)

/-- The fields that are derived from lines, with their references resolved. -/
inductive Derived : Field → Prop where
  | plain (type name : String) (array : Option (ArrayMark Nat)) (typeName : TypeName type.toList)
      (noBlank : NoBlank type.toList) (folded : foldAlias type = type)
      (word : isFieldName name.toList = true) (mark : ∀ m ∈ array, IsMark m) :
      Derived (Field.plain type name none array)
  | text (name : String) (text : List Char) (word : isFieldName name.toList = true)
      (trimmed : Trimmed text) (ne_nil : text ≠ []) (newline : '\n' ∉ text) :
      Derived (.constantOf "string" name (.string (String.ofList text)) (some (String.ofList text)))
  | literal (type name : String) (value : Value) (text : List Char) (p : Primitive)
      (word : isFieldName name.toList = true) (literal : literalType type = .ok p)
      (class_eq : TypeClass.ofWord type.toList = .bool ∨ TypeClass.ofWord type.toList = .numeric)
      (type_word : IsWord type.toList) (folded : foldAlias type = type) (fits : Fits p value)
      (newline : '\n' ∉ text) :
      Derived (.constantOf type name value (some (String.ofList text)))

theorem newline_not_mem_of_suffix {raw line : List Char} (h : raw <:+ line) (hline : '\n' ∉ line) :
    '\n' ∉ raw := fun hm => hline (h.subset hm)

theorem before_subset (mark : Char) (cs : List Char) : before mark cs ⊆ cs :=
  (List.takeWhile_prefix _).subset

/-- A line without blanks at its ends and without a line end that is read as a field derives it. -/
theorem derived_of_field {line : List Char} {f : Field} (htrim : Trimmed line) (hline : '\n' ∉ line)
    (h : field line = .ok f) : Derived f ∧ IsWord f.type.toList := by
  obtain ⟨d, hd, h⟩ := field_eq_ok.1 h
  have hmem : d ∈ derivations line := hd ▸ List.mem_singleton_self d
  have written := written_of_mem_derivations hmem
  obtain ⟨-, produced⟩ := spelled_of_mem_derivations hmem
  have htype : IsWord d.fieldType.toList := isWord_foldAlias written.word
  have hfold : foldAlias d.fieldType = d.fieldType := foldAlias_foldAlias _
  obtain ⟨hname, hy⟩ := Derivation.field_eq_ok.1 h
  have hname' : isFieldName (String.ofList d.name).toList = true := by rwa [String.toList_ofList]
  cases hy with
  | plain hassigned =>
    have hblank : NoBlank d.fieldType.toList := fun c hc =>
      Ros2.isBlank_eq_false_of_isTypePart (htype.word.all c hc)
    rw [Field.markField_variableOf]
    refine ⟨.plain _ _ d.array (typeName_of_word htype.word) hblank hfold hname' written.mark, ?_⟩
    rwa [(Field.plain_eq _ _ _ _).1]
  | text raw hassigned hstring =>
    obtain ⟨hne, hsuffix⟩ := written.assigned raw hassigned
    have hstringType : d.fieldType = "string" := by
      rw [Derivation.fieldType, ofList_of_ofWord (produced.class_eq.trans hstring)]
      rfl
    have hlast : trim raw ≠ [] := by
      rw [ne_eq, Text.trim_eq_nil_iff]
      intro hblank
      have hend := List.getLast_mem hne
      obtain ⟨front, rfl⟩ := hsuffix
      have hnot := htrim.last (raw.getLast hne) (by
        rw [List.getLast?_append_of_ne_nil _ hne, List.getLast?_eq_getLast_of_ne_nil hne]
        rfl)
      rw [hblank _ hend] at hnot
      cases hnot
    rw [hstringType] at htype ⊢
    exact ⟨.text _ (trim raw) hname' (Text.trimmed_trim raw) hlast
      fun hm => newline_not_mem_of_suffix hsuffix hline (Text.trim_subset raw hm), htype⟩
  | literal raw value hassigned hother decoded =>
    obtain ⟨hne, hsuffix⟩ := written.assigned raw hassigned
    obtain ⟨p, hp, hdecode⟩ := decodeScalar_eq_ok.1 decoded
    have hclass := class_of_mem_derivations hmem (by rw [hassigned]; rfl) hother
    have hnewline : '\n' ∉ trim (before '#' raw) := fun hm =>
      newline_not_mem_of_suffix hsuffix hline (before_subset _ _ (Text.trim_subset _ hm))
    exact ⟨.literal _ _ value _ p hname' hp hclass htype hfold (fits_of_decodeAs hdecode) hnewline, htype⟩

namespace Derived

variable {f g : Field}

def readText (text : List Char) : Option String := some (String.ofList text)

/-- A derived field is one that is read from lines. -/
theorem inLine (h : Derived f) : f.InLine readText := by
  cases h with
  | plain type name array typeName noBlank folded word =>
    rw [← Field.plain_eq_self]
    exact .member type name none array none typeName (isWord_of_isFieldName word).2 (by simp)
  | text name text word trimmed ne_nil newline =>
    refine .constant "string" name _ text none .string (typeName_of_word isWord_string.word)
      (isWord_of_isFieldName word).2 rfl (.string _ rfl) newline ?_
    rintro s ⟨⟩
    rfl
  | literal type name value text p word literal class_eq type_word folded fits newline =>
    refine .constant type name value text none p (typeName_of_word type_word.word)
      (isWord_of_isFieldName word).2 literal fits newline ?_
    exact fun s hs => absurd hs (ne_string_of_ofWord literal class_eq fits s)

/-- Resolving a derived field leaves it as it is, but for the type. -/
theorem resolve {names : List String} (hnames : ∀ name ∈ names, OneWord name.toList ∧ NoBlank name.toList)
    (h : Derived f) (hr : f.resolve names = .ok g) : Derived g := by
  have hconstant (hc : f.isComplex = false) : g = f := by
    rwa [Field.resolve_eq_ok, if_neg (by simp [hc])] at hr
  cases h with
  | plain type name array typeName noBlank folded word mark =>
    rw [← Field.plain_eq_self] at hr
    obtain ⟨full, rfl, rfl | ⟨hname, hrefers, hcomplex⟩⟩ := Field.InLine.exists_plain_of_resolve hr
    · rw [Field.plain_eq_self]
      exact .plain full name array typeName noBlank folded word mark
    · rw [Field.plain_eq_self]
      exact .plain full name array (typeName.of_refersTo (hnames full hname).1 hrefers) (hnames full hname).2
        (folded_of_refersTo folded hcomplex hrefers).1 word mark
  | text name text word trimmed ne_nil newline =>
    rw [hconstant rfl]
    exact .text name text word trimmed ne_nil newline
  | literal type name value text p word literal class_eq type_word folded fits newline =>
    rw [hconstant (isComplexType_of_literalType literal)]
    exact .literal type name value text p word literal class_eq type_word folded fits newline

/-! ## Reading a canonical line -/

theorem field_of_derivations {line : List Char} {d : Derivation} (h : derivations line = [d]) :
    field line = .ok g ↔ d.field = .ok g := by
  rw [field_eq_ok, h]
  simp

/-- A variable is read back from its canonical line exactly when its type is a word. -/
theorem field_plain {type name : String} {array : Option (ArrayMark Nat)} (typeName : TypeName type.toList)
    (noBlank : NoBlank type.toList) (folded : foldAlias type = type)
    (word : isFieldName name.toList = true) (mark : ∀ m ∈ array, IsMark m) :
    field (trim (Field.plain type name none array).line) = .ok g ↔
      IsWord type.toList ∧ g = Field.plain type name none array := by
  have hname := (isWord_of_isFieldName word).2
  have hline : trim (Field.plain type name none array).line =
      lineOf type.toList none array name.toList [] := by
    rw [← Field.plain_eq_self, Field.line_variable, trim_lineOf typeName.ne_nil
      (fun c hc => noBlank c (List.mem_of_mem_head? hc)) hname]
    rfl
  rw [hline]
  have hread (htype : IsWord type.toList) : field (lineOf type.toList none array name.toList []) = .ok g ↔
      g = Field.plain type name none array := by
    rw [field_of_derivations (derivations_variable htype word mark), Derivation.field_eq_ok,
      and_iff_right word, Derivation.yields_plain rfl]
    simp only [Derivation.fieldType, String.ofList_toList, folded, Field.markField_variableOf]
  constructor
  · intro h
    obtain ⟨d, hd, -⟩ := field_eq_ok.1 h
    have written := written_of_mem_derivations (hd ▸ List.mem_singleton_self d)
    have htype := isWord_of_written typeName (isGap_eq_false_of_noBlank noBlank) hname written
    exact ⟨htype, (hread htype).1 h⟩
  · rintro ⟨htype, rfl⟩
    exact (hread htype).2 rfl

theorem trim_assigned {type name text : List Char} (htype : IsWord type) (hname : Word isNamePart name)
    (htrim : Trimmed text) (hne : text ≠ []) :
    trim (lineOf type none none name (" = ".toList ++ text)) =
      lineOf type none none name (" = ".toList ++ text) := by
  rw [trim_lineOf htype.word.ne_nil
    (fun c hc => Ros2.isBlank_eq_false_of_isTypePart (htype.word.all c (List.mem_of_mem_head? hc))) hname,
    Text.trimRight_of_last]
  intro c hc
  rw [List.getLast?_append_of_ne_nil _ hne] at hc
  exact htrim.last c hc

/-- A string constant is read back from its canonical line as it stands. -/
theorem field_text {name : String} {text : List Char} (word : isFieldName name.toList = true)
    (trimmed : Trimmed text) (ne_nil : text ≠ []) : field (trim (Field.line
      (.constantOf "string" name (.string (String.ofList text)) (some (String.ofList text))))) = .ok g ↔
        g = .constantOf "string" name (.string (String.ofList text)) (some (String.ofList text)) := by
  have hline := Field.line_constant "string" name (.string (String.ofList text)) text none
  have hclass : TypeClass.ofWord "string".toList = .string := by decide
  have hderivations := derivations_constant isWord_string word text (by rw [hclass]; decide)
  rw [show Field.line (.constantOf "string" name (.string (String.ofList text)) (some (String.ofList text))) =
    lineOf "string".toList none none name.toList (" = ".toList ++ text) from hline,
    trim_assigned isWord_string (isWord_of_isFieldName word).2 trimmed ne_nil,
    field_of_derivations hderivations, Derivation.field_eq_ok, and_iff_right word,
    Derivation.yields_text rfl hclass]
  simp only [Derivation.fieldType, String.ofList_toList, trim_space trimmed]
  rfl

/-- A literal is read back from its canonical line exactly when it is finite, as its normal form. -/
theorem field_literal {type name : String} {value : Value} {text : List Char} {p : Primitive}
    (word : isFieldName name.toList = true) (literal : literalType type = .ok p)
    (class_eq : TypeClass.ofWord type.toList = .bool ∨ TypeClass.ofWord type.toList = .numeric)
    (type_word : IsWord type.toList) (folded : foldAlias type = type) (fits : Fits p value) :
    field (trim (Field.line (.constantOf type name value (some (String.ofList text))))) = .ok g ↔
      IsFinite value ∧ g = .constantOf type name value.normal (some (String.ofList value.encode)) := by
  have hstring := isString_eq_false_of_ofWord literal class_eq
  have hline := Field.line_constant type name value text none
  rw [Field.assignment_of_not_string (ne_string_of_ofWord literal class_eq fits)] at hline
  have hmem : TypeClass.ofWord type.toList ∈ [TypeClass.bool, .numeric, .string] := by
    rcases class_eq with h | h <;> rw [h] <;> decide
  have hderivations := derivations_constant type_word word value.encode hmem
  have hbefore : before '#' (' ' :: value.encode) = ' ' :: value.encode := by
    refine List.takeWhile_eq_self_iff.2 fun c hc => bne_iff_ne.2 ?_
    rintro rfl
    rcases List.mem_cons.1 hc with hc | hc
    · exact absurd hc (by decide)
    · exact absurd ((fits.word hstring).all _ hc) (by decide)
  have hread : trim (before '#' (' ' :: value.encode)) = value.encode := by
    rw [hbefore, trim_space (trimmed_encode fits)]
  have hclass : TypeClass.ofWord type.toList ≠ .string := by
    rcases class_eq with h | h <;> rw [h] <;> decide
  rw [show Field.line (.constantOf type name value (some (String.ofList text))) =
    lineOf type.toList none none name.toList (" = ".toList ++ value.encode) from hline,
    trim_assigned type_word (isWord_of_isFieldName word).2 (trimmed_encode fits) (encode_ne_nil fits),
    field_of_derivations hderivations, Derivation.field_eq_ok, and_iff_right word,
    Derivation.yields_literal rfl hclass]
  simp only [Derivation.fieldType, String.ofList_toList, folded, hread, decodeScalar_encode literal fits]
  constructor
  · rintro ⟨w, ⟨hfinite, rfl⟩, rfl⟩
    exact ⟨hfinite, rfl⟩
  · rintro ⟨hfinite, rfl⟩
    exact ⟨_, ⟨hfinite, rfl⟩, rfl⟩

theorem normal_plain (type name : String) (array : Option (ArrayMark Nat)) :
    (Field.plain type name none array).normal = Field.plain type name none array := by
  have hplain := Field.plain_eq type name none array
  rw [Field.normal_of_isVariable hplain.2.2.2.2.1, hplain.2.2.2.2.2.2.2, Option.map_none,
    Field.plain_eq_self]

theorem normal_text (name : String) (text : List Char) :
    Field.normal (.constantOf "string" name (.string (String.ofList text)) (some (String.ofList text))) =
      .constantOf "string" name (.string (String.ofList text)) (some (String.ofList text)) := by
  rw [Field.normal_of_isConstant rfl]
  simp [Field.constantOf, Field.constantText, Value.normal]

theorem normal_literal (type name : String) {value : Value} (text : Option String)
    (h : ∀ s, value ≠ .string s) : Field.normal (.constantOf type name value text) =
      .constantOf type name value.normal (some (String.ofList value.encode)) := by
  rw [Field.normal_of_isConstant rfl, Field.constantText_of_not_string rfl h]
  rfl

/-- A derived field is read back exactly when its type is a word and its value is finite, as its normal
form. -/
theorem field_eq_ok_iff (h : Derived f) : field (trim f.line) = .ok g ↔
    IsWord f.type.toList ∧ (∀ v ∈ f.value, IsFinite v) ∧ g = f.normal := by
  cases h with
  | plain type name array typeName noBlank folded word mark =>
    have hplain := Field.plain_eq type name none array
    rw [field_plain typeName noBlank folded word mark, normal_plain]
    simp [hplain]
  | text name text word trimmed ne_nil newline =>
    rw [field_text word trimmed ne_nil, normal_text]
    refine ⟨fun hg => ⟨isWord_string, ?_, hg⟩, fun h => h.2.2⟩
    rintro v ⟨⟩
    trivial
  | literal type name value text p word literal class_eq type_word folded fits newline =>
    rw [field_literal word literal class_eq type_word folded fits,
      normal_literal type name _ (ne_string_of_ofWord literal class_eq fits)]
    simp [Field.constantOf, type_word]

end Derived

end RosSchema.Line.Ros1

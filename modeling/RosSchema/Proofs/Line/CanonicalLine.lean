import RosSchema.Proofs.Line.Declared
import RosSchema.Proofs.Line.FieldLine

/-!
# Canonical lines of ROS 2 read back

If the type of a declared field is one that a line can be written with, the canonical line of the field
is read back exactly when the values in it survive, and what is read is the normal form of the field.
-/

namespace RosSchema

/-! ## Values that survive -/

/-- A value whose canonical text is read back: finite, and as an array of several items without a
comment mark in its strings. -/
def Value.Survives : Value → Prop
  | .array items => (∀ v ∈ items, Literal.IsFinite v) ∧ (items.length ≤ 1 ∨ Line.Ros2.NoMark items)
  | v => Literal.IsFinite v

def Field.Survives (f : Field) : Prop :=
  (∀ v ∈ f.value, v.Survives) ∧ ∀ v ∈ f.defaultValue, v.Survives

namespace Line.Ros2

open RosSchema.Literal
open RosSchema.Text (trim trimRight isBlank Trimmed)
open Reader (Word isNamePart)

/-! ## Reading a canonical line -/

theorem count_ofNat {n : Nat} (h : n < 2 ^ 64) (line : List Char) : count line (Numeral.ofNat n) = .ok n := by
  have hread : count64? (Numeral.ofNat n) = some n :=
    Reader.count64?_eq_some.2 ⟨Numeral.natOfDigits_ofNat n, h⟩
  rw [count, hread]

theorem mapM_count {bound : Option Nat} (h : ∀ n ∈ bound, n < 2 ^ 64) (line : List Char) :
    (bound.map Numeral.ofNat).mapM (count line) = .ok bound := by
  cases bound with
  | none => rfl
  | some n => exact mapM_eq_ok.2 (.inr ⟨_, n, rfl, count_ofNat (h n rfl) line, rfl⟩)

theorem mapM_countMark {array : Option (ArrayMark Nat)} (h : ∀ m ∈ array, CountFits m)
    (line : List Char) : (array.map ArrayMark.digits).mapM (countMark line) = .ok array := by
  cases array with
  | none => rfl
  | some m =>
    refine mapM_eq_ok.2 (.inr ⟨_, m, rfl, ?_, rfl⟩)
    cases m with
    | any => rfl
    | exactly n =>
      rw [ArrayMark.digits, countMark, count_ofNat (h _ rfl)]
      rfl
    | atMost n =>
      rw [ArrayMark.digits, countMark, count_ofNat (h _ rfl)]
      rfl

/-- A canonical line is read as a field as its ending is. -/
theorem field_trim_lineOf {type name tail : List Char} {bound : Option Nat}
    {array : Option (ArrayMark Nat)} (htype : Word isTypePart type) (hname : Word isNamePart name)
    (hbound : ∀ n ∈ bound, n < 2 ^ 64) (harray : ∀ m ∈ array, CountFits m)
    (htail : ∀ c ∈ tail.head?, c = ' ') {g : Field} :
    field (trim (lineOf type bound array name tail)) = .ok g ↔
      ∃ ending, Ending.read? (trimRight tail) = some ending ∧
        (bound.isSome && foldAlias (String.ofList type) != "string" &&
          foldAlias (String.ofList type) != "wstring") = false ∧
        Declaration.Yields ⟨type, bound.map Numeral.ofNat, array.map ArrayMark.digits, name, ending⟩
          bound array g := by
  have hdigits : ∀ digits ∈ bound.map Numeral.ofNat, Word Char.isDigit digits := by
    intro digits hd
    obtain ⟨n, -, rfl⟩ := Option.mem_map.1 hd
    exact Numeral.word_ofNat n
  have hgap : Word isBlank [' '] := Reader.word_of_all (by decide) (by decide)
  have hstops : ∀ c ∈ (trimRight tail).head?, isNamePart c = false := by
    intro c hc
    rw [htail c (Text.head?_of_front (Text.trimRight_front tail) c hc)]
    decide
  rw [trim_lineOf htype.ne_nil
      (fun c hc => isBlank_eq_false_of_isTypePart (htype.all c (List.mem_of_mem_head? hc)))
    hname, field_eq_ok]
  rw [lineOf, declaration_append htype hdigits (markDigits_digits array) hgap hname hstops]
  simp only [Option.map_eq_some_iff]
  constructor
  · rintro ⟨_, ⟨ending, hending, rfl⟩, h⟩
    obtain ⟨bound', hbound', array', harray', hstring, hy⟩ := Declaration.field_eq_ok.1 h
    rw [mapM_count hbound] at hbound'
    rw [mapM_countMark harray] at harray'
    cases hbound'
    cases harray'
    exact ⟨ending, hending, hstring, hy⟩
  · rintro ⟨ending, hending, hstring, hy⟩
    exact ⟨_, ⟨ending, hending, rfl⟩, Declaration.field_eq_ok.2
      ⟨bound, mapM_count hbound _, array, mapM_countMark harray _, hstring, hy⟩⟩

/-- What a declaration yields depends on its type, its name and its ending. -/
theorem Declaration.Yields.congr {d d' : Declaration} (htype : d.fieldType = d'.fieldType)
    (hname : d.name = d'.name) (hending : d.ending = d'.ending) {bound : Option Nat}
    {array : Option (ArrayMark Nat)} {g : Field} (h : d.Yields bound array g) :
    d'.Yields bound array g := by
  have hplain : d.plainField bound array = d'.plainField bound array := by
    rw [plainField, plainField, htype, hname]
  cases h with
  | constant raw value ending name scalar type decoded =>
    rw [htype] at type decoded ⊢
    rw [hname] at name ⊢
    exact .constant raw value (hending ▸ ending) name scalar type decoded
  | default raw value ending name type decoded =>
    rw [htype] at type decoded
    rw [hname] at name
    rw [hplain]
    exact .default raw value (hending ▸ ending) name type decoded
  | plain ending name =>
    rw [hname] at name
    rw [hplain]
    exact .plain (hending ▸ ending) name

namespace Declared

variable {d : Declaration} {bound : Option Nat} {array : Option (ArrayMark Nat)} {f : Field}

/-- The canonical line of a declared field is read back as its ending is. -/
theorem field_trim_line (h : Declared d bound array f) (htype : Word isTypePart f.type.toList)
    {bound' : Option Nat} {array' : Option (ArrayMark Nat)} (hbound : bound' = bound ∨ bound' = none)
    (harray : array' = array ∨ array' = none) {tail : List Char}
    (hline : f.line = lineOf d.fieldType.toList bound' array' d.name tail)
    (htail : ∀ c ∈ tail.head?, c = ' ') {g : Field} :
    field (trim f.line) = .ok g ↔ ∃ ending, Ending.read? (trimRight tail) = some ending ∧
      Declaration.Yields { d with ending } bound' array' g := by
  have hb : ∀ n ∈ bound', n < 2 ^ 64 := by
    rcases hbound with rfl | rfl
    · exact h.boundFits
    · simp
  have ha : ∀ m ∈ array', CountFits m := by
    rcases harray with rfl | rfl
    · exact h.arrayFits
    · simp
  have hfold : foldAlias (String.ofList d.fieldType.toList) = d.fieldType := by
    rw [String.ofList_toList, h.type, h.folded]
  have hstring : (bound'.isSome && d.fieldType != "string" && d.fieldType != "wstring") = false := by
    rcases hbound with rfl | rfl
    · exact h.string
    · rfl
  rw [hline, field_trim_lineOf (h.type ▸ htype) h.name hb ha htail, hfold]
  refine exists_congr fun ending => and_congr_right fun _ => ?_
  have hsame : Declaration.fieldType ⟨d.fieldType.toList, bound'.map Numeral.ofNat,
      array'.map ArrayMark.digits, d.name, ending⟩ = Declaration.fieldType { d with ending } := hfold
  constructor
  · rintro ⟨-, hy⟩
    exact hy.congr hsame rfl rfl
  · intro hy
    exact ⟨hstring, hy.congr hsame.symm rfl rfl⟩

theorem trimRight_default {text : List Char} (htrim : Trimmed text) :
    trimRight (' ' :: text) = if text = [] then [] else ' ' :: text := by
  cases text with
  | nil => decide
  | cons c cs =>
    rw [if_neg (List.cons_ne_nil _ _)]
    exact Text.trimRight_of_last (by simpa using htrim.last)

theorem plainField_eq (d : Declaration) (bound : Option Nat) (array : Option (ArrayMark Nat)) :
    d.plainField bound array = Field.plain d.fieldType (String.ofList d.name) bound array := rfl

/-- A field without a default is read back from its canonical line as it stands. -/
theorem field_plain (h : Declared d bound array f) (htype : Word isTypePart f.type.toList)
    (ending : d.ending = .nothing) (hf : f = d.plainField bound array) {g : Field} :
    field (trim f.line) = .ok g ↔ g = f := by
  have hline : f.line = lineOf d.fieldType.toList bound array d.name [] := by
    have hvariable := Field.line_variable d.fieldType (String.ofList d.name) bound array none
    rw [String.toList_ofList] at hvariable
    rw [hf, plainField_eq, ← Field.plain_eq_self, hvariable]
    rfl
  have hd : { d with ending := .nothing } = d := by rw [← ending]
  rw [h.field_trim_line htype (.inl rfl) (.inl rfl) hline (by simp)]
  constructor
  · rintro ⟨e, he, hy⟩
    cases he
    rw [hd] at hy
    exact ((Declaration.yields_nothing ending).1 hy).2.trans hf.symm
  · rintro rfl
    exact ⟨.nothing, rfl, hd ▸ h.yields⟩

/-! ## Values in canonical lines -/

theorem survives_iff_of_fits {p : Primitive} {v : Value} (h : Fits p v) : v.Survives ↔ IsFinite v := by
  cases h <;> exact Iff.rfl

/-- The ending of a default decides what a canonical line is read as. -/
theorem exists_yields_default {v : Value} {tail text : List Char}
    (name : isNameIn Char.isLower d.name = true) (literal : takesLiteral d.fieldType = true)
    (hending : Ending.read? tail = some (.default text))
    (hdecode : ∀ w, (if array.isSome then decodeArray d.fieldType (trim text)
      else decodeScalar d.fieldType (trim text)) = .ok w ↔ v.Survives ∧ w = v.normal) {g : Field} :
    (∃ ending, Ending.read? tail = some ending ∧ Declaration.Yields { d with ending } bound array g) ↔
      v.Survives ∧ g = { d.plainField bound array with defaultValue := some v.normal } := by
  rw [hending]
  simp only [Option.some.injEq, exists_eq_left']
  refine (Declaration.yields_default (d := { d with ending := .default text }) rfl).trans ?_
  constructor
  · rintro ⟨-, -, w, hw, rfl⟩
    obtain ⟨hsurvives, rfl⟩ := (hdecode w).1 hw
    exact ⟨hsurvives, rfl⟩
  · rintro ⟨hsurvives, rfl⟩
    exact ⟨name, literal, v.normal, (hdecode _).2 ⟨hsurvives, rfl⟩, rfl⟩

theorem yields_assigned {text : List Char} {g : Field} :
    Declaration.Yields { d with ending := .assigned text } none none g ↔
      isNameIn Char.isUpper d.name = true ∧ takesLiteral d.fieldType = true ∧
      ∃ w, decodeScalar d.fieldType (trim text) = .ok w ∧
        g = Field.constantOf d.fieldType (String.ofList d.name) w (some (String.ofList (trim text))) :=
  (Declaration.yields_assigned rfl).trans
    (and_congr_right fun _ => ⟨fun h => h.2, fun h => ⟨rfl, h⟩⟩)

/-- The ending of a constant decides what a canonical line is read as. -/
theorem exists_yields_assigned {v : Value} {tail text : List Char}
    (name : isNameIn Char.isUpper d.name = true) (literal : takesLiteral d.fieldType = true)
    (htrim : Trimmed text) (hending : Ending.read? tail = some (.assigned text))
    (hdecode : ∀ w, decodeScalar d.fieldType text = .ok w ↔ v.Survives ∧ w = v.normal) {g : Field} :
    (∃ ending, Ending.read? tail = some ending ∧ Declaration.Yields { d with ending } none none g) ↔
      v.Survives ∧ g = Field.constantOf d.fieldType (String.ofList d.name) v.normal
        (some (String.ofList text)) := by
  rw [hending]
  simp only [Option.some.injEq, exists_eq_left', yields_assigned, name, literal, true_and,
    htrim.trim_eq, hdecode]
  constructor
  · rintro ⟨w, ⟨hsurvives, rfl⟩, rfl⟩
    exact ⟨hsurvives, rfl⟩
  · rintro ⟨hsurvives, rfl⟩
    exact ⟨_, ⟨hsurvives, rfl⟩, rfl⟩

/-- The text of a default that is an array is read, and is decoded exactly when the default survives. -/
theorem decodeArray_default {type : String} {items : List Value} {p : Primitive}
    (hp : literalType type = .ok p) (hfits : ∀ v ∈ items, Fits p v) :
    ∃ text, Ending.read? (' ' :: (Value.array items).encode) = some (.default text) ∧
      ∀ w, decodeArray type (trim text) = .ok w ↔
        (Value.array items).Survives ∧ w = (Value.array items).normal := by
  by_cases h : items.length ≤ 1 ∨ NoMark items
  · refine ⟨_, read?_encode_array hfits h, fun w => ?_⟩
    rw [trim_encode_array]
    constructor
    · intro hw
      have hfinite := isFinite_of_decodeArray_encode hp hfits hw
      rw [decodeArray_encode hp hfits hfinite] at hw
      exact ⟨⟨hfinite, h⟩, (Except.ok.inj hw).symm⟩
    · rintro ⟨hsurvives, rfl⟩
      exact decodeArray_encode hp hfits hsurvives.1
  · -- the comment mark cuts the array off inside a string
    have hseveral : 2 ≤ items.length := by
      have := not_or.1 h
      omega
    have hmark : ¬ NoMark items := (not_or.1 h).2
    have hstring : p.isString = true := by
      simp only [NoMark, not_forall] at hmark
      obtain ⟨s, hs, -⟩ := hmark
      exact (hfits _ hs).isString.2 ⟨s, rfl⟩
    obtain ⟨front, s, hread⟩ := read?_encode_cut hstring hfits hseveral hmark
    refine ⟨cutText front s, hread, fun w => ⟨fun hw => ?_, fun hw => absurd hw.1.2 h⟩⟩
    refine absurd ?_ (decodeArray_cutText_ne_ok hp hstring front s w)
    rw [decodeArray_eq_ok] at hw ⊢
    rwa [Text.trim_trim] at hw

/-- A variable with a default is read back exactly when the default survives. -/
theorem field_default (h : Declared d bound array f) (htype : Word isTypePart f.type.toList)
    {v : Value} (name : isNameIn Char.isLower d.name = true) (literal : takesLiteral d.fieldType = true)
    {raw : List Char} (decoded : (if array.isSome then decodeArray d.fieldType (trim raw)
      else decodeScalar d.fieldType (trim raw)) = .ok v)
    (hf : f = { d.plainField bound array with defaultValue := some v }) {g : Field} :
    field (trim f.line) = .ok g ↔ v.Survives ∧
      g = { d.plainField bound array with defaultValue := some v.normal } := by
  have hline : f.line = lineOf d.fieldType.toList bound array d.name (' ' :: v.encode) := by
    have hvariable := Field.line_variable d.fieldType (String.ofList d.name) bound array (some v)
    rw [String.toList_ofList] at hvariable
    rw [hf, plainField_eq, hvariable, Field.defaultText]
  rw [h.field_trim_line htype (.inl rfl) (.inl rfl) hline (by simp)]
  have hread {text : List Char} (htrim : Trimmed v.encode) (hne : v.encode ≠ [])
      (hending : Ending.read? (' ' :: v.encode) = some (.default text))
      (hdecode : ∀ w, (if array.isSome then decodeArray d.fieldType (trim text)
        else decodeScalar d.fieldType (trim text)) = .ok w ↔ v.Survives ∧ w = v.normal) :
      (∃ ending, Ending.read? (trimRight (' ' :: v.encode)) = some ending ∧
        Declaration.Yields { d with ending } bound array g) ↔ v.Survives ∧
          g = { d.plainField bound array with defaultValue := some v.normal } := by
    rw [trimRight_default htrim, if_neg hne]
    exact exists_yields_default name literal hending hdecode
  cases array with
  | none =>
    obtain ⟨p, hp, hfits⟩ := exists_fits_of_decodeScalar decoded
    refine hread (trimmed_encode hfits) (encode_ne_nil hfits)
      (read?_default (head_encode hfits) (isWhole_encode hfits)) fun w => ?_
    rw [(trimmed_encode hfits).trim_eq, survives_iff_of_fits hfits]
    exact decodeScalar_encode hp hfits
  | some m =>
    obtain ⟨p, items, hp, rfl, hfits⟩ := fits_of_decodeArray decoded
    obtain ⟨text, hending, hdecode⟩ := decodeArray_default hp hfits
    refine hread ?_ ?_ hending hdecode <;> rw [encode_array]
    · exact trimmed_brackets _
    · exact List.cons_ne_nil _ _

/-- A constant is read back exactly when its value survives. -/
theorem field_constant (h : Declared d bound array f) (htype : Word isTypePart f.type.toList)
    {v : Value} {raw : List Char} (ending : d.ending = .assigned raw)
    (name : isNameIn Char.isUpper d.name = true) (literal : takesLiteral d.fieldType = true)
    (decoded : decodeScalar d.fieldType (trim raw) = .ok v)
    (hf : f = { Field.constantOf d.fieldType (String.ofList d.name) v
      (some (String.ofList (trim raw))) with stringBound := bound }) {g : Field} :
    field (trim f.line) = .ok g ↔ v.Survives ∧
      g = Field.constantOf d.fieldType (String.ofList d.name) v.normal
        (some (String.ofList (Field.assignment v (trim raw)))) := by
  have hline : f.line = lineOf d.fieldType.toList none none d.name
      (" = ".toList ++ Field.assignment v (trim raw)) := by
    have hconstant := Field.line_constant d.fieldType (String.ofList d.name) v (trim raw) bound
    rw [String.toList_ofList] at hconstant
    rw [hf, hconstant]
  obtain ⟨p, hp, hdecode⟩ := decodeScalar_eq_ok.1 decoded
  have hfits := fits_of_decodeAs hdecode
  have hread (htrim : Trimmed (Field.assignment v (trim raw)))
      (hwhole : Field.assignment v (trim raw) = [] ∨ IsWhole endsLine (Field.assignment v (trim raw)))
      (hvalue : ∀ w, decodeScalar d.fieldType (Field.assignment v (trim raw)) = .ok w ↔
        v.Survives ∧ w = v.normal) := (h.field_trim_line htype (.inr rfl) (.inr rfl) hline
      (by rintro c ⟨⟩; rfl)).trans
        (exists_yields_assigned name literal htrim (read?_assigned htrim hwhole) hvalue (g := g))
  cases hstring : p.isString with
  | true =>
    -- the text of a string is kept as it was written
    obtain ⟨s, rfl⟩ := hfits.isString.1 hstring
    refine hread (Text.trimmed_trim raw) ?_ fun w => ?_
    · obtain ⟨cs, hcs⟩ := (h.text raw ending).2
      rw [decodeAs_of_isString hstring, Text.trim_trim] at hdecode
      obtain ⟨s', hs', -⟩ := Steps.map_eq_ok.1 hdecode
      exact isWhole_of_assigned? hcs hs'
    · rw [Field.assignment, decoded, Value.normal]
      exact ⟨fun hw => ⟨trivial, (Except.ok.inj hw).symm⟩, fun hw => congrArg _ hw.2.symm⟩
  | false =>
    have hnot : ∀ s, v ≠ .string s := by
      rintro s rfl
      simp [hfits.isString.2 ⟨s, rfl⟩] at hstring
    have hassign := Field.assignment_of_not_string hnot (trim raw)
    refine hread ?_ ?_ fun w => ?_ <;> rw [hassign]
    · exact trimmed_encode hfits
    · exact .inr (isWhole_encode hfits)
    · rw [survives_iff_of_fits hfits]
      exact decodeScalar_encode hp hfits

/-- A declared field of a type that lines can be written with is read back exactly when its values
survive, as its normal form. -/
theorem field_eq_ok_iff_survives (h : Declared d bound array f) (htype : Word isTypePart f.type.toList)
    {g : Field} : field (trim f.line) = .ok g ↔ f.Survives ∧ g = f.normal := by
  have hy := h.yields
  cases hy with
  | constant raw v ending name scalar literal decoded =>
    rw [h.field_constant htype ending name literal decoded rfl, Field.normal_of_isConstant rfl,
      Field.constantText_constantOf]
    simp [Field.Survives, Field.constantOf]
  | default raw v ending name literal decoded =>
    have hplain := Field.plain_eq d.fieldType (String.ofList d.name) bound array
    rw [h.field_default htype name literal decoded rfl,
      Field.normal_of_isVariable (f := { d.plainField bound array with defaultValue := some v })
        hplain.2.2.2.2.1]
    simp [Field.Survives, plainField_eq, hplain.2.2.2.2.2.1]
  | plain ending name =>
    have hplain := Field.plain_eq d.fieldType (String.ofList d.name) bound array
    have hnormal : (d.plainField bound array).normal = d.plainField bound array := by
      rw [plainField_eq, Field.normal_of_isVariable hplain.2.2.2.2.1, hplain.2.2.2.2.2.2.2, Option.map_none,
        Field.plain_eq_self]
    rw [h.field_plain htype ending rfl, hnormal]
    simp [Field.Survives, plainField_eq, hplain.2.2.2.2.2]

def readString (text : List Char) : Option String := (decodeString text).toOption

/-- A declared field is one that is read from lines. -/
theorem inLine (h : Declared d bound array f) (htype : TypeName f.type.toList) :
    f.InLine readString := by
  rw [← h.type] at htype
  have hname : Word isNamePart (String.ofList d.name).toList := by
    rw [String.toList_ofList]
    exact h.name
  have hy := h.yields
  cases hy with
  | constant raw v ending name scalar literal decoded =>
    obtain ⟨p, hp, hdecode⟩ := decodeScalar_eq_ok.1 decoded
    have hfits := fits_of_decodeAs hdecode
    refine .constant _ _ v (trim raw) bound p htype hname hp hfits
      (fun hm => (h.text raw ending).1 (Text.trim_subset raw hm)) ?_
    rintro s rfl
    rw [decodeAs_of_isString (hfits.isString.2 ⟨s, rfl⟩), Text.trim_trim] at hdecode
    obtain ⟨s', hs', heq⟩ := Steps.map_eq_ok.1 hdecode
    cases heq
    rw [readString, hs']
    rfl
  | default raw v ending name literal decoded =>
    refine .member _ _ bound array (some v) htype hname ?_
    rintro u ⟨⟩
    exact .of_decode decoded
  | plain ending name =>
    rw [plainField_eq, ← Field.plain_eq_self]
    exact .member _ _ bound array none htype hname (by simp)

end Declared

end Line.Ros2

end RosSchema

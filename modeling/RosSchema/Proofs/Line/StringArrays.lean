import RosSchema.Proofs.Line.ArrayEndings
import RosSchema.Proofs.Line.Separation
import RosSchema.Proofs.Literal.Elements
import RosSchema.Schema

/-!
# Defaults of string arrays as the decoder reads them

A line takes the elements of an array off the text after a name only where each comma stands right after
its element and before the next, and it takes any other array for bare text, which ends at a comment mark
outside of an escape, also inside of quotes. The decoder allows blanks around the commas.
`parseLines_stringArray` says for which of the arrays that the decoder accepts the two agree.
-/

namespace RosSchema.Line.Ros2

open RosSchema.Literal
open RosSchema.Text (trim trimLeft trimRight isBlank)
open Reader

/-! ## Elements as a line counts them off -/

/-- The text of an element: a quoted run, or bare text that no mark ends. -/
inductive Element : List Char → Prop where
  | quoted {q : Char} {body : List Char} (quote : isQuote q = true) (inside : Escaped (· == q) body) :
      Element (q :: (body ++ [q]))
  | bare {c : Char} {cs : List Char} (quote : isQuote c = false) (blank : isBlank c = false)
      (inside : Escaped endsElement (c :: cs)) : Element (c :: cs)

/-- Elements up to their closing bracket, with nothing around the commas. One comma may follow the last
element. -/
inductive Tight : List Char → Prop where
  | close : Tight [']']
  | last {element : List Char} (h : Element element) : Tight (element ++ [']'])
  | more {element rest : List Char} (h : Element element) (others : Tight rest) :
      Tight (element ++ ',' :: rest)

theorem isBlank_eq_false_of_isQuote {q : Char} (h : isQuote q = true) : isBlank q = false := by
  simp only [isQuote, Bool.or_eq_true, decide_eq_true_eq] at h
  rcases h with rfl | rfl <;> decide

theorem endsElement_eq_false_of_isQuote {q : Char} (h : isQuote q = true) : endsElement q = false := by
  simp only [isQuote, Bool.or_eq_true, decide_eq_true_eq] at h
  rcases h with rfl | rfl <;> decide

/-- An element starts with a character that is neither a blank nor a mark, or with an escape. -/
theorem Element.exists_cons {element : List Char} (h : Element element) :
    ∃ c cs, element = c :: cs ∧ isBlank c = false ∧ endsElement c = false := by
  cases h with
  | quoted quote inside =>
    exact ⟨_, _, rfl, isBlank_eq_false_of_isQuote quote, endsElement_eq_false_of_isQuote quote⟩
  | bare quote blank inside =>
    refine ⟨_, _, rfl, blank, ?_⟩
    cases inside with
    | pair _ _ => decide
    | char _ inside _ => exact inside

theorem Element.head {element : List Char} (h : Element element) (bs : List Char) {c : Char}
    (hc : c ∈ (element ++ bs).head?) : isBlank c = false ∧ endsElement c = false := by
  obtain ⟨d, ds, rfl, hd⟩ := h.exists_cons
  obtain rfl : d = c := by simpa using hc
  exact hd

/-- An element is counted off before a mark. -/
theorem Element.literalLength? {element bs : List Char} (h : Element element)
    (hbs : ∀ c ∈ bs.head?, c ≠ '\\' ∧ endsElement c = true) :
    literalLength? endsElement (element ++ bs) = some element.length := by
  cases h with
  | quoted quote inside =>
    rw [List.cons_append, List.append_assoc, List.singleton_append, literalLength?_quoted quote inside]
    simp
  | bare quote blank inside => exact literalLength?_of_escaped ⟨_, rfl, quote, blank⟩ inside hbs

/-- What is counted off is an element. -/
theorem exists_element_of_literalLength? {cs : List Char} {n : Nat}
    (h : literalLength? endsElement cs = some n) : Element (cs.take n) := by
  cases cs with
  | nil => cases h
  | cons c rest =>
    cases hquote : isQuote c with
    | true =>
      obtain ⟨body, htake, hbody⟩ := take_literalLength?_quoted hquote h
      exact htake ▸ .quoted hquote hbody
    | false =>
      obtain ⟨hblank, k, htake, hescaped⟩ := take_literalLength?_bare hquote h
      exact htake ▸ .bare hquote hblank hescaped

/-- An element with a comma right after it is counted off, and so is what follows the comma. -/
theorem Element.elementsLength?_comma {element : List Char} (h : Element element) (rest : List Char) :
    elementsLength? (element ++ ',' :: rest) =
      (elementsLength? rest).map (· + element.length + 1) :=
  elementsLength?_append (fun hhead => absurd (h.head _ hhead).2 (by decide))
    (h.literalLength? (by
      rintro c ⟨⟩
      decide))

/-- An element with the closing bracket right after it is the last. -/
theorem Element.elementsLength?_close {element : List Char} (h : Element element) (rest : List Char) :
    elementsLength? (element ++ ']' :: rest) = some (element.length + 1) :=
  elementsLength?_append (fun hhead => absurd (h.head _ hhead).2 (by decide))
    (h.literalLength? (by
      rintro c ⟨⟩
      decide))

/-- A text whose rest starts with a character is longer than what is taken off. -/
theorem exists_take_of_drop {cs rest : List Char} {n : Nat} {c : Char} (h : cs.drop n = c :: rest) :
    cs = cs.take n ++ c :: rest ∧ (cs.take n).length = n := by
  have hlt : n < cs.length := by
    by_contra hle
    rw [List.drop_eq_nil_of_le (by omega)] at h
    cases h
  exact ⟨by rw [← h, List.take_append_drop], List.length_take_of_le hlt.le⟩

/-- Tight elements are counted off, up to their closing bracket. -/
theorem Tight.elementsLength? {front : List Char} (h : Tight front) (rest : List Char) :
    elementsLength? (front ++ rest) = some front.length := by
  induction h with
  | close =>
    rw [Ros2.elementsLength?, if_pos (by rfl)]
    rfl
  | last helement =>
    rw [List.append_assoc]
    exact (helement.elementsLength?_close rest).trans (by simp)
  | more helement _ ih =>
    rw [List.append_assoc, List.cons_append, helement.elementsLength?_comma, ih, Option.map_some,
      List.length_append, List.length_cons]
    exact congrArg some (by omega)

/-- What is counted off are tight elements. -/
theorem exists_tight_of_elementsLength? {cs : List Char} {n : Nat} (h : elementsLength? cs = some n) :
    ∃ front rest, cs = front ++ rest ∧ Tight front ∧ n = front.length := by
  induction cs using elementsLength?.induct generalizing n with
  | case1 cs hhead =>
    rw [elementsLength?, if_pos hhead] at h
    obtain ⟨tail, rfl⟩ := List.head?_eq_some_iff.1 hhead
    exact ⟨[']'], tail, rfl, .close, (Option.some.inj h).symm⟩
  | case2 cs hhead hnone =>
    rw [elementsLength?_of_none hhead hnone] at h
    cases h
  | case3 cs hhead k hk rest hrest ih =>
    have helement := exists_element_of_literalLength? hk
    obtain ⟨hcs, hlength⟩ := exists_take_of_drop hrest
    rw [hcs, helement.elementsLength?_comma, hlength] at h
    obtain ⟨m, hm, rfl⟩ := Option.map_eq_some_iff.1 h
    obtain ⟨front, back, rfl, htight, rfl⟩ := ih hm
    refine ⟨cs.take k ++ ',' :: front, back, by simpa using hcs, .more helement htight, ?_⟩
    rw [List.length_append, List.length_cons, hlength]
    omega
  | case4 cs hhead k hk tail hrest =>
    have helement := exists_element_of_literalLength? hk
    obtain ⟨hcs, hlength⟩ := exists_take_of_drop hrest
    rw [hcs, helement.elementsLength?_close, hlength] at h
    refine ⟨cs.take k ++ [']'], tail, by simpa using hcs, .last helement, ?_⟩
    rw [List.length_append, hlength, ← Option.some.inj h, List.length_singleton]
  | case5 cs hhead k hk hcomma hclose =>
    rw [elementsLength?, if_neg hhead] at h
    split at h
    · cases h
    · next k' hk' =>
      obtain rfl := Option.some.inj (hk.symm.trans hk')
      split at h
      · next rest hrest => exact absurd hrest (hcomma rest)
      · next tail hrest => exact absurd hrest (hclose tail)
      · cases h

/-- The elements of an array are counted off exactly where they are tight. -/
theorem elementsLength?_eq_some {cs : List Char} {n : Nat} : elementsLength? cs = some n ↔
    ∃ front rest, cs = front ++ rest ∧ Tight front ∧ n = front.length := by
  refine ⟨exists_tight_of_elementsLength?, ?_⟩
  rintro ⟨front, rest, rfl, htight, rfl⟩
  exact htight.elementsLength? rest

/-! ## The decoder on such elements -/

/-- Bare text of the decoder ends at the marks that end it in a line. -/
theorem bareLength_mark {c : Char} (plain : c ≠ '\\') (cs : List Char) :
    bareLength (c :: cs) = if endsElement c then 0 else bareLength cs + 1 := by
  have hmarks : (c = ',' || c = ']' || c = '#') = endsElement c := by
    rw [endsElement, Bool.or_comm (decide (c = ','))]
    rfl
  rw [bareLength_char plain, hmarks]

/-- Bare text of the decoder goes on to the end of an escaped text. -/
theorem bareLength_append {as : List Char} (h : Escaped endsElement as) (bs : List Char) :
    bareLength (as ++ bs) = as.length + bareLength bs := by
  induction h with
  | nil => simp
  | pair c _ ih =>
    rw [List.cons_append, List.cons_append, bareLength, ih, List.length_cons, List.length_cons]
    omega
  | char plain inside _ ih =>
    rw [List.cons_append, bareLength_mark plain, inside, ih, List.length_cons]
    simp only [Bool.false_eq_true, ↓reduceIte]
    omega

/-- An element before a comma or the closing bracket is one for the decoder. -/
theorem Element.elementLength (type : String) {element bs : List Char} (h : Element element)
    (hbs : ∀ c ∈ bs.head?, c ≠ '\\' ∧ endsElement c = true) :
    elementLength type (element ++ bs) = .ok element.length := by
  cases h with
  | quoted quote inside => exact elementLength_quoted type quote inside bs
  | bare quote blank inside =>
    have hzero : bareLength bs = 0 := by
      cases bs with
      | nil => rfl
      | cons c bs =>
        obtain ⟨plain, hends⟩ := hbs c rfl
        rw [bareLength_mark plain, if_pos hends]
    have hlength := bareLength_append inside bs
    rw [hzero, Nat.add_zero] at hlength
    rw [List.cons_append] at hlength ⊢
    rw [Literal.elementLength, quote, hlength]
    rfl

/-- An element before a comma or the closing bracket is a first element. -/
theorem Element.first (type : String) {element : List Char} (h : Element element) (bs : List Char)
    (hbs : ∀ c ∈ bs.head?, c ≠ '\\' ∧ endsElement c = true) :
    FirstElement type (element ++ bs) element.length ∧ trimLeft (element ++ bs) = element ++ bs := by
  refine ⟨⟨?_, fun c hc => ?_, h.elementLength type hbs⟩, Text.trimLeft_of_head fun c hc => (h.head bs hc).1⟩
  · obtain ⟨c, cs, rfl, -⟩ := h.exists_cons
    simp
  · rintro rfl
    exact absurd (h.head bs hc).2 (by decide)

/-- The elements that a line counts off are not what the decoder accepts together with text after their
closing bracket. -/
theorem decodeElements_tight_append (type : String) {front : List Char} (h : Tight front)
    (more : List Char) (values : List Value) : decodeElements type (front ++ more) ≠ .ok values := by
  induction h generalizing values with
  | close => exact decodeElements_bracket type (trimLeft_bracket more) values
  | @last element helement =>
    rw [List.append_assoc]
    obtain ⟨hfirst, htrim⟩ := helement.first type (']' :: more) (by
      rintro c ⟨⟩
      decide)
    exact hfirst.not_bracket htrim (by rw [List.drop_left, trimLeft_bracket]) values
  | @more element rest helement _ ih =>
    intro hdecode
    rw [List.append_assoc, List.cons_append] at hdecode
    obtain ⟨hfirst, htrim⟩ := helement.first type (',' :: (rest ++ more)) (by
      rintro c ⟨⟩
      decide)
    have hcomma : trimLeft (',' :: (rest ++ more)) = ',' :: (rest ++ more) :=
      Text.trimLeft_of_head (by
        rintro c ⟨⟩
        decide)
    have hafter := hfirst.after_of_decodeElements htrim hdecode
    rw [List.drop_left, hcomma] at hafter
    rcases hafter with hnil | ⟨rest', others, heq, hothers⟩
    · cases hnil
    · obtain rfl := (List.cons.inj heq).2
      exact ih others hothers

/-! ## The text that is read as the default -/

def arrayText? (text : List Char) : Option (List Char) :=
  finished? text ((elementsLength? text.tail).map (· + 1)) <|> finished? text (literalLength? endsLine text)

theorem read?_open (elements : List Char) :
    Ending.read? (' ' :: '[' :: elements) = (arrayText? ('[' :: elements)).map .default := by
  have hnot : isFinished (' ' :: '[' :: elements) = false := rfl
  rw [read?_array, hnot, arrayText?, List.tail_cons]
  cases finished? ('[' :: elements) ((elementsLength? elements).map (· + 1)) <|>
      finished? ('[' :: elements) (literalLength? endsLine ('[' :: elements)) <;> rfl

/-- The elements of a decoded array are counted off to their end or not at all. -/
theorem elementsLength?_decoded {type : String} {inner : List Char} {values : List Value}
    (h : decodeElements type inner = .ok values) {n : Nat} : elementsLength? (inner ++ [']']) = some n ↔
      Tight (inner ++ [']']) ∧ n = (inner ++ [']']).length := by
  rw [elementsLength?_eq_some]
  constructor
  · rintro ⟨front, rest, heq, htight, rfl⟩
    rcases List.eq_nil_or_concat' rest with rfl | ⟨others, c, rfl⟩
    · rw [List.append_nil] at heq
      rw [heq]
      exact ⟨htight, rfl⟩
    · rw [← List.append_assoc] at heq
      obtain ⟨rfl, -⟩ := List.append_inj' heq rfl
      exact absurd h (decodeElements_tight_append type htight others values)
  · rintro ⟨htight, rfl⟩
    exact ⟨_, [], (List.append_nil _).symm, htight, rfl⟩

/-- An array without a comment mark is escaped. -/
theorem escaped_endsLine_of_not_mem {cs : List Char} (h : '#' ∉ cs) : Escaped endsLine (cs ++ [']']) := by
  induction cs using escapes_induction with
  | nil => exact .char (by decide) (by decide) .nil
  | dangling => exact .pair ']' .nil
  | pair c cs ih =>
    exact .pair c (ih fun hm => h (List.mem_cons_of_mem _ (List.mem_cons_of_mem _ hm)))
  | char c cs plain ih =>
    have hmark : endsLine c = false := beq_eq_false_iff_ne.2 fun hc => h (hc ▸ List.mem_cons_self)
    exact .char plain hmark (ih fun hm => h (List.mem_cons_of_mem _ hm))

theorem insideBrackets?_eq_some {cs inner : List Char} (h : insideBrackets? cs = some inner) :
    cs = '[' :: (inner ++ [']']) := by
  unfold insideBrackets? at h
  split at h
  · next rest =>
    split at h
    · next hlast =>
      obtain ⟨body, rfl⟩ := List.getLast?_eq_some_iff.1 hlast
      rw [List.dropLast_concat] at h
      rw [Option.some.inj h]
    · cases h
  · cases h

section Decoded

variable {inner : List Char} {values : List Value} (decoded : decodeElements "string" inner = .ok values)
include decoded

theorem decodeArray_decoded : decodeArray "string" ('[' :: (inner ++ [']'])) = .ok (.array values) := by
  have htrim : trim ('[' :: (inner ++ [']'])) = '[' :: (inner ++ [']']) := (trimmed_brackets inner).trim_eq
  exact decodeArray_eq_ok.2 ⟨inner, by rw [htrim]; exact insideBrackets?_brackets inner, .string, rfl,
    values, decoded, rfl⟩

/-- Without tight elements an array is bare text. -/
theorem arrayText?_bare (h : ¬ Tight (inner ++ [']'])) : arrayText? ('[' :: (inner ++ [']'])) =
    finished? ('[' :: (inner ++ [']'])) (some (lengthBefore endsLine ('[' :: (inner ++ [']'])))) := by
  have hnone : elementsLength? (inner ++ [']']) = none := by
    rw [Option.eq_none_iff_forall_ne_some]
    intro n hn
    exact h ((elementsLength?_decoded decoded).1 hn).1
  have hlength : literalLength? endsLine ('[' :: (inner ++ [']'])) =
      some (lengthBefore endsLine ('[' :: (inner ++ [']']))) := by
    have hends : endsLine '[' = false := by decide
    rw [literalLength?_bare (by decide) (by decide), lengthBefore_char (by decide), hends]
    rfl
  rw [arrayText?, List.tail_cons, hnone, hlength]
  rfl

/-- A decoded array is read whole when it has no comment mark or its elements are tight. -/
theorem arrayText?_whole (h : '#' ∉ inner ∨ Tight (inner ++ [']'])) :
    arrayText? ('[' :: (inner ++ [']'])) = some ('[' :: (inner ++ [']'])) := by
  by_cases htight : Tight (inner ++ [']'])
  · have hlength := (elementsLength?_decoded decoded).2 ⟨htight, rfl⟩
    have hwhole : finished? ('[' :: (inner ++ [']'])) (some ((inner ++ [']']).length + 1)) =
        some ('[' :: (inner ++ [']'])) := finished?_length _
    rw [arrayText?, List.tail_cons, hlength, Option.map_some, hwhole]
    rfl
  · have hescaped : Escaped endsLine ('[' :: (inner ++ [']'])) :=
      .char (by decide) (by decide) (escaped_endsLine_of_not_mem (h.resolve_right htight))
    have hlength : lengthBefore endsLine ('[' :: (inner ++ [']']) ++ []) = ('[' :: (inner ++ [']'])).length :=
      lengthBefore_eq_length hescaped (by simp)
    rw [List.append_nil] at hlength
    rw [arrayText?_bare decoded htight, hlength, finished?_length]

/-- Otherwise what is read of it is not decoded as an array. -/
theorem decodeArray_arrayText?_ne_ok (hmark : '#' ∈ inner) (htight : ¬ Tight (inner ++ [']']))
    {raw : List Char} (hraw : arrayText? ('[' :: (inner ++ [']'])) = some raw) (v : Value) :
    decodeArray "string" (trim raw) ≠ .ok v := by
  intro hdecode
  obtain ⟨inner', hinside, p, hp, items, hitems, -⟩ := decodeArray_eq_ok.1 hdecode
  cases hp
  rw [arrayText?_bare decoded htight, lengthBefore_char (by decide)] at hraw
  obtain ⟨n, hn, rfl⟩ := finished?_eq_some hraw
  obtain rfl := Option.some.inj hn
  have hends : endsLine '[' = false := by decide
  simp only [hends, Bool.false_eq_true, ↓reduceIte, List.take_succ_cons] at hinside
  -- what is read stops before the end, for the comment mark is not escaped
  have hdrop : (inner ++ [']']).drop (lengthBefore endsLine (inner ++ [']'])) ≠ [] := by
    intro hnil
    have hescaped := escaped_take_lengthBefore endsLine (inner ++ [']'])
    rw [List.take_of_length_le (List.drop_eq_nil_iff.1 hnil)] at hescaped
    exact (plainMarks_of_decodeElements decoded).not_mem (by rfl) hescaped hmark
  obtain ⟨others, c, hothers⟩ := (List.eq_nil_or_concat' _).resolve_left hdrop
  have hsplit : inner ++ [']'] = (inner ++ [']']).take (lengthBefore endsLine (inner ++ [']'])) ++
      (others ++ [c]) := by
    rw [← hothers, List.take_append_drop]
  generalize (inner ++ [']']).take (lengthBefore endsLine (inner ++ [']'])) = front at hinside hsplit
  -- and yet it ends with a bracket, up to blanks
  obtain ⟨blanks, hblanks, -⟩ := Text.exists_trimRight_append ('[' :: front)
  have htrim : trim ('[' :: front) = trimRight ('[' :: front) :=
    congrArg trimRight (Text.trimLeft_of_head (by
      rintro d ⟨⟩
      decide))
  rw [Text.trim_trim, htrim] at hinside
  rw [insideBrackets?_eq_some hinside, List.cons_append, List.append_assoc] at hblanks
  obtain rfl := (List.cons.inj hblanks).2
  have hinner : inner ++ [']'] = inner' ++ ']' :: (blanks ++ others) ++ [c] := by
    rw [hsplit]
    simp
  obtain ⟨hinner, -⟩ := List.append_inj' hinner rfl
  rw [hinner] at decoded
  exact decodeElements_bracket_append hitems (blanks ++ others) values decoded

end Decoded

/-! ## The lines of string arrays -/

def stringArrayFront : List Char := "string[] names ".toList

def stringArrayLine (text : List Char) : List Char := stringArrayFront ++ text

theorem stringArrayLine_eq (text : List Char) :
    stringArrayLine text = 's' :: ("tring[] names ".toList ++ text) := rfl

def stringArrayField (v : Value) : Field :=
  { (Field.variableOf "string" "names").asArray none none with defaultValue := some v }

theorem declaration_stringArrayLine (elements : List Char) :
    whole? declaration (stringArrayLine ('[' :: elements)) = (arrayText? ('[' :: elements)).map fun raw =>
      ⟨"string".toList, none, some .any, "names".toList, .default raw⟩ := by
  have htype : Word isTypePart "string".toList := word_of_all (by decide) (by decide)
  have hgap : Word isBlank [' '] := word_of_all (by decide) (by decide)
  have hname : Word isNamePart "names".toList := word_of_all (by decide) (by decide)
  have hstops : ∀ c ∈ (' ' :: '[' :: elements).head?, isNamePart c = false := by
    rintro c ⟨⟩
    decide
  have hbound : ∀ digits ∈ (none : Option (List Char)), Word Char.isDigit digits := by simp
  have hmark : MarkDigits (some .any) := trivial
  have hline := declaration_append htype hbound hmark hgap hname hstops
  rw [read?_open, Option.map_map] at hline
  exact hline

theorem field_stringArrayLine {elements : List Char} {f : Field} :
    field (stringArrayLine ('[' :: elements)) = .ok f ↔ ∃ raw v,
      arrayText? ('[' :: elements) = some raw ∧ decodeArray "string" (trim raw) = .ok v ∧
      f = stringArrayField v := by
  rw [field_eq_ok, declaration_stringArrayLine]
  constructor
  · rintro ⟨d, hd, hf⟩
    obtain ⟨raw, hraw, rfl⟩ := Option.map_eq_some_iff.1 hd
    obtain ⟨bound, hbound, array, harray, -, hyields⟩ := Declaration.field_eq_ok.1 hf
    cases hbound
    cases harray
    cases hyields with
    | constant raw' value ending => cases ending
    | default raw' value ending name type decoded =>
      cases ending
      exact ⟨raw, value, hraw, decoded, rfl⟩
    | plain ending => cases ending
  · rintro ⟨raw, v, hraw, hv, rfl⟩
    have hname : isNameIn Char.isLower "names".toList = true := by decide
    have hliteral : takesLiteral "string" = true := by decide
    exact ⟨_, Option.map_eq_some_iff.2 ⟨raw, hraw, rfl⟩, Declaration.field_eq_ok.2
      ⟨none, rfl, some .any, rfl, rfl, .default raw v rfl hname hliteral hv⟩⟩

/-- A line with a string array is read, and with the value of the decoder, if the array has no comment mark
or its elements are tight. -/
theorem field_stringArrayLine_decoded {inner : List Char} {values : List Value}
    (decoded : decodeElements "string" inner = .ok values) {f : Field} :
    field (stringArrayLine ('[' :: (inner ++ [']']))) = .ok f ↔
      ('#' ∉ inner ∨ Tight (inner ++ [']'])) ∧ f = stringArrayField (.array values) := by
  rw [field_stringArrayLine]
  by_cases h : '#' ∉ inner ∨ Tight (inner ++ [']'])
  · rw [arrayText?_whole decoded h]
    have htrim : trim ('[' :: (inner ++ [']'])) = '[' :: (inner ++ [']']) :=
      (trimmed_brackets inner).trim_eq
    simp only [Option.some.injEq, exists_and_left, exists_eq_left', htrim, decodeArray_decoded decoded,
      Except.ok.injEq, h, true_and]
  · obtain ⟨hmark, htight⟩ := not_or.1 h
    refine ⟨?_, fun hf => absurd hf.1 h⟩
    rintro ⟨raw, v, hraw, hv, -⟩
    exact absurd hv (decodeArray_arrayText?_ne_ok decoded (not_not.1 hmark) htight hraw v)

theorem definitions_stringArrayLine {text : List Char} (hne : text ≠ []) (hline : '\n' ∉ text)
    (hlast : ∀ c ∈ text.getLast?, isBlank c = false) :
    ros2.definitions (String.ofList (stringArrayLine text)) =
      (field (stringArrayLine text)).map fun f => [⟨none, [f]⟩] := by
  have hnewline : '\n' ∉ stringArrayLine text := by
    have hfront : '\n' ∉ stringArrayFront := by decide
    rw [stringArrayLine, List.mem_append]
    exact not_or.2 ⟨hfront, hline⟩
  have hback : ∀ c ∈ (stringArrayLine text).getLast?, isBlank c = false := by
    rw [stringArrayLine, List.getLast?_append_of_ne_nil _ hne]
    exact hlast
  have hheader : header? (stringArrayLine text) = none := header?_eq_none (by
    rintro ⟨rest, hrest⟩
    cases (List.cons.inj hrest).1)
  rw [stringArrayLine_eq] at hnewline hback hheader ⊢
  exact ros2.definitions_of_line (by decide) hnewline hback hheader

/-- The default of a string array is decoded from the line as from the text alone, for all that the
decoder accepts, if and only if there is no comment mark in it or its elements are tight. -/
theorem parseLines_stringArray {text : List Char} (hopen : text.head? = some '[')
    (hclose : text.getLast? = some ']') (hline : '\n' ∉ text) {v : Value}
    (hdecode : decodeArray "string" text = .ok v) (definitions : List Definition) :
    parseLines (String.ofList (stringArrayLine text)) .ros2 = .ok definitions ↔
      ('#' ∉ text ∨ Tight text.tail) ∧ definitions = [⟨none, [stringArrayField v]⟩] := by
  have htrimmed : Text.Trimmed text := by
    constructor
    · rw [hopen]
      rintro c ⟨⟩
      decide
    · rw [hclose]
      rintro c ⟨⟩
      decide
  obtain ⟨inner, hinside, p, hp, values, decoded, rfl⟩ := decodeArray_eq_ok.1 hdecode
  cases hp
  rw [htrimmed.trim_eq] at hinside
  obtain rfl := insideBrackets?_eq_some hinside
  have hmark : '#' ∉ '[' :: (inner ++ [']']) ↔ '#' ∉ inner := by simp
  have hdefinitions := definitions_stringArrayLine (List.cons_ne_nil _ _) hline htrimmed.last
  rw [parseLines, hdefinitions, Steps.map_eq_ok, List.tail_cons, hmark]
  simp only [field_stringArrayLine_decoded decoded]
  constructor
  · rintro ⟨f, ⟨h, rfl⟩, rfl⟩
    exact ⟨h, rfl⟩
  · rintro ⟨h, rfl⟩
    exact ⟨_, ⟨h, rfl⟩, rfl⟩

theorem parseLines_stringArray_of_tightMark :
    decodeArray "string" "[\"a#b\",\"c\"]".toList = .ok (.array [.string "a#b", .string "c"]) ∧
      parseLines (String.ofList (stringArrayLine "[\"a#b\",\"c\"]".toList)) .ros2 =
        .ok [⟨none, [stringArrayField (.array [.string "a#b", .string "c"])]⟩] := by
  have hdecode : decodeArray "string" "[\"a#b\",\"c\"]".toList =
      .ok (.array [.string "a#b", .string "c"]) := by decide +kernel
  have hfirst : Element ['"', 'a', '#', 'b', '"'] :=
    @Element.quoted '"' ['a', '#', 'b'] (by decide) (.of_all (by simp))
  have hsecond : Element ['"', 'c', '"'] := @Element.quoted '"' ['c'] (by decide) (.of_all (by simp))
  have htight : Tight "\"a#b\",\"c\"]".toList := .more hfirst (.last hsecond)
  exact ⟨hdecode, (parseLines_stringArray (by decide) (by decide) (by decide) hdecode _).2
    ⟨.inr htight, rfl⟩⟩

/-- With a blank after the comma the array is bare text, and the comment mark in its quotes ends it. -/
theorem not_parseLines_stringArray_of_spacedMark :
    decodeArray "string" "[\"a#b\", \"c\"]".toList = .ok (.array [.string "a#b", .string "c"]) ∧
      ∀ definitions,
        parseLines (String.ofList (stringArrayLine "[\"a#b\", \"c\"]".toList)) .ros2 ≠ .ok definitions := by
  refine ⟨by decide +kernel, fun definitions h => ?_⟩
  have hnone : (parseLines (String.ofList (stringArrayLine "[\"a#b\", \"c\"]".toList)) .ros2).toOption =
      none := by decide +kernel
  rw [h] at hnone
  cases hnone

end RosSchema.Line.Ros2

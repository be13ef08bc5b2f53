import RosSchema.Proofs.Line.StringArrays

/-!
# Arrays of strings element by element

Between the brackets of an array of strings stand its elements, with a comma between every two and blanks
around each; one more comma may follow the last. The decoder finds the end of an element by other rules
than those it decodes the element by, and yet no element is lost, split or joined to another:
`decodeArray_list` says that the array has the strings of its elements, in order.
-/

namespace RosSchema.Literal

open RosSchema.Line.Ros2 (Element endsElement)
open RosSchema.Text (isBlank trim trimLeft trimRight)

/-- The text of an element, which ends with no blank, with blanks around it. -/
inductive Spaced (element : List Char) : List Char → Prop where
  | around {before after : List Char} (blank_before : ∀ c ∈ before, isBlank c = true)
      (whole : Element element) (last : ∀ c ∈ element.getLast?, isBlank c = false)
      (blank_after : ∀ c ∈ after, isBlank c = true) : Spaced element (before ++ (element ++ after))

/-- The text of a list of elements. No other element follows a comma at the end. -/
inductive ListText : List (List Char) → List Char → Prop where
  | none {blanks : List Char} (blank : ∀ c ∈ blanks, isBlank c = true) : ListText [] blanks
  | last {element text : List Char} (h : Spaced element text) : ListText [element] text
  | more {element text rest : List Char} {elements : List (List Char)} (h : Spaced element text)
      (others : ListText elements rest) : ListText (element :: elements) (text ++ ',' :: rest)

/-! ## The decoder on one element -/

/-- Blanks end no element. -/
theorem escaped_of_blanks {blanks : List Char} (h : ∀ c ∈ blanks, isBlank c = true) :
    Escaped endsElement blanks := by
  refine .of_all fun c hc => ?_
  have hmark : c ≠ '\\' ∧ c ≠ ']' ∧ c ≠ ',' ∧ c ≠ '#' := by
    refine ⟨?_, ?_, ?_, ?_⟩ <;>
      · rintro rfl
        exact absurd (h _ hc) (by decide)
  simp [endsElement, hmark]

section Spaced

variable {element text : List Char} (h : Spaced element text) (type : String)
include h

/-- At the end of a text or before a comma, what the decoder takes for the first element is the element and
blanks after it at most. -/
theorem Spaced.first (rest : List Char) (hrest : ∀ c ∈ rest.head?, c = ',') :
    ∃ n, FirstElement type (trimLeft (text ++ rest)) n ∧
      trimRight ((trimLeft (text ++ rest)).take n) = element ∧
      trimLeft ((trimLeft (text ++ rest)).drop n) = rest := by
  obtain @⟨before, after, hbefore, whole, last, hafter⟩ := h
  have hhead : ∀ c ∈ rest.head?, isBlank c = false ∧ c ≠ '\\' ∧ endsElement c = true := by
    intro c hc
    obtain rfl := hrest c hc
    decide
  have htext : trimLeft (before ++ (element ++ after) ++ rest) = element ++ after ++ rest := by
    rw [List.append_assoc, List.append_assoc, Text.trimLeft_append hbefore, ← List.append_assoc]
    refine Text.trimLeft_of_head fun c hc => ?_
    rw [List.append_assoc] at hc
    exact (whole.head _ hc).1
  have hstop : trimLeft rest = rest := Text.trimLeft_of_head fun c hc => (hhead c hc).1
  rw [htext]
  cases whole with
  | @quoted q body quote inside =>
    have hcomma : q ≠ ',' := by
      rintro rfl
      exact absurd quote (by decide)
    rw [List.append_assoc]
    refine ⟨_, ⟨by simp, ?_, elementLength_quoted type quote inside _⟩, ?_, ?_⟩
    · rintro c ⟨⟩
      exact hcomma
    · rw [List.take_left, Text.trimRight_of_last last]
    · rw [List.drop_left, Text.trimLeft_append hafter, hstop]
  | @bare c cs quote blank inside =>
    -- bare text goes on to the comma, over the blanks
    have hbare : Element (c :: cs ++ after) := .bare quote blank (inside.append (escaped_of_blanks hafter))
    refine ⟨_, (hbare.first type rest fun d hd => (hhead d hd).2).1, ?_, ?_⟩
    · rw [List.take_left, Text.trimRight_append hafter, Text.trimRight_of_last last]
    · rw [List.drop_left, hstop]

theorem Spaced.decodeElements_last :
    decodeElements type text = (decodeString element).map fun s => [.string s] := by
  obtain ⟨n, hn, htake, hdrop⟩ := h.first type [] (by simp)
  rw [List.append_nil] at hn htake hdrop
  rw [decodeElements_eq rfl hn.ne_nil hn.head, hn.length]
  change (decodeString _ >>= _) = _
  rw [htake, hdrop]
  rfl

theorem Spaced.decodeElements_more (rest : List Char) : decodeElements type (text ++ ',' :: rest) =
    decodeString element >>= fun s => (decodeElements type rest).map (.string s :: ·) := by
  obtain ⟨n, hn, htake, hdrop⟩ := h.first type (',' :: rest) (by simp)
  rw [decodeElements_eq rfl hn.ne_nil hn.head, hn.length]
  change (decodeString _ >>= _) = _
  rw [htake, hdrop]
  rfl

end Spaced

/-- A list of elements is decoded as its elements are, one after the other. -/
theorem decodeElements_list (type : String) {elements : List (List Char)} {text : List Char}
    (h : ListText elements text) :
    decodeElements type text = (elements.mapM decodeString).map (·.map .string) := by
  induction h with
  | none blank => exact decodeElements_of_nil (List.dropWhile_eq_nil_iff.2 blank)
  | last h =>
    rw [h.decodeElements_last, List.mapM_cons, List.mapM_nil]
    cases decodeString _ <;> rfl
  | @more element _ _ elements h _ ih =>
    rw [h.decodeElements_more, ih, List.mapM_cons]
    cases decodeString element with
    | error e => rfl
    | ok s => cases elements.mapM decodeString <;> rfl

/-- An array of strings is decoded to the strings of its elements, in order, or fails with the error of the
first element that is no string. -/
theorem decodeArray_list {elements : List (List Char)} {text : List Char} (h : ListText elements text) :
    decodeArray "string" ('[' :: text ++ [']']) =
      (elements.mapM decodeString).map fun strings => .array (strings.map .string) := by
  have htype : literalType "string" = .ok .string := rfl
  rw [decodeArray, (trimmed_brackets text).trim_eq, insideBrackets?_brackets]
  simp only [htype, decodeElements_list _ h]
  cases elements.mapM decodeString <;> rfl

/-- Marks in quotes end no element, blanks in bare text belong to it, and a comma may follow the last
element. The first element that is no string is the one that is reported. -/
theorem decodeArray_list_of_awkwardElements :
    (ListText [['\'', 'a', ',', ']', '\\', '\'', '\''], ['b', ' ', 'c']] " 'a,]\\'' ,b c, ".toList ∧
      decodeArray "string" "[ 'a,]\\'' ,b c, ]".toList = .ok (.array [.string "a,]'", .string "b c"])) ∧
    ListText [['b', ' ', 'c'], ['\\', ','], ['\\', '#']] "b c,\\,,\\#".toList ∧
      decodeArray "string" "[b c,\\,,\\#]".toList =
        .error (.badLiteral "string" (.unknownEscape ',' "\\,")) := by
  have hspace : ∀ c ∈ [' '], isBlank c = true := List.all_eq_true.1 (by decide)
  have hnone : ∀ c ∈ ([] : List Char), isBlank c = true := by simp
  have hbare {element : List Char} {c : Char} (h : Element (element ++ [c])) (last : isBlank c = false) :
      Spaced (element ++ [c]) (element ++ [c]) := by
    simpa using Spaced.around hnone h (by simpa using last) hnone
  have hquoted : Spaced ['\'', 'a', ',', ']', '\\', '\'', '\''] " 'a,]\\'' ".toList :=
    @Spaced.around _ [' '] [' '] hspace (@Element.quoted '\'' ['a', ',', ']', '\\', '\''] (by decide)
      (.char (by decide) (by decide) <| .char (by decide) (by decide) <| .char (by decide) (by decide) <|
        .pair '\'' .nil)) (by
          rintro c ⟨⟩
          decide) hspace
  have hwords : Spaced ['b', ' ', 'c'] ['b', ' ', 'c'] :=
    @hbare ['b', ' '] 'c' (.bare (by decide) (by decide) (.char (by decide) (by decide) <|
      .char (by decide) (by decide) <| .char (by decide) (by decide) .nil)) (by decide)
  have hpair (c : Char) (h : isBlank c = false) : Spaced ['\\', c] ['\\', c] :=
    @hbare ['\\'] c (.bare (by decide) (by decide) (.pair c .nil)) h
  have hlist : ListText [['\'', 'a', ',', ']', '\\', '\'', '\''], ['b', ' ', 'c']] " 'a,]\\'' ,b c, ".toList :=
    .more hquoted (.more hwords (.none hspace))
  have hescapes : ListText [['b', ' ', 'c'], ['\\', ','], ['\\', '#']] "b c,\\,,\\#".toList :=
    .more hwords (.more (hpair ',' (by decide)) (.last (hpair '#' (by decide))))
  refine ⟨⟨hlist, (decodeArray_list hlist).trans ?_⟩, hescapes, (decodeArray_list hescapes).trans ?_⟩
  · decide +kernel
  · decide +kernel

end RosSchema.Literal

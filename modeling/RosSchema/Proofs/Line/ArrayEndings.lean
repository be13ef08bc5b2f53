import RosSchema.Proofs.Line.Endings

/-!
# Array defaults after a name

The canonical text of an array is read back whole when it has at most one item, or no comment mark in
its strings. With more items it is read as bare text, which a comment mark in a string cuts off.
-/

namespace RosSchema.Line.Ros2

open RosSchema.Literal
open RosSchema.Text (trimLeft isBlank escape quote)

/-! ## Escaped arrays -/

theorem endsLine_of_isAlphanum {c : Char} (h : c.isAlphanum = true) : endsLine c = false := by
  refine beq_eq_false_iff_ne.2 ?_
  rintro rfl
  exact absurd h (by decide)

theorem escaped_endsLine_escape {s : List Char} (h : '#' ∉ s) : Escaped endsLine (s.flatMap escape) := by
  refine escaped_escape (fun c => endsLine_of_isAlphanum) fun c hc _ => beq_eq_false_iff_ne.2 ?_
  rintro rfl
  exact h hc

theorem escaped_endsLine_quote {s : List Char} (h : '#' ∉ s) : Escaped endsLine (quote s) := by
  have hquote : Escaped endsLine ['"'] := .char (by decide) (by decide) .nil
  have hbody : Escaped endsLine (s.flatMap escape ++ ['"']) := (escaped_endsLine_escape h).append hquote
  exact hquote.append hbody

/-- The canonical text of a scalar is escaped, unless it is a string with a comment mark. -/
theorem escaped_encode {p : Primitive} {v : Value} (h : Fits p v)
    (hmark : ∀ s, v = .string s → '#' ∉ s.toList) : Escaped endsLine v.encode := by
  cases hp : p.isString with
  | true =>
    obtain ⟨s, rfl⟩ := h.isString.1 hp
    exact escaped_endsLine_quote (hmark s rfl)
  | false =>
    have hword := h.word hp
    exact .of_all fun c hc =>
      ⟨(plain_of_isLiteralPart (hword.all c hc)).1, (plain_of_isLiteralPart (hword.all c hc)).2.1⟩

theorem escaped_separator : Escaped endsLine [',', ' '] :=
  .char (by decide) (by decide) (.char (by decide) (by decide) .nil)

theorem escaped_intercalate {texts : List (List Char)} (h : ∀ text ∈ texts, Escaped endsLine text) :
    Escaped endsLine ([',', ' '].intercalate texts) := by
  induction texts with
  | nil => exact .nil
  | cons first others ih =>
    have hfirst := h first List.mem_cons_self
    have hothers := ih fun text ht => h text (List.mem_cons_of_mem _ ht)
    by_cases hne : others = []
    · rw [hne, intercalate_cons]
      simpa [afterFirst] using hfirst
    · rw [List.intercalate_cons_of_ne_nil hne]
      exact (hfirst.append escaped_separator).append hothers

/-- The items of an array have no comment mark in their strings. -/
def NoMark (items : List Value) : Prop := ∀ s, Value.string s ∈ items → '#' ∉ s.toList

theorem isWhole_encode_array {p : Primitive} {items : List Value} (hfits : ∀ v ∈ items, Fits p v)
    (hmark : NoMark items) : IsWhole endsLine (Value.array items).encode := by
  have hinner : Escaped endsLine ([',', ' '].intercalate (items.map Value.encode)) := by
    refine escaped_intercalate fun text ht => ?_
    obtain ⟨v, hv, rfl⟩ := List.mem_map.1 ht
    exact escaped_encode (hfits v hv) fun s hs => hmark s (hs ▸ hv)
  have hclose : Escaped endsLine [']'] := .char (by decide) (by decide) .nil
  rw [encode_array]
  exact isWhole_of_escaped (by decide) (by decide) (.char (by decide) (by decide) (hinner.append hclose))

/-! ## Arrays read whole -/

/-- Several items are not read as elements, for the blank after the first comma. -/
theorem elementsLength?_several {p : Primitive} {v w : Value} {items : List Value} (h : Fits p v) :
    elementsLength? ([',', ' '].intercalate ((v :: w :: items).map Value.encode) ++ [']']) = none := by
  obtain ⟨after, hafter⟩ : ∃ after, [',', ' '].intercalate ((v :: w :: items).map Value.encode) ++ [']'] =
      v.encode ++ ',' :: ' ' :: after := by
    rw [List.map_cons, List.map_cons, intercalate_cons, afterFirst, List.flatMap_cons]
    exact ⟨w.encode ++ afterFirst (items.map Value.encode) ++ [']'], by simp [afterFirst]⟩
  obtain ⟨hlength, hhead⟩ := literalLength?_element h (',' :: ' ' :: after) ⟨',', rfl, .inl rfl⟩
  have hblank : literalLength? endsElement (' ' :: after) = none := by
    have hquote : isQuote ' ' = false := by decide
    have hspace : isBlank ' ' = true := by decide
    simp [literalLength?, hquote, hspace]
  rw [hafter, elementsLength?_append hhead hlength]
  simp only [elementsLength?_of_none (by simp) hblank, Option.map_none]

/-- Several items are read as bare text. -/
theorem read?_several {p : Primitive} {v w : Value} {items : List Value} (h : Fits p v) :
    Ending.read? (' ' :: (Value.array (v :: w :: items)).encode) =
      ((finished? (Value.array (v :: w :: items)).encode
        (literalLength? endsLine (Value.array (v :: w :: items)).encode)).map .default <|>
        if isFinished (' ' :: (Value.array (v :: w :: items)).encode) then some .nothing else none) := by
  rw [encode_array, List.cons_append, read?_array, elementsLength?_several h]
  rfl

/-- The canonical text of an array with at most one item, or without a comment mark in its strings, is
read as it stands. -/
theorem read?_encode_array {p : Primitive} {items : List Value} (hfits : ∀ v ∈ items, Fits p v)
    (h : items.length ≤ 1 ∨ NoMark items) :
    Ending.read? (' ' :: (Value.array items).encode) = some (.default (Value.array items).encode) := by
  match items, hfits, h with
  | [], _, _ =>
    have hlength : elementsLength? [']'] = some 1 := by
      rw [elementsLength?]
      rfl
    have hencode : (Value.array []).encode = '[' :: [']'] := rfl
    rw [hencode, read?_array, hlength]
    rfl
  | [v], hfits, _ =>
    have hencode : (Value.array [v]).encode = '[' :: (v.encode ++ [']']) := by
      rw [encode_array, List.map_cons, intercalate_cons]
      simp [afterFirst]
    obtain ⟨hlength, hhead⟩ :=
      literalLength?_element (hfits v List.mem_cons_self) [']'] ⟨']', rfl, .inr rfl⟩
    have helements : elementsLength? (v.encode ++ [']']) = some (v.encode.length + 1) :=
      elementsLength?_append hhead hlength
    have hfinished : finished? ('[' :: (v.encode ++ [']'])) (some (v.encode.length + 1 + 1)) =
        some ('[' :: (v.encode ++ [']'])) := by
      have := finished?_length ('[' :: (v.encode ++ [']']))
      simpa using this
    rw [hencode, read?_array, helements, Option.map_some, hfinished]
    rfl
  | v :: w :: items, hfits, h =>
    have hmark : NoMark (v :: w :: items) := h.resolve_left (by simp)
    rw [read?_several (hfits v List.mem_cons_self), isWhole_encode_array hfits hmark, finished?_length]
    rfl

/-! ## Arrays cut off -/

theorem escape_mark : escape '#' = ['#'] := by decide

/-- Quoted texts up to the first comment mark in one of them. -/
theorem exists_cut {strings : List (List Char)} (h : ∃ s ∈ strings, '#' ∈ s) :
    ∃ front s back, '[' :: [',', ' '].intercalate (strings.map quote) =
      cutText front s ++ '#' :: back ∧ (∀ t ∈ front, '#' ∉ t) ∧ '#' ∉ s := by
  induction strings with
  | nil => simp at h
  | cons first others ih =>
    by_cases hfirst : '#' ∈ first
    · obtain ⟨s, back, rfl, hs⟩ := List.eq_append_cons_of_mem hfirst
      refine ⟨[], s, back.flatMap escape ++ '"' :: afterFirst (others.map quote), ?_, by simp, hs⟩
      rw [List.map_cons, intercalate_cons]
      simp [cutText, quote, escape_mark]
    · have hothers : ∃ s ∈ others, '#' ∈ s := by
        obtain ⟨s, hs, hm⟩ := h
        rcases List.mem_cons.1 hs with rfl | hs
        · exact absurd hm hfirst
        · exact ⟨s, hs, hm⟩
      have hne : others.map quote ≠ [] := by
        obtain ⟨s, hs, -⟩ := hothers
        exact List.ne_nil_of_mem (List.mem_map_of_mem hs)
      obtain ⟨front, s, back, heq, hfront, hs⟩ := ih hothers
      refine ⟨first :: front, s, back, ?_, ?_, hs⟩
      · have htail := (List.cons.inj heq).2
        rw [List.map_cons, List.intercalate_cons_of_ne_nil hne, htail]
        simp [cutText]
      · intro t ht
        rcases List.mem_cons.1 ht with rfl | ht
        · exact hfirst
        · exact hfront t ht

theorem escaped_cutText {front : List (List Char)} {s : List Char} (hfront : ∀ t ∈ front, '#' ∉ t)
    (hs : '#' ∉ s) : Escaped endsLine (cutText front s) := by
  have hlast : Escaped endsLine ('"' :: s.flatMap escape) :=
    .char (by decide) (by decide) (escaped_endsLine_escape hs)
  refine .char (by decide) (by decide) (Escaped.append ?_ hlast)
  induction front with
  | nil => exact .nil
  | cons t front ih =>
    rw [List.flatMap_cons]
    exact ((escaped_endsLine_quote (hfront t List.mem_cons_self)).append escaped_separator).append
      (ih fun u hu => hfront u (List.mem_cons_of_mem _ hu))

/-- With a comment mark in one of several strings, an array is read up to the mark. -/
theorem read?_encode_cut {p : Primitive} (hp : p.isString = true) {items : List Value}
    (hfits : ∀ v ∈ items, Fits p v) (hseveral : 2 ≤ items.length) (hmark : ¬ NoMark items) :
    ∃ front s, Ending.read? (' ' :: (Value.array items).encode) = some (.default (cutText front s)) := by
  obtain ⟨strings, rfl⟩ := exists_strings hp hfits
  have hmark : ∃ s ∈ strings.map String.toList, '#' ∈ s := by
    simp only [NoMark, List.mem_map, Value.string.injEq, exists_eq_right, not_forall, not_not] at hmark
    obtain ⟨s, hs, hm⟩ := hmark
    exact ⟨s.toList, List.mem_map_of_mem hs, hm⟩
  obtain ⟨front, s, back, heq, hfront, hs⟩ := exists_cut hmark
  refine ⟨front, s, ?_⟩
  have hencode : (Value.array (strings.map .string)).encode = cutText front s ++ '#' :: (back ++ [']']) := by
    have htexts : (strings.map Value.string).map Value.encode = (strings.map String.toList).map quote := by
      rw [encode_strings, List.map_map]
      rfl
    rw [encode_array, htexts, heq, List.append_assoc, List.cons_append]
  have hcomment : ∀ c ∈ ('#' :: (back ++ [']'])).head?, c = '#' := by simp
  have hlength : literalLength? endsLine (cutText front s ++ '#' :: (back ++ [']'])) =
      some (cutText front s).length :=
    literalLength?_of_escaped ⟨'[', rfl, by decide, by decide⟩ (escaped_cutText hfront hs)
      (endsLine_comment hcomment)
  cases strings with
  | nil => simp at hseveral
  | cons first rest =>
    cases rest with
    | nil => simp at hseveral
    | cons second others =>
      rw [List.map_cons, List.map_cons] at hfits hencode ⊢
      rw [read?_several (hfits _ List.mem_cons_self), hencode, hlength, finished?_append _ hcomment]
      rfl

end RosSchema.Line.Ros2

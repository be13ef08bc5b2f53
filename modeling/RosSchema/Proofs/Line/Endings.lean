import RosSchema.Line.Ros2
import RosSchema.Proofs.Literal.Arrays

/-!
# What is read after a name

The text after a name is read as the literal that is written there when the literal is a whole: quoted,
or escaped and without a mark that ends it. An array of several items is read up to the first comment
mark, also where that stands in a string.
-/

namespace RosSchema.Line.Ros2

open RosSchema.Literal
open RosSchema.Text (trim trimLeft trimRight isBlank escape quote Trimmed)
open Reader (Word)

/-! ## The lengths of literals -/

theorem lengthBefore_char {ends : Char → Bool} {c : Char} (plain : c ≠ '\\') (cs : List Char) :
    lengthBefore ends (c :: cs) = if ends c then 0 else lengthBefore ends cs + 1 := by
  rw [lengthBefore.eq_3 _ _ _ fun _ _ h _ => plain h]
  simp [plain]

/-- Bare text goes on to the end of an escaped text. -/
theorem lengthBefore_append {ends : Char → Bool} {as : List Char} (h : Escaped ends as)
    (bs : List Char) : lengthBefore ends (as ++ bs) = as.length + lengthBefore ends bs := by
  induction h with
  | nil => simp
  | pair c _ ih =>
    rw [List.cons_append, List.cons_append, lengthBefore, ih, List.length_cons, List.length_cons]
    omega
  | char plain inside _ ih =>
    rw [List.cons_append, lengthBefore_char plain, inside, ih, List.length_cons]
    simp only [Bool.false_eq_true, ↓reduceIte]
    omega

/-- An escaped text ends before a mark. -/
theorem lengthBefore_eq_length {ends : Char → Bool} {as bs : List Char} (h : Escaped ends as)
    (hbs : ∀ c ∈ bs.head?, c ≠ '\\' ∧ ends c = true) : lengthBefore ends (as ++ bs) = as.length := by
  have hzero : lengthBefore ends bs = 0 := by
    cases bs with
    | nil => rfl
    | cons c bs =>
      obtain ⟨plain, hends⟩ := hbs c rfl
      rw [lengthBefore_char plain, if_pos hends]
  rw [lengthBefore_append h, hzero, Nat.add_zero]

/-- Bare text is escaped. -/
theorem escaped_take_lengthBefore (ends : Char → Bool) (cs : List Char) :
    Escaped ends (cs.take (lengthBefore ends cs)) := by
  induction cs using escapes_induction with
  | nil => exact .nil
  | dangling =>
    have hzero : lengthBefore ends ['\\'] = 0 := by simp [lengthBefore]
    rw [hzero]
    exact .nil
  | pair c cs ih =>
    rw [lengthBefore, List.take_succ_cons, List.take_succ_cons]
    exact .pair c ih
  | char c cs plain ih =>
    rw [lengthBefore_char plain]
    cases hc : ends c with
    | true => exact .nil
    | false => exact .char plain hc ih

def IsWhole (ends : Char → Bool) (text : List Char) : Prop :=
  literalLength? ends text = some text.length

theorem literalLength?_bare {ends : Char → Bool} {c : Char} {cs : List Char} (hquote : isQuote c = false)
    (hblank : isBlank c = false) : literalLength? ends (c :: cs) =
      if lengthBefore ends (c :: cs) = 0 then none else some (lengthBefore ends (c :: cs)) := by
  rw [literalLength?, hquote, hblank]
  simp only [Bool.false_eq_true, ↓reduceIte]
  split
  · next hzero => rw [if_pos hzero]
  · next n hne => rw [if_neg hne]

/-- An escaped text is a literal before a mark. -/
theorem literalLength?_of_escaped {ends : Char → Bool} {as bs : List Char}
    (hhead : ∃ c ∈ as.head?, isQuote c = false ∧ isBlank c = false) (h : Escaped ends as)
    (hbs : ∀ c ∈ bs.head?, c ≠ '\\' ∧ ends c = true) :
    literalLength? ends (as ++ bs) = some as.length := by
  obtain ⟨c, hc, hquote, hblank⟩ := hhead
  obtain ⟨cs, rfl⟩ := List.head?_eq_some_iff.1 hc
  have hlength := lengthBefore_eq_length h hbs
  rw [List.cons_append] at hlength ⊢
  rw [literalLength?_bare hquote hblank, hlength, if_neg (by simp)]

theorem isWhole_of_escaped {ends : Char → Bool} {c : Char} {cs : List Char} (hquote : isQuote c = false)
    (hblank : isBlank c = false) (h : Escaped ends (c :: cs)) : IsWhole ends (c :: cs) := by
  have hlength : literalLength? ends ((c :: cs) ++ []) = some (c :: cs).length :=
    literalLength?_of_escaped ⟨c, rfl, hquote, hblank⟩ h (by simp)
  rwa [List.append_nil] at hlength

theorem literalLength?_quoted {ends : Char → Bool} {q : Char} (hq : isQuote q = true) {as : List Char}
    (h : Escaped (· == q) as) (bs : List Char) :
    literalLength? ends (q :: (as ++ q :: bs)) = some (as.length + 2) := by
  have hlength := (lengthToQuote?_eq_some (ne_backslash_of_isQuote hq)).2 ⟨as, bs, rfl, h, rfl⟩
  rw [literalLength?, if_pos hq, hlength]
  rfl

/-- A quoted literal is the text up to its closing quote. -/
theorem take_literalLength?_quoted {ends : Char → Bool} {q : Char} {rest : List Char} {n : Nat}
    (hq : isQuote q = true) (h : literalLength? ends (q :: rest) = some n) :
    ∃ body, (q :: rest).take n = q :: (body ++ [q]) ∧ Escaped (· == q) body := by
  rw [literalLength?, if_pos hq] at h
  obtain ⟨k, hk, rfl⟩ := Option.map_eq_some_iff.1 h
  obtain ⟨body, after, rfl, hbody, rfl⟩ := (lengthToQuote?_eq_some (ne_backslash_of_isQuote hq)).1 hk
  have happend : q :: (body ++ q :: after) = q :: (body ++ [q]) ++ after := by simp
  exact ⟨body, by rw [happend]; exact List.take_left' (by simp), hbody⟩

/-- A bare literal keeps its first character and is escaped. -/
theorem take_literalLength?_bare {ends : Char → Bool} {c : Char} {rest : List Char} {n : Nat}
    (hquote : isQuote c = false) (h : literalLength? ends (c :: rest) = some n) :
    isBlank c = false ∧ ∃ k, (c :: rest).take n = c :: rest.take k ∧ Escaped ends (c :: rest.take k) := by
  cases hblank : isBlank c with
  | true => simp [literalLength?, hquote, hblank] at h
  | false =>
    rw [literalLength?_bare hquote hblank] at h
    split at h
    · cases h
    · next hne =>
      obtain rfl := Option.some.inj h
      obtain ⟨k, hk⟩ := Nat.exists_eq_succ_of_ne_zero hne
      have hescaped := escaped_take_lengthBefore ends (c :: rest)
      rw [hk, List.take_succ_cons] at hescaped ⊢
      exact ⟨rfl, k, rfl, hescaped⟩

theorem literalLength?_quote_append (ends : Char → Bool) (s bs : List Char) :
    literalLength? ends (quote s ++ bs) = some (quote s).length := by
  have hcons : quote s ++ bs = '"' :: (s.flatMap escape ++ '"' :: bs) := by simp [quote]
  rw [hcons, literalLength?_quoted (by decide) (escaped_quote_escape s)]
  simp [quote]

theorem isWhole_quote (ends : Char → Bool) (s : List Char) : IsWhole ends (quote s) := by
  have := literalLength?_quote_append ends s []
  rwa [List.append_nil] at this

/-- What is no part of other literals than strings. -/
theorem plain_of_isLiteralPart {c : Char} (h : isLiteralPart c = true) :
    c ≠ '\\' ∧ endsLine c = false ∧ endsElement c = false ∧ isQuote c = false := by
  refine ⟨?_, ?_, ?_, ?_⟩
  · rintro rfl
    exact absurd h (by decide)
  · refine beq_eq_false_iff_ne.2 ?_
    rintro rfl
    exact absurd h (by decide)
  · simp only [endsElement, Bool.or_eq_false_iff, beq_eq_false_iff_ne]
    refine ⟨⟨?_, ?_⟩, ?_⟩ <;>
      · rintro rfl
        exact absurd h (by decide)
  · simp only [isQuote, Bool.or_eq_false_iff, decide_eq_false_iff_not]
    refine ⟨?_, ?_⟩ <;>
      · rintro rfl
        exact absurd h (by decide)

theorem isWhole_word {text : List Char} (h : Word isLiteralPart text) : IsWhole endsLine text := by
  have hesc : Escaped endsLine text := .of_all fun c hc =>
    ⟨(plain_of_isLiteralPart (h.all c hc)).1, (plain_of_isLiteralPart (h.all c hc)).2.1⟩
  obtain ⟨c, cs, rfl, hc⟩ := h.exists_cons
  exact isWhole_of_escaped (plain_of_isLiteralPart hc).2.2.2 (isBlank_eq_false_of_isLiteralPart hc) hesc

/-- The canonical text of a scalar is a whole literal. -/
theorem isWhole_encode {p : Primitive} {v : Value} (h : Fits p v) : IsWhole endsLine v.encode := by
  cases hp : p.isString with
  | true =>
    obtain ⟨s, rfl⟩ := h.isString.1 hp
    exact isWhole_quote endsLine s.toList
  | false => exact isWhole_word (h.word hp)

/-! ## Finished lines -/

@[simp] theorem isFinished_nil : isFinished [] = true := rfl

theorem finished?_some (cs : List Char) (n : Nat) :
    finished? cs (some n) = if isFinished (cs.drop n) then some (cs.take n) else none := rfl

theorem isFinished_comment {rest : List Char} (h : ∀ c ∈ rest.head?, c = '#') : isFinished rest = true := by
  cases rest with
  | nil => rfl
  | cons c rest =>
    obtain rfl := h c rfl
    rfl

/-- A comment mark ends bare text. -/
theorem endsLine_comment {rest : List Char} (h : ∀ c ∈ rest.head?, c = '#') :
    ∀ c ∈ rest.head?, c ≠ '\\' ∧ endsLine c = true := by
  intro c hc
  rw [h c hc]
  decide

/-- A line is finished where its comment starts. -/
theorem finished?_append (front : List Char) {rest : List Char} (h : ∀ c ∈ rest.head?, c = '#') :
    finished? (front ++ rest) (some front.length) = some front := by
  rw [finished?_some, List.drop_left, isFinished_comment h, if_pos rfl, List.take_left]

theorem finished?_length (cs : List Char) : finished? cs (some cs.length) = some cs := by
  have hfinished : finished? (cs ++ []) (some cs.length) = some cs := finished?_append cs (by simp)
  rwa [List.append_nil] at hfinished

/-! ## Assigned texts -/

/-- The canonical ending of a constant is read as its text. -/
theorem read?_assigned {text : List Char} (htrim : Trimmed text) (h : text = [] ∨ IsWhole endsLine text) :
    Ending.read? (trimRight (" = ".toList ++ text)) = some (.assigned text) := by
  have heq : isBlank '=' = false := by decide
  have htail : trimRight (" = ".toList ++ text) = [' ', '='] ++ trimRight (' ' :: text) :=
    Text.trimRight_append_cons heq [' '] (' ' :: text)
  have hassigned : assigned? (trimRight (" = ".toList ++ text)) = some text := by
    rw [htail, assigned?]
    have hleft : trimLeft ([' ', '='] ++ trimRight (' ' :: text)) = '=' :: trimRight (' ' :: text) := by
      rw [List.cons_append, Text.trimLeft_space]
      exact Text.trimLeft_of_head (by simp [heq])
    have htext : trimLeft (trimRight (' ' :: text)) = text := by
      cases text with
      | nil => decide
      | cons c cs =>
        have hlast : trimRight (' ' :: c :: cs) = ' ' :: c :: cs :=
          Text.trimRight_of_last (by simpa using htrim.last)
        rw [hlast, Text.trimLeft_space, Text.trimLeft_of_head htrim.head]
    rw [hleft]
    simp only [htext]
    rcases h with rfl | h
    · rfl
    · rw [h, finished?_length]
      rfl
  rw [Ending.read?, hassigned]
  rfl

theorem finished?_eq_some {cs text : List Char} {length : Option Nat} (h : finished? cs length = some text) :
    ∃ n, length = some n ∧ text = cs.take n := by
  obtain ⟨n, hn, htake⟩ := Option.bind_eq_some_iff.1 h
  split at htake
  · exact ⟨n, hn, (Option.some.inj htake).symm⟩
  · cases htake

/-- An assigned text is empty, or it is what a literal takes off some text. -/
theorem exists_of_assigned? {cs raw : List Char} (h : assigned? cs = some raw) :
    raw = [] ∨ ∃ text n, text <:+ cs ∧ literalLength? endsLine text = some n ∧ raw = text.take n := by
  unfold assigned? at h
  split at h
  · next rest hrest =>
    dsimp only at h
    have hsuffix : trimLeft rest <:+ cs := by
      have hback : '=' :: rest <:+ cs := hrest ▸ List.dropWhile_suffix _
      exact List.IsSuffix.trans (List.dropWhile_suffix _)
        (List.IsSuffix.trans (List.suffix_cons _ _) hback)
    cases hlit : finished? (trimLeft rest) (literalLength? endsLine (trimLeft rest)) with
    | some text =>
      rw [hlit] at h
      cases h
      obtain ⟨n, hn, htake⟩ := finished?_eq_some hlit
      exact .inr ⟨_, n, hsuffix, hn, htake⟩
    | none =>
      rw [hlit] at h
      obtain ⟨n, hn, htake⟩ := finished?_eq_some (show finished? (trimLeft rest) (some 0) = some raw from h)
      cases hn
      exact .inl htake
  · cases h

theorem subset_of_assigned? {cs raw : List Char} (h : assigned? cs = some raw) : raw ⊆ cs := by
  rcases exists_of_assigned? h with rfl | ⟨text, n, hsuffix, -, rfl⟩
  · exact List.nil_subset _
  · exact List.Subset.trans (List.take_subset _ _) hsuffix.subset

/-- A text that is escaped in one sense and in another together with what follows it is escaped in the
second sense. -/
theorem escaped_of_append {stop stop' : Char → Bool} {as bs : List Char} (h : Escaped stop as)
    (h' : Escaped stop' (as ++ bs)) : Escaped stop' as := by
  induction h with
  | nil => exact .nil
  | pair c _ ih => exact .pair c (ih h'.of_pair)
  | char plain _ _ ih =>
    obtain ⟨inside, rest⟩ := Escaped.of_char plain h'
    exact .char plain inside (ih rest)

/-- A quoted literal ends with its quote. -/
theorem isWhole_of_quoted {c : Char} {rest : List Char} {n : Nat} (hquote : isQuote c = true)
    (h : literalLength? endsLine (c :: rest) = some n) : IsWhole endsLine (trim ((c :: rest).take n)) := by
  obtain ⟨body, htake, hbody⟩ := take_literalLength?_quoted hquote h
  have hc : isBlank c = false := by
    simp only [isQuote, Bool.or_eq_true, decide_eq_true_eq] at hquote
    rcases hquote with rfl | rfl <;> decide
  have htrim : Trimmed (c :: (body ++ [c])) := by
    refine ⟨by simpa using hc, ?_⟩
    rw [← List.cons_append, List.getLast?_concat]
    simpa using hc
  rw [htake, htrim.trim_eq, IsWhole, literalLength?_quoted hquote hbody]
  simp

/-- Bare text keeps its first character, and the decoder refuses a backslash at its end. -/
theorem isWhole_of_bare {c : Char} {rest : List Char} {n : Nat} (hquote : isQuote c = false)
    (h : literalLength? endsLine (c :: rest) = some n) {s : String}
    (hdecode : decodeString (trim ((c :: rest).take n)) = .ok s) :
    IsWhole endsLine (trim ((c :: rest).take n)) := by
  obtain ⟨hblank, k, htake, hescaped⟩ := take_literalLength?_bare hquote h
  have htrim : trim (c :: rest.take k) = c :: trimRight (rest.take k) := by
    rw [trim, Text.trimLeft_of_head (by simpa using hblank)]
    exact Text.trimRight_append_cons hblank [] _
  rw [htake, htrim] at hdecode ⊢
  have hbare : IsBare (c :: trimRight (rest.take k)) := by
    rintro d ⟨⟩
    exact hquote
  have hpaired := ((decodeString_bare hbare).1 hdecode).escaped (by simp)
  obtain ⟨blanks, hblanks, -⟩ := Text.exists_trimRight_append (rest.take k)
  have hwhole : Escaped endsLine (c :: trimRight (rest.take k) ++ blanks) := by
    rw [List.cons_append, ← hblanks]
    exact hescaped
  exact isWhole_of_escaped hquote hblank (escaped_of_append hpaired hwhole)

/-- The text of a string constant is empty or a whole literal. -/
theorem isWhole_of_assigned? {cs raw : List Char} (h : assigned? cs = some raw) {s : String}
    (hdecode : decodeString (trim raw) = .ok s) : trim raw = [] ∨ IsWhole endsLine (trim raw) := by
  rcases exists_of_assigned? h with rfl | ⟨text, n, -, hn, rfl⟩
  · exact .inl rfl
  right
  cases text with
  | nil => cases hn
  | cons c rest =>
    cases hquote : isQuote c with
    | true => exact isWhole_of_quoted hquote hn
    | false => exact isWhole_of_bare hquote hn hdecode

/-! ## Defaults -/

theorem assigned?_space {text : List Char} (hhead : ∀ c ∈ text.head?, isBlank c = false ∧ c ≠ '=') :
    assigned? (' ' :: text) = none := by
  rw [assigned?, Text.trimLeft_space, Text.trimLeft_of_head fun c hc => (hhead c hc).1]
  split
  · exact absurd rfl (hhead '=' rfl).2
  · rfl

/-- The canonical ending of a variable with a scalar default is read as the default. -/
theorem read?_default {text : List Char} (hhead : ∀ c ∈ text.head?, isBlank c = false ∧ c ≠ '=' ∧ c ≠ '[')
    (h : IsWhole endsLine text) : Ending.read? (' ' :: text) = some (.default text) := by
  have hspace : isBlank ' ' = true := by decide
  have hdefault : default? (' ' :: text) = some text := by
    rw [default?, hspace, Text.trimLeft_of_head fun c hc => (hhead c hc).1]
    simp only [Bool.not_true, Bool.false_eq_true, ↓reduceIte]
    split
    · exact absurd rfl (hhead '[' rfl).2.2
    · rw [h, finished?_length]
  rw [Ending.read?, assigned?_space fun c hc => ⟨(hhead c hc).1, (hhead c hc).2.1⟩, hdefault]
  rfl

/-! ## Defaults of arrays -/

/-- An array default is read as its elements are, or else as bare text. -/
theorem read?_array (elements : List Char) :
    Ending.read? (' ' :: '[' :: elements) =
      ((finished? ('[' :: elements) ((elementsLength? elements).map (· + 1)) <|>
        finished? ('[' :: elements) (literalLength? endsLine ('[' :: elements))).map .default <|>
        if isFinished (' ' :: '[' :: elements) then some .nothing else none) := by
  have hspace : isBlank ' ' = true := by decide
  have hopen : ∀ c ∈ ('[' :: elements).head?, isBlank c = false ∧ c ≠ '=' := by
    rintro c ⟨⟩
    decide
  have hdefault : default? (' ' :: '[' :: elements) =
      (finished? ('[' :: elements) ((elementsLength? elements).map (· + 1)) <|>
        finished? ('[' :: elements) (literalLength? endsLine ('[' :: elements))) := by
    rw [default?, hspace, Text.trimLeft_of_head fun c hc => (hopen c hc).1]
    rfl
  rw [Ending.read?, assigned?_space hopen, hdefault]
  rfl

theorem elementsLength?_of_none {cs : List Char} (hhead : cs.head? ≠ some ']')
    (h : literalLength? endsElement cs = none) : elementsLength? cs = none := by
  rw [elementsLength?, if_neg hhead]
  split
  · rfl
  · next n hn => simp [h] at hn

/-- Elements are counted off one after the other, with nothing between an element and its comma. -/
theorem elementsLength?_append {as bs : List Char} (hhead : (as ++ bs).head? ≠ some ']')
    (h : literalLength? endsElement (as ++ bs) = some as.length) :
    elementsLength? (as ++ bs) = match bs with
      | ',' :: rest => (elementsLength? rest).map (· + as.length + 1)
      | ']' :: _ => some (as.length + 1)
      | _ => none := by
  have hdrop : (as ++ bs).drop as.length = bs := List.drop_left
  rw [elementsLength?, if_neg hhead]
  split
  · next hn => simp [h] at hn
  · next n hn =>
    rw [h] at hn
    obtain rfl := Option.some.inj hn
    split
    · next rest hrest =>
      rw [hdrop] at hrest
      subst hrest
      rfl
    · next tail hrest =>
      rw [hdrop] at hrest
      subst hrest
      rfl
    · next h1 h2 =>
      rw [hdrop] at h1 h2
      split
      · exact absurd rfl (h1 _)
      · exact absurd rfl (h2 _)
      · rfl

/-- The canonical text of a scalar is a whole element before a comma or a bracket. -/
theorem literalLength?_element {p : Primitive} {v : Value} (h : Fits p v) (bs : List Char)
    (hbs : ∃ c ∈ bs.head?, c = ',' ∨ c = ']') :
    literalLength? endsElement (v.encode ++ bs) = some v.encode.length ∧
      (v.encode ++ bs).head? ≠ some ']' := by
  cases hp : p.isString with
  | true =>
    obtain ⟨s, rfl⟩ := h.isString.1 hp
    exact ⟨literalLength?_quote_append endsElement s.toList bs, by simp [Value.encode, quote]⟩
  | false =>
    have hword := h.word hp
    have hesc : Escaped endsElement v.encode := .of_all fun c hc =>
      ⟨(plain_of_isLiteralPart (hword.all c hc)).1, (plain_of_isLiteralPart (hword.all c hc)).2.2.1⟩
    have hstop : ∀ c ∈ bs.head?, c ≠ '\\' ∧ endsElement c = true := by
      obtain ⟨d, hd, hends⟩ := hbs
      intro c hc
      obtain rfl := Option.mem_unique hc hd
      rcases hends with rfl | rfl <;> decide
    obtain ⟨c, cs, hcs, hc⟩ := hword.exists_cons
    obtain ⟨-, -, hbracket, hquote⟩ := plain_of_isLiteralPart hc
    refine ⟨literalLength?_of_escaped ⟨c, by rw [hcs]; rfl, hquote, isBlank_eq_false_of_isLiteralPart hc⟩
      hesc hstop, ?_⟩
    rw [hcs]
    simp only [List.cons_append, List.head?_cons, ne_eq, Option.some.injEq]
    rintro rfl
    exact absurd hbracket (by decide)

end RosSchema.Line.Ros2

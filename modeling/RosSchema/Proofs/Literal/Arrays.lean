import RosSchema.Proofs.Literal.Scalars

/-!
# Arrays read back

The canonical text of an array is decoded to an array of the same canonical text when its items are
finite. Cut off inside one of its strings, it is no array literal any more: the string has no end.
-/

namespace RosSchema.Literal

open RosSchema.Text (trim trimLeft trimRight isBlank escape quote Trimmed)
open Reader (Word)

/-! ## Separated texts -/

/-- Separated texts have the characters of the texts and of what stands between them. -/
theorem mem_or_mem_of_mem_intercalate {sep : List Char} {texts : List (List Char)} {c : Char}
    (h : c ∈ sep.intercalate texts) : c ∈ sep ∨ ∃ text ∈ texts, c ∈ text := by
  induction texts with
  | nil => cases h
  | cons first others ih =>
    by_cases hne : others = []
    · subst hne
      exact .inr ⟨first, List.mem_cons_self, by simpa [List.intercalate] using h⟩
    · rw [List.intercalate_cons_of_ne_nil hne] at h
      rcases List.mem_append.1 h with h | h
      · rcases List.mem_append.1 h with h | h
        · exact .inr ⟨first, List.mem_cons_self, h⟩
        · exact .inl h
      · obtain hsep | ⟨text, htext, hc⟩ := ih h
        · exact .inl hsep
        · exact .inr ⟨text, List.mem_cons_of_mem _ htext, hc⟩

/-- What follows the first of some texts with a comma and a blank between every two. -/
def afterFirst (texts : List (List Char)) : List Char := texts.flatMap fun text => ',' :: ' ' :: text

theorem intercalate_cons (first : List Char) (others : List (List Char)) :
    [',', ' '].intercalate (first :: others) = first ++ afterFirst others := by
  induction others generalizing first with
  | nil => simp [afterFirst, List.intercalate]
  | cons second others ih =>
    rw [List.intercalate_cons_of_ne_nil (List.cons_ne_nil _ _), ih]
    simp [afterFirst]

theorem splitOn_cons_afterFirst {first : List Char} {others : List (List Char)} (hfirst : ',' ∉ first)
    (h : ∀ text ∈ others, ',' ∉ text) :
    (first ++ afterFirst others).splitOn ',' = first :: others.map (' ' :: ·) := by
  induction others generalizing first with
  | nil => simp [afterFirst, List.splitOn_eq_singleton hfirst]
  | cons second others ih =>
    have hsecond : ',' ∉ ' ' :: second := by
      intro hm
      rcases List.mem_cons.1 hm with hm | hm
      · exact absurd hm (by decide)
      · exact h second List.mem_cons_self hm
    have hrest := ih hsecond fun text ht => h text (List.mem_cons_of_mem _ ht)
    have hsplit : afterFirst (second :: others) = ',' :: (' ' :: second ++ afterFirst others) := by
      rw [afterFirst, List.flatMap_cons]
      rfl
    rw [hsplit, List.splitOn_append_cons_self_of_not_mem hfirst, hrest]
    rfl

/-! ## Brackets -/

theorem encode_array (items : List Value) :
    (Value.array items).encode = '[' :: [',', ' '].intercalate (items.map Value.encode) ++ [']'] := by
  rw [Value.encode, Value.encodeItems_eq_map]

theorem trimmed_brackets (inner : List Char) : Trimmed ('[' :: inner ++ [']']) where
  head := by
    rintro c ⟨⟩
    decide
  last := by
    intro c hc
    rw [List.getLast?_concat] at hc
    obtain rfl := Option.some.inj hc
    decide

theorem insideBrackets?_brackets (inner : List Char) :
    insideBrackets? ('[' :: inner ++ [']']) = some inner := by
  rw [List.cons_append, insideBrackets?, List.getLast?_concat, if_pos rfl, List.dropLast_concat]

def decodeItems (p : Primitive) (type : String) (inner : List Char) : Except Error (List Value) :=
  if p.isString then decodeElements type inner
  else if (trim inner).isEmpty then .ok []
  else (inner.splitOn ',').mapM fun part => decodeScalar type (trim part)

theorem decodeArray_eq_ok {type : String} {raw : List Char} {v : Value} :
    decodeArray type raw = .ok v ↔ ∃ inner, insideBrackets? (trim raw) = some inner ∧
      ∃ p, literalType type = .ok p ∧ ∃ items, decodeItems p type inner = .ok items ∧ v = .array items := by
  unfold decodeArray
  cases insideBrackets? (trim raw) with
  | none => simp
  | some inner =>
    simp only [Steps.bind_eq_ok, Option.some.injEq, exists_eq_left']
    refine exists_congr fun p => and_congr_right fun _ => ?_
    unfold decodeItems
    have hpure (items : List Value) : (pure (.array items) : Except Error Value) = .ok v ↔ v = .array items :=
      ⟨fun h => by cases h; rfl, fun h => h ▸ rfl⟩
    split
    · simp only [Steps.bind_eq_ok, hpure]
    split
    · simp only [hpure, Except.ok.injEq, exists_eq_left']
    · simp only [Steps.bind_eq_ok, hpure]

/-! ## Arrays of strings -/

theorem decodeElements_of_nil {type : String} {cs : List Char} (h : trimLeft cs = []) :
    decodeElements type cs = .ok [] := by
  rw [decodeElements]
  split <;> simp_all

/-- The first element is decoded, and then what follows its comma. -/
theorem decodeElements_eq {type : String} {cs text : List Char} (h : trimLeft cs = text) (hne : text ≠ [])
    (hcomma : ∀ c ∈ text.head?, c ≠ ',') :
    decodeElements type cs = elementLength type text >>= fun n =>
      decodeString (trimRight (text.take n)) >>= fun first =>
        match trimLeft (text.drop n) with
        | [] => .ok [.string first]
        | ',' :: rest => (decodeElements type rest).map (.string first :: ·)
        | _ => .error (.badLiteral type .noComma) := by
  subst h
  rw [decodeElements]
  split
  · next hnil => exact absurd hnil hne
  · next rest h' => exact absurd rfl (hcomma ',' (by rw [h']; rfl))
  · refine congrArg (elementLength type _ >>= ·) (funext fun n => ?_)
    refine congrArg (decodeString _ >>= ·) (funext fun first => ?_)
    split
    · next hrest =>
      rw [hrest]
      rfl
    · next rest hrest =>
      rw [hrest]
      change _ = (decodeElements type rest).map (.string first :: ·)
      cases decodeElements type rest <;> rfl
    · next hnil hcons =>
      split
      · next hrest => exact absurd hrest hnil
      · next rest hrest => exact absurd hrest (hcons rest)
      · rfl

/-- Elements are decoded one by one. -/
theorem decodeElements_of_cons {type : String} {cs text : List Char} {values : List Value}
    (h : trimLeft cs = text) (hne : text ≠ []) (hcomma : ∀ c ∈ text.head?, c ≠ ',') :
    decodeElements type cs = .ok values ↔ ∃ n, elementLength type text = .ok n ∧
      ∃ first, decodeString (trimRight (text.take n)) = .ok first ∧
        ((trimLeft (text.drop n) = [] ∧ values = [.string first]) ∨
          ∃ rest others, trimLeft (text.drop n) = ',' :: rest ∧ decodeElements type rest = .ok others ∧
            values = .string first :: others) := by
  rw [decodeElements_eq h hne hcomma]
  simp only [Steps.bind_eq_ok]
  refine exists_congr fun n => and_congr_right fun _ => exists_congr fun first =>
    and_congr_right fun _ => ?_
  split
  · next hrest =>
    simp only [hrest, Except.ok.injEq, true_and, reduceCtorEq, false_and, exists_false, or_false]
    exact eq_comm
  · next rest hrest =>
    simp only [hrest, reduceCtorEq, false_and, false_or, List.cons.injEq, true_and, Steps.map_eq_ok]
    constructor
    · rintro ⟨others, hothers, rfl⟩
      exact ⟨rest, others, rfl, hothers, rfl⟩
    · rintro ⟨rest, others, rfl, hothers, rfl⟩
      exact ⟨others, hothers, rfl⟩
  · next hnil hcons =>
    simp only [reduceCtorEq, false_iff, not_or, not_and, not_exists]
    exact ⟨fun hrest => absurd hrest hnil, fun rest others hrest => absurd hrest (hcons rest)⟩

theorem decodeElements_strings {type : String} {cs : List Char} {values : List Value}
    (h : decodeElements type cs = .ok values) : ∀ v ∈ values, ∃ s, v = .string s := by
  induction cs using decodeElements.induct generalizing values with
  | case1 cs hcs =>
    rw [decodeElements_of_nil hcs] at h
    cases h
    simp
  | case2 cs rest hcs =>
    rw [decodeElements] at h
    split at h
    · next h' => simp [hcs] at h'
    · cases h
    · next h' => exact absurd hcs (h' rest)
  | case3 cs hnil hcomma ih =>
    have hhead : ∀ c ∈ (trimLeft cs).head?, c ≠ ',' := by
      intro c hc
      rintro rfl
      cases ht : trimLeft cs with
      | nil => exact hnil ht
      | cons d ds =>
        rw [ht] at hc
        cases hc
        exact hcomma ds ht
    obtain ⟨n, -, first, -, ⟨-, rfl⟩ | ⟨rest, others, hrest, hothers, rfl⟩⟩ :=
      (decodeElements_of_cons rfl hnil hhead).1 h
    · simp
    · intro v hv
      rcases List.mem_cons.1 hv with rfl | hv
      · exact ⟨first, rfl⟩
      · exact ih n rest hrest hothers v hv

theorem trimLeft_quote_append (s rest : List Char) : trimLeft (quote s ++ rest) = quote s ++ rest :=
  Text.trimLeft_of_head (by
    rintro c ⟨⟩
    decide)

/-- A quoted element ends at its quote, whatever follows. -/
theorem elementLength_quoted (type : String) {q : Char} {body : List Char} (quote : isQuote q = true)
    (inside : Escaped (· == q) body) (rest : List Char) :
    elementLength type (q :: (body ++ [q]) ++ rest) = .ok (q :: (body ++ [q])).length := by
  have hcons : q :: (body ++ [q]) ++ rest = q :: (body ++ q :: rest) := by simp
  have hlength := (lengthToQuote?_eq_some (ne_backslash_of_isQuote quote)).2 ⟨body, rest, rfl, inside, rfl⟩
  rw [hcons, elementLength, if_pos quote, hlength]
  simp

theorem elementLength_quote_append (type : String) (s rest : List Char) :
    elementLength type (quote s ++ rest) = .ok (quote s).length :=
  elementLength_quoted type (by decide) (escaped_quote_escape s) rest

/-- A quoted element in front is decoded, and the elements after its comma are. -/
theorem decodeElements_quote {type : String} {cs s rest : List Char} (h : trimLeft cs = quote s ++ rest)
    {values : List Value} : decodeElements type cs = .ok values ↔
      (trimLeft rest = [] ∧ values = [.string (String.ofList s)]) ∨
        ∃ rest' others, trimLeft rest = ',' :: rest' ∧ decodeElements type rest' = .ok others ∧
          values = .string (String.ofList s) :: others := by
  have hne : quote s ++ rest ≠ [] := by simp [quote]
  have hhead : ∀ c ∈ (quote s ++ rest).head?, c ≠ ',' := by
    rintro c ⟨⟩
    decide
  rw [decodeElements_of_cons h hne hhead]
  simp only [elementLength_quote_append, Except.ok.injEq, exists_eq_left', List.take_left',
    List.drop_left', Text.trimRight_of_last (trimmed_quote s).last, decodeString_quote]

/-- Quoted elements are decoded to their strings. -/
theorem decodeElements_quotes (type : String) (first : String) (others : List String) {cs : List Char}
    (h : trimLeft cs = quote first.toList ++ afterFirst (others.map fun s => quote s.toList)) :
    decodeElements type cs = .ok ((first :: others).map .string) := by
  induction others generalizing first cs with
  | nil =>
    refine (decodeElements_quote h).2 (.inl ⟨rfl, ?_⟩)
    simp
  | cons second others ih =>
    refine (decodeElements_quote h).2 (.inr
      ⟨' ' :: quote second.toList ++ afterFirst (others.map fun s => quote s.toList),
        (second :: others).map .string, ?_, ih second ?_, ?_⟩)
    · rw [List.map_cons, afterFirst, List.flatMap_cons]
      rfl
    · exact (Text.trimLeft_space _).trans (trimLeft_quote_append _ _)
    · simp

/-- Elements whose last has no end quote are not decoded. -/
theorem decodeElements_ne_ok (type : String) (front : List (List Char)) {text rest cs : List Char}
    (htext : Escaped (· == '"') text) (hrest : rest <+: text)
    (h : trimLeft cs = front.flatMap (fun s => quote s ++ [',', ' ']) ++ '"' :: rest)
    (values : List Value) : decodeElements type cs ≠ .ok values := by
  induction front generalizing cs values with
  | nil =>
    intro hd
    rw [List.flatMap_nil, List.nil_append] at h
    have hhead : ∀ c ∈ ('"' :: rest).head?, c ≠ ',' := by
      rintro c ⟨⟩
      decide
    obtain ⟨n, hn, -⟩ := (decodeElements_of_cons h (List.cons_ne_nil _ _) hhead).1 hd
    have hnone := lengthToQuote?_eq_none (by decide) htext hrest
    have hquote : isQuote '"' = true := by decide
    rw [elementLength, if_pos hquote, hnone] at hn
    cases hn
  | cons s front ih =>
    intro hd
    rw [List.flatMap_cons, List.append_assoc, List.append_assoc] at h
    have hcomma : trimLeft ([',', ' '] ++ (front.flatMap (fun s => quote s ++ [',', ' ']) ++ '"' :: rest)) =
        ',' :: ' ' :: (front.flatMap (fun s => quote s ++ [',', ' ']) ++ '"' :: rest) := rfl
    rcases (decodeElements_quote h).1 hd with ⟨hnil, -⟩ | ⟨rest', others, hcons, hothers, -⟩
    · rw [hcomma] at hnil
      cases hnil
    · rw [hcomma] at hcons
      obtain rfl := (List.cons.inj hcons).2
      refine ih ?_ others hothers
      refine (Text.trimLeft_space _).trans (Text.trimLeft_of_head ?_)
      cases front with
      | nil =>
        rintro c ⟨⟩
        decide
      | cons t front =>
        rintro c ⟨⟩
        decide

/-! ## Arrays of a type -/

theorem fits_of_decodeItems {p : Primitive} {type : String} (hp : literalType type = .ok p)
    {inner : List Char} {items : List Value} (h : decodeItems p type inner = .ok items) :
    ∀ v ∈ items, Fits p v := by
  unfold decodeItems at h
  split at h
  · next hstring =>
    intro v hv
    obtain ⟨s, rfl⟩ := decodeElements_strings h v hv
    exact .string s hstring
  split at h
  · cases h
    simp
  · intro v hv
    obtain ⟨part, -, hpart⟩ := Steps.exists_of_mem_right (Steps.mapM_eq_ok_iff.1 h) hv
    obtain ⟨q, hq, hv⟩ := decodeScalar_eq_ok.1 hpart
    rw [hp] at hq
    cases hq
    exact fits_of_decodeAs hv

theorem isBlank_eq_false_of_isLiteralPart {c : Char} (h : isLiteralPart c = true) :
    isBlank c = false := by
  by_contra hc
  rw [Bool.not_eq_false] at hc
  have hn : 0x2B ≤ c.toNat ∧ c.toNat ≤ 0x7A := by
    simp only [isLiteralPart, Char.isAlphanum, Char.isAlpha, Char.isUpper, Char.isLower,
      Char.isDigit, Bool.or_eq_true, Bool.and_eq_true, decide_eq_true_eq, beq_iff_eq,
      UInt32.le_iff_toNat_le] at h
    change (((((_ ≤ c.toNat ∧ c.toNat ≤ _) ∨ (_ ≤ c.toNat ∧ c.toNat ≤ _)) ∨
      (_ ≤ c.toNat ∧ c.toNat ≤ _)) ∨ _) ∨ _) ∨ _ at h
    rcases h with (((((⟨h1, h2⟩ | ⟨h1, h2⟩) | ⟨h1, h2⟩) | rfl) | rfl) | rfl)
    · exact ⟨le_trans (by decide) h1, le_trans h2 (by decide)⟩
    · exact ⟨le_trans (by decide) h1, le_trans h2 (by decide)⟩
    · exact ⟨le_trans (by decide) h1, le_trans h2 (by decide)⟩
    · decide
    · decide
    · decide
  simp only [isBlank, RosSchema.Text.blankRanges, List.any_cons, List.any_nil, Bool.or_false,
    Bool.or_eq_true, Bool.and_eq_true, decide_eq_true_eq] at hc
  omega

theorem trimmed_of_word {text : List Char} (h : Word isLiteralPart text) : Trimmed text where
  head c hc := isBlank_eq_false_of_isLiteralPart (h.all c (List.mem_of_mem_head? hc))
  last c hc := isBlank_eq_false_of_isLiteralPart (h.all c (List.mem_of_getLast? hc))

theorem trim_space {text : List Char} (h : Trimmed text) : trim (' ' :: text) = text := by
  rw [trim, Text.trimLeft_space]
  exact h.trim_eq

/-- The parts of an array literal between its commas are the texts of its items. -/
theorem forall₂_parts {p : Primitive} (hp : p.isString = false) {first : Value} {others : List Value}
    (hfits : ∀ v ∈ first :: others, Fits p v) :
    List.Forall₂ (fun part v => trim part = v.encode)
      (([',', ' '].intercalate ((first :: others).map Value.encode)).splitOn ',') (first :: others) := by
  have hword (v : Value) (hv : v ∈ first :: others) : Word isLiteralPart v.encode := (hfits v hv).word hp
  have hcomma (v : Value) (hv : v ∈ first :: others) : ',' ∉ v.encode := fun hm =>
    absurd ((hword v hv).all _ hm) (by decide)
  rw [List.map_cons, intercalate_cons, splitOn_cons_afterFirst (hcomma first List.mem_cons_self)]
  · refine .cons (trimmed_of_word (hword first List.mem_cons_self)).trim_eq ?_
    rw [List.map_map, List.forall₂_map_left_iff, List.forall₂_same]
    intro v hv
    exact trim_space (trimmed_of_word (hword v (List.mem_cons_of_mem _ hv)))
  · intro text ht
    obtain ⟨v, hv, rfl⟩ := List.mem_map.1 ht
    exact hcomma v (List.mem_cons_of_mem _ hv)

theorem decodeScalar_parts {p : Primitive} {type : String} (hp : literalType type = .ok p)
    {parts : List (List Char)} {items : List Value}
    (h : List.Forall₂ (fun part v => trim part = v.encode) parts items)
    (hfits : ∀ v ∈ items, Fits p v) (hfinite : ∀ v ∈ items, IsFinite v) :
    List.Forall₂ (fun part w => decodeScalar type (trim part) = .ok w) parts (items.map Value.normal) := by
  induction h with
  | nil => exact .nil
  | @cons part v parts items hpart _ ih =>
    have hread := decodeAs_encode (hfits v List.mem_cons_self) (hfinite v List.mem_cons_self) type
    refine .cons (decodeScalar_eq_ok.2 ⟨p, hp, ?_⟩) (ih
      (fun u hu => hfits u (List.mem_cons_of_mem _ hu)) fun u hu => hfinite u (List.mem_cons_of_mem _ hu))
    rw [Text.trim_trim, hpart]
    exact hread

theorem isEmpty_trim_intercalate {p : Primitive} (hp : p.isString = false) {first : Value}
    {others : List Value} (hfits : ∀ v ∈ first :: others, Fits p v) :
    (trim ([',', ' '].intercalate ((first :: others).map Value.encode))).isEmpty = false := by
  have hword := (hfits first List.mem_cons_self).word hp
  obtain ⟨c, cs, hcs, hc⟩ := hword.exists_cons
  rw [List.isEmpty_eq_false_iff, ne_eq, Text.trim_eq_nil_iff, List.map_cons, intercalate_cons, hcs]
  intro h
  have hblank := h c (by simp)
  simp [isBlank_eq_false_of_isLiteralPart hc] at hblank

/-- All items of a string type are strings. -/
theorem exists_strings {p : Primitive} (hp : p.isString = true) {items : List Value}
    (hfits : ∀ v ∈ items, Fits p v) : ∃ strings : List String, items = strings.map .string := by
  induction items with
  | nil => exact ⟨[], rfl⟩
  | cons v items ih =>
    obtain ⟨s, rfl⟩ := (hfits v List.mem_cons_self).isString.1 hp
    obtain ⟨strings, rfl⟩ := ih fun u hu => hfits u (List.mem_cons_of_mem _ hu)
    exact ⟨s :: strings, rfl⟩

theorem encode_strings (strings : List String) :
    (strings.map Value.string).map Value.encode = strings.map fun s => quote s.toList := by
  rw [List.map_map]
  rfl

/-- The texts of finite items are decoded to their normal forms. -/
theorem decodeItems_encode {p : Primitive} {type : String} (hp : literalType type = .ok p)
    {items : List Value} (hfits : ∀ v ∈ items, Fits p v) (hfinite : ∀ v ∈ items, IsFinite v) :
    decodeItems p type ([',', ' '].intercalate (items.map Value.encode)) = .ok (items.map Value.normal) := by
  unfold decodeItems
  cases hstring : p.isString with
  | true =>
    obtain ⟨strings, rfl⟩ := exists_strings hstring hfits
    have hnormal : (strings.map Value.string).map Value.normal = strings.map .string := by
      rw [List.map_map]
      exact List.map_congr_left fun s _ => by rw [Function.comp_apply, Value.normal]
    rw [if_pos rfl, encode_strings, hnormal]
    cases strings with
    | nil => exact decodeElements_of_nil rfl
    | cons first others =>
      refine decodeElements_quotes type first others ?_
      rw [List.map_cons, intercalate_cons, trimLeft_quote_append]
  | false =>
    cases items with
    | nil => rfl
    | cons first others =>
      have hparts := decodeScalar_parts hp (forall₂_parts hstring hfits) hfits hfinite
      rw [isEmpty_trim_intercalate hstring hfits]
      exact Steps.mapM_eq_ok_iff.2 hparts

/-- Only the texts of finite items are decoded. -/
theorem isFinite_of_decodeItems {p : Primitive} {type : String} (hp : literalType type = .ok p)
    {items ws : List Value} (hfits : ∀ v ∈ items, Fits p v)
    (h : decodeItems p type ([',', ' '].intercalate (items.map Value.encode)) = .ok ws) :
    ∀ v ∈ items, IsFinite v := by
  intro v hv
  unfold decodeItems at h
  cases hstring : p.isString with
  | true =>
    obtain ⟨s, rfl⟩ := (hfits v hv).isString.1 hstring
    trivial
  | false =>
    cases items with
    | nil => simp at hv
    | cons first others =>
      rw [hstring, isEmpty_trim_intercalate hstring hfits] at h
      obtain ⟨part, hmem, hpart⟩ := Steps.exists_of_mem_right (forall₂_parts hstring hfits) hv
      obtain ⟨w, -, hw⟩ := Steps.exists_of_mem_left (Steps.mapM_eq_ok_iff.1 h) hmem
      obtain ⟨q, hq, hw⟩ := decodeScalar_eq_ok.1 hw
      rw [hp] at hq
      cases hq
      rw [Text.trim_trim, hpart] at hw
      exact isFinite_of_decodeAs_encode (hfits v hv) hw

/-- What is decoded for an array type is an array of values of the type. -/
theorem fits_of_decodeArray {type : String} {raw : List Char} {v : Value}
    (h : decodeArray type raw = .ok v) :
    ∃ p items, literalType type = .ok p ∧ v = .array items ∧ ∀ u ∈ items, Fits p u := by
  obtain ⟨inner, -, p, hp, items, hitems, rfl⟩ := decodeArray_eq_ok.1 h
  exact ⟨p, items, hp, rfl, fits_of_decodeItems hp hitems⟩

theorem trim_encode_array (items : List Value) :
    trim (Value.array items).encode = (Value.array items).encode := by
  rw [encode_array]
  exact (trimmed_brackets _).trim_eq

/-- The canonical text of an array of finite items is decoded to its normal form. -/
theorem decodeArray_encode {p : Primitive} {type : String} (hp : literalType type = .ok p)
    {items : List Value} (hfits : ∀ v ∈ items, Fits p v) (hfinite : ∀ v ∈ items, IsFinite v) :
    decodeArray type (Value.array items).encode = .ok (Value.array items).normal := by
  refine decodeArray_eq_ok.2 ⟨_, ?_, p, hp, _, decodeItems_encode hp hfits hfinite, ?_⟩
  · rw [trim_encode_array, encode_array, insideBrackets?_brackets]
  · rw [Value.normal, Value.normalItems_eq_map]

/-- Only the canonical text of an array of finite items is decoded. -/
theorem isFinite_of_decodeArray_encode {p : Primitive} {type : String} (hp : literalType type = .ok p)
    {items : List Value} (hfits : ∀ v ∈ items, Fits p v) {w : Value}
    (h : decodeArray type (Value.array items).encode = .ok w) : ∀ v ∈ items, IsFinite v := by
  obtain ⟨inner, hinner, q, hq, ws, hws, -⟩ := decodeArray_eq_ok.1 h
  rw [hp] at hq
  cases hq
  rw [trim_encode_array, encode_array, insideBrackets?_brackets] at hinner
  cases hinner
  exact isFinite_of_decodeItems hp hfits hws

section SameText

variable {p : Primitive} {items items' : List Value}

/-- Strings are finite, so their text is decoded to them. -/
theorem map_normal_eq_of_isString (hp : p.isString = true) (hfits : ∀ v ∈ items, Fits p v)
    (hfits' : ∀ v ∈ items', Fits p v)
    (h : [',', ' '].intercalate (items.map Value.encode) = [',', ' '].intercalate (items'.map Value.encode)) :
    items.map Value.normal = items'.map Value.normal := by
  obtain ⟨type, htype⟩ : ∃ type, literalType type = .ok p := ⟨p.tag, by cases p <;> first | rfl | cases hp⟩
  have hfinite {items : List Value} (hfits : ∀ v ∈ items, Fits p v) : ∀ v ∈ items, IsFinite v := by
    intro v hv
    obtain ⟨s, rfl⟩ := (hfits v hv).isString.1 hp
    trivial
  have hread := decodeItems_encode htype hfits (hfinite hfits)
  rw [h, decodeItems_encode htype hfits' (hfinite hfits')] at hread
  exact (Except.ok.inj hread).symm

theorem intercalate_encode_ne_nil (hp : p.isString = false) {first : Value} {others : List Value}
    (hfits : ∀ v ∈ first :: others, Fits p v) :
    [',', ' '].intercalate ((first :: others).map Value.encode) ≠ [] := by
  intro hnil
  have hnot := isEmpty_trim_intercalate hp hfits
  rw [hnil] at hnot
  exact absurd hnot (by decide)

/-- The text of other items has their texts as its parts, one by one. -/
theorem map_normal_eq_of_words (hp : p.isString = false) (hfits : ∀ v ∈ items, Fits p v)
    (hfits' : ∀ v ∈ items', Fits p v)
    (h : [',', ' '].intercalate (items.map Value.encode) = [',', ' '].intercalate (items'.map Value.encode)) :
    items.map Value.normal = items'.map Value.normal := by
  cases items with
  | nil =>
    cases items' with
    | nil => rfl
    | cons first' others' => exact absurd h.symm (intercalate_encode_ne_nil hp hfits')
  | cons first others =>
    cases items' with
    | nil => exact absurd h (intercalate_encode_ne_nil hp hfits)
    | cons first' others' =>
      have hparts := forall₂_parts hp hfits
      rw [h] at hparts
      have hboth := List.forall₂_iff_get.1 hparts
      have hboth' := List.forall₂_iff_get.1 (forall₂_parts hp hfits')
      rw [Steps.map_eq_map_iff, List.forall₂_iff_get]
      refine ⟨hboth.1.symm.trans hboth'.1, fun i hi hi' => ?_⟩
      refine (hfits _ (List.get_mem _ _)).normal_eq (hfits' _ (List.get_mem _ _)) ?_
      have hlt := hboth.1.symm ▸ hi
      exact (hboth.2 i hlt hi).symm.trans (hboth'.2 i hlt hi')

/-- Arrays of one type that have one text are the same but for the signs of zeros. -/
theorem normal_array_eq (hfits : ∀ v ∈ items, Fits p v) (hfits' : ∀ v ∈ items', Fits p v)
    (h : (Value.array items).encode = (Value.array items').encode) :
    (Value.array items).normal = (Value.array items').normal := by
  rw [encode_array, encode_array] at h
  have hinner := List.append_cancel_right (List.cons.inj h).2
  rw [Value.normal, Value.normal, Value.normalItems_eq_map, Value.normalItems_eq_map]
  congr 1
  cases hp : p.isString with
  | true => exact map_normal_eq_of_isString hp hfits hfits' hinner
  | false => exact map_normal_eq_of_words hp hfits hfits' hinner

end SameText

/-! ## Arrays cut off inside a string -/

/-- The text of an array of strings that ends inside the last of them. -/
def cutText (front : List (List Char)) (s : List Char) : List Char :=
  '[' :: (front.flatMap (fun t => quote t ++ [',', ' ']) ++ '"' :: s.flatMap escape)

/-- An array that ends inside a string is no array literal. -/
theorem decodeArray_cutText_ne_ok {p : Primitive} {type : String} (hp : literalType type = .ok p)
    (hstring : p.isString = true) (front : List (List Char)) (s : List Char) (v : Value) :
    decodeArray type (cutText front s) ≠ .ok v := by
  intro h
  obtain ⟨inner, hinner, q, hq, items, hitems, -⟩ := decodeArray_eq_ok.1 h
  rw [hp] at hq
  cases hq
  have htrim : trim (cutText front s) =
      '[' :: (front.flatMap (fun t => quote t ++ [',', ' ']) ++ '"' :: trimRight (s.flatMap escape)) := by
    have hhead : trimLeft (cutText front s) = cutText front s := Text.trimLeft_of_head (by
      rintro c ⟨⟩
      decide)
    rw [trim, hhead, cutText, ← List.cons_append, Text.trimRight_append_cons (by decide),
      List.cons_append]
  rw [htrim, insideBrackets?] at hinner
  split at hinner
  · next hlast =>
    -- the closing bracket can only be one of the characters of the string
    cases hinner
    rw [List.getLast?_append_of_ne_nil _ (List.cons_ne_nil _ _)] at hlast
    have hne : trimRight (s.flatMap escape) ≠ [] := by
      intro hnil
      simp [hnil] at hlast
    rw [List.dropLast_append_of_ne_nil (List.cons_ne_nil _ _), List.dropLast_cons_of_ne_nil hne,
      decodeItems, if_pos hstring] at hitems
    have hfront : (trimRight (s.flatMap escape)).dropLast <+: s.flatMap escape :=
      List.IsPrefix.trans (List.dropLast_prefix _) (Text.trimRight_front _)
    refine decodeElements_ne_ok type front (escaped_quote_escape s) hfront
      (Text.trimLeft_of_head ?_) items hitems
    cases front with
    | nil =>
      rintro c ⟨⟩
      decide
    | cons t front =>
      rintro c ⟨⟩
      decide
  · cases hinner

end RosSchema.Literal

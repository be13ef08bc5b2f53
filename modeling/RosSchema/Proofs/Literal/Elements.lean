import RosSchema.Proofs.Literal.Arrays

/-!
# Elements in the text around them

What is decoded as the elements of an array is not decoded together with text behind a closing bracket,
and no comment mark is escaped in it.
-/

namespace RosSchema.Literal

open RosSchema.Text (trimLeft trimRight isBlank)

/-! ## Decoded strings -/

/-- A text in which no comment mark is escaped, and no backslash stands alone at the end. -/
inductive PlainMarks : List Char → Prop where
  | nil : PlainMarks []
  | pair {c : Char} {cs : List Char} (other : c ≠ '#') (rest : PlainMarks cs) : PlainMarks ('\\' :: c :: cs)
  | char {c : Char} {cs : List Char} (plain : c ≠ '\\') (rest : PlainMarks cs) : PlainMarks (c :: cs)

namespace PlainMarks

variable {as bs : List Char}

theorem append (ha : PlainMarks as) (hb : PlainMarks bs) : PlainMarks (as ++ bs) := by
  induction ha with
  | nil => exact hb
  | pair other _ ih => exact .pair other ih
  | char plain _ ih => exact .char plain ih

theorem of_all {cs : List Char} (h : ∀ c ∈ cs, c ≠ '\\') : PlainMarks cs := by
  induction cs with
  | nil => exact .nil
  | cons c cs ih => exact .char (h c List.mem_cons_self) (ih fun d hd => h d (List.mem_cons_of_mem _ hd))

theorem of_blanks {cs : List Char} (h : ∀ c ∈ cs, isBlank c = true) : PlainMarks cs := by
  refine of_all fun c hc => ?_
  rintro rfl
  exact absurd (h _ hc) (by decide)

theorem of_trimRight {cs : List Char} (h : PlainMarks (trimRight cs)) : PlainMarks cs := by
  obtain ⟨blanks, heq, hall⟩ := Text.exists_trimRight_append cs
  rw [heq]
  exact h.append (of_blanks hall)

theorem of_trimLeft {cs : List Char} (h : PlainMarks (trimLeft cs)) : PlainMarks cs := by
  obtain ⟨blanks, heq, hall⟩ := Text.exists_append_trimLeft cs
  rw [heq]
  exact (of_blanks hall).append h

theorem escaped {cs : List Char} (h : PlainMarks cs) : Escaped (fun _ => false) cs := by
  induction h with
  | nil => exact .nil
  | pair _ _ ih => exact .pair _ ih
  | char plain _ ih => exact .char plain rfl ih

/-- With no escaped comment mark in it, a text that no comment mark ends has none. -/
theorem not_mem {stop : Char → Bool} (hstop : stop '#' = true) (h : PlainMarks as)
    (hescaped : Escaped stop (as ++ bs)) : '#' ∉ as := by
  induction h with
  | nil => simp
  | pair other _ ih => simp [ih hescaped.of_pair, other.symm]
  | char plain _ ih =>
    obtain ⟨inside, rest⟩ := Escaped.of_char plain hescaped
    refine List.not_mem_cons_of_ne_of_not_mem ?_ (ih rest)
    rintro rfl
    simp [hstop] at inside

end PlainMarks

/-- There is no escape for a comment mark. -/
theorem Units.plainMarks {q : Option Char} {cs decoded : List Char} (h : Units q cs decoded) :
    PlainMarks cs := by
  induction h with
  | nil => exact .nil
  | char _ plain _ ih => exact .char plain ih
  | escape text escape _ ih =>
    obtain ⟨c, digits, rfl, hmark, hdigits⟩ := escape.exists_cons
    have hplain : PlainMarks digits := .of_all fun x hx => (plain_of_isAlphanum (hdigits x hx)).1
    exact .pair hmark (hplain.append ih)

/-- No comment mark is escaped in what is decoded as a string. -/
theorem plainMarks_of_decodeString {text : List Char} {s : String} (h : decodeString text = .ok s) :
    PlainMarks text := by
  by_cases hbare : IsBare text
  · exact ((decodeString_bare hbare).1 h).plainMarks
  · simp only [IsBare, not_forall, Bool.not_eq_false] at hbare
    obtain ⟨q, hhead, hquote⟩ := hbare
    obtain ⟨rest, rfl⟩ := List.head?_eq_some_iff.1 hhead
    obtain ⟨body, rfl, hbody⟩ := (unquote_eq_ok hquote).1 (decodeString_eq_ok.1 h)
    have hplain := ne_backslash_of_isQuote hquote
    exact .char hplain (hbody.plainMarks.append (.char hplain .nil))

/-! ## Lengths of elements -/

theorem bareLength_char {c : Char} (plain : c ≠ '\\') (cs : List Char) :
    bareLength (c :: cs) = if c = ',' || c = ']' || c = '#' then 0 else bareLength cs + 1 :=
  bareLength.eq_3 _ _ fun _ _ h _ => plain h

/-- Bare text is as long with a closing bracket after the text. -/
theorem bareLength_bracket {cs : List Char} (h : Escaped (fun _ => false) (cs.take (bareLength cs)))
    (more : List Char) : bareLength (cs ++ ']' :: more) = bareLength cs ∧ bareLength cs ≤ cs.length := by
  induction cs using escapes_induction with
  | nil => exact ⟨rfl, le_rfl⟩
  | dangling =>
    cases h with
    | char plain _ _ => exact absurd rfl plain
  | pair c cs ih =>
    rw [bareLength, List.take_succ_cons, List.take_succ_cons] at h
    obtain ⟨hlength, hle⟩ := ih h.of_pair
    refine ⟨?_, ?_⟩
    · rw [List.cons_append, List.cons_append, bareLength, bareLength, hlength]
    · rw [bareLength, List.length_cons, List.length_cons]
      omega
  | char c cs plain ih =>
    rw [List.cons_append, bareLength_char plain, bareLength_char plain] at *
    split at h
    · next hc => simp [hc]
    · next hc =>
      rw [List.take_succ_cons] at h
      obtain ⟨hlength, hle⟩ := ih (Escaped.of_char plain h).2
      rw [if_neg hc, if_neg hc, hlength, List.length_cons]
      exact ⟨rfl, by omega⟩

/-- An element that is decoded is as long with a closing bracket after the text. -/
theorem elementLength_bracket {type : String} {cs : List Char} {n : Nat} {first : String}
    (h : elementLength type cs = .ok n)
    (hfirst : decodeString (trimRight (cs.take n)) = .ok first) (more : List Char) :
    elementLength type (cs ++ ']' :: more) = .ok n ∧ n ≤ cs.length := by
  cases cs with
  | nil =>
    cases h
    exact ⟨rfl, le_rfl⟩
  | cons c rest =>
    rw [elementLength] at h
    rw [List.cons_append, elementLength]
    split at h
    · next hquote =>
      rw [if_pos hquote]
      split at h
      · next k hk =>
        cases h
        obtain ⟨as, bs, rfl, has, rfl⟩ := (lengthToQuote?_eq_some (ne_backslash_of_isQuote hquote)).1 hk
        have hmore := (lengthToQuote?_eq_some (ne_backslash_of_isQuote hquote)).2
          ⟨as, bs ++ ']' :: more, rfl, has, rfl⟩
        rw [List.append_assoc, List.cons_append, hmore]
        refine ⟨rfl, ?_⟩
        simp
      · cases h
    · next hquote =>
      cases h
      have hescaped := (PlainMarks.of_trimRight (plainMarks_of_decodeString hfirst)).escaped
      obtain ⟨hlength, hle⟩ := bareLength_bracket hescaped more
      rw [if_neg hquote]
      exact ⟨congrArg Except.ok hlength, hle⟩

/-! ## Elements and what follows them -/

structure FirstElement (type : String) (cs : List Char) (n : Nat) : Prop where
  ne_nil : cs ≠ []
  head : ∀ c ∈ cs.head?, c ≠ ','
  length : elementLength type cs = .ok n

/-- What is decoded as elements is blank, or it is an element that is decoded to a string and then nothing
or a comma and what is decoded as elements. -/
theorem decodeElements_induction {type : String} {motive : List Char → Prop}
    (blank : ∀ cs, trimLeft cs = [] → motive cs)
    (last : ∀ cs n first, FirstElement type (trimLeft cs) n →
      decodeString (trimRight ((trimLeft cs).take n)) = .ok first →
      trimLeft ((trimLeft cs).drop n) = [] → motive cs)
    (more : ∀ cs n first rest, FirstElement type (trimLeft cs) n →
      decodeString (trimRight ((trimLeft cs).take n)) = .ok first →
      trimLeft ((trimLeft cs).drop n) = ',' :: rest → motive rest → motive cs)
    {cs : List Char} {values : List Value} (h : decodeElements type cs = .ok values) : motive cs := by
  induction cs using decodeElements.induct generalizing values with
  | case1 cs hcs => exact blank cs hcs
  | case2 cs rest hcs =>
    rw [decodeElements] at h
    split at h
    · next h' => simp [hcs] at h'
    · cases h
    · next h' => exact absurd hcs (h' rest)
  | case3 cs hnil hcomma ih =>
    have hhead : ∀ c ∈ (trimLeft cs).head?, c ≠ ',' := by
      intro c hc
      rintro rfl
      obtain ⟨tail, htail⟩ := List.head?_eq_some_iff.1 hc
      exact hcomma tail htail
    obtain ⟨n, hn, first, hfirst, hafter⟩ := (decodeElements_of_cons rfl hnil hhead).1 h
    rcases hafter with ⟨hend, -⟩ | ⟨rest, others, hrest, hothers, -⟩
    · exact last cs n first ⟨hnil, hhead, hn⟩ hfirst hend
    · exact more cs n first rest ⟨hnil, hhead, hn⟩ hfirst hrest (ih n rest hrest hothers)

/-- After a first element stands what the decoder goes on with. -/
theorem FirstElement.after_of_decodeElements {type : String} {cs text : List Char} {n : Nat}
    (h : FirstElement type text n) (hcs : trimLeft cs = text) {values : List Value}
    (hdecode : decodeElements type cs = .ok values) : trimLeft (text.drop n) = [] ∨
      ∃ rest others, trimLeft (text.drop n) = ',' :: rest ∧ decodeElements type rest = .ok others := by
  obtain ⟨n', hn, first, -, hafter⟩ := (decodeElements_of_cons hcs h.ne_nil h.head).1 hdecode
  obtain rfl := Except.ok.inj (h.length.symm.trans hn)
  rcases hafter with ⟨hend, -⟩ | ⟨rest, others, hrest, hothers, -⟩
  · exact .inl hend
  · exact .inr ⟨rest, others, hrest, hothers⟩

/-- A closing bracket cannot stand after a first element. -/
theorem FirstElement.not_bracket {type : String} {cs text more : List Char} {n : Nat}
    (h : FirstElement type text n) (hcs : trimLeft cs = text)
    (hafter : trimLeft (text.drop n) = ']' :: more) (values : List Value) :
    decodeElements type cs ≠ .ok values := by
  intro hdecode
  rcases h.after_of_decodeElements hcs hdecode with hend | ⟨rest, others, hrest, -⟩
  · simp [hend] at hafter
  · simp [hrest] at hafter

theorem trimLeft_bracket (more : List Char) : trimLeft (']' :: more) = ']' :: more :=
  Text.trimLeft_of_head (by
    rintro c ⟨⟩
    decide)

/-- A closing bracket is no element, and none can be missing before one. -/
theorem decodeElements_bracket (type : String) {cs more : List Char} (h : trimLeft cs = ']' :: more)
    (values : List Value) : decodeElements type cs ≠ .ok values := by
  have hempty : FirstElement type (']' :: more) 0 := by
    refine ⟨List.cons_ne_nil _ _, ?_, rfl⟩
    rintro c ⟨⟩
    decide
  exact hempty.not_bracket h (trimLeft_bracket more) values

/-- A first element that is decoded is one with a closing bracket after the text as well. -/
theorem FirstElement.bracket {type : String} {cs : List Char} {n : Nat} {first : String}
    (h : FirstElement type cs n) (hfirst : decodeString (trimRight (cs.take n)) = .ok first)
    (more : List Char) : FirstElement type (cs ++ ']' :: more) n ∧ n ≤ cs.length := by
  obtain ⟨hlength, hle⟩ := elementLength_bracket h.length hfirst more
  refine ⟨⟨by simp, ?_, hlength⟩, hle⟩
  rw [List.head?_append_of_ne_nil _ h.ne_nil]
  exact h.head

/-- No more is decoded as elements behind a closing bracket. -/
theorem decodeElements_bracket_append {type : String} {inner : List Char} {values : List Value}
    (h : decodeElements type inner = .ok values) (more : List Char) :
    ∀ values', decodeElements type (inner ++ ']' :: more) ≠ .ok values' := by
  refine decodeElements_induction
    (motive := fun cs => ∀ values', decodeElements type (cs ++ ']' :: more) ≠ .ok values')
    ?blank ?last ?more h
  case blank =>
    intro cs hcs values'
    have hbracket : trimLeft (cs ++ ']' :: more) = ']' :: more := by
      rw [Text.trimLeft_append_cons (by decide), hcs, List.nil_append]
    exact decodeElements_bracket type hbracket values'
  case last =>
    intro cs n first hn hfirst hend values'
    obtain ⟨hn', hle⟩ := hn.bracket hfirst more
    have hbracket : trimLeft ((trimLeft cs ++ ']' :: more).drop n) = ']' :: more := by
      rw [List.drop_append_of_le_length hle, Text.trimLeft_append_cons (by decide), hend, List.nil_append]
    exact hn'.not_bracket (Text.trimLeft_append_cons (by decide) cs more) hbracket values'
  case more =>
    intro cs n first rest hn hfirst hrest ih values' hdecode
    obtain ⟨hn', hle⟩ := hn.bracket hfirst more
    have hafter := hn'.after_of_decodeElements (Text.trimLeft_append_cons (by decide) cs more) hdecode
    rw [List.drop_append_of_le_length hle, Text.trimLeft_append_cons (by decide), hrest] at hafter
    rcases hafter with hnil | ⟨rest', others, heq, hothers⟩
    · cases hnil
    · obtain rfl := (List.cons.inj heq).2
      exact ih others hothers

/-- No comment mark is escaped in what is decoded as elements. -/
theorem plainMarks_of_decodeElements {type : String} {cs : List Char} {values : List Value}
    (h : decodeElements type cs = .ok values) : PlainMarks cs := by
  refine decodeElements_induction ?blank ?last ?more h
  case blank =>
    intro cs hcs
    refine .of_trimLeft ?_
    rw [hcs]
    exact .nil
  case last =>
    intro cs n first _ hfirst hend
    have hafter : PlainMarks ((trimLeft cs).drop n) := .of_trimLeft (by rw [hend]; exact .nil)
    have htext := (PlainMarks.of_trimRight (plainMarks_of_decodeString hfirst)).append hafter
    rw [List.take_append_drop] at htext
    exact .of_trimLeft htext
  case more =>
    intro cs n first rest _ hfirst hrest ih
    have hafter : PlainMarks ((trimLeft cs).drop n) :=
      .of_trimLeft (by rw [hrest]; exact .char (by decide) ih)
    have htext := (PlainMarks.of_trimRight (plainMarks_of_decodeString hfirst)).append hafter
    rw [List.take_append_drop] at htext
    exact .of_trimLeft htext

end RosSchema.Literal

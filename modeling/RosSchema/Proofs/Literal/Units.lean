import RosSchema.Literal.Decode
import RosSchema.Proofs.Literal.Digits
import RosSchema.Proofs.Text.Reading

/-!
# Units of strings

What stands between the quotes of a string is a sequence of units: characters that stand for themselves, and
escapes. The decoder reads exactly such sequences, and gives the characters of their units.
-/

namespace RosSchema.Literal

open Reader (Word splits_iff)

/-! ## The grammar -/

/-- What can follow a backslash on its own, and the character that both stand for. -/
def letterEscapes : List (Char × Char) :=
  [('\'', '\''), ('"', '"'), ('\\', '\\'), ('a', '\x07'), ('b', '\x08'), ('f', '\x0c'), ('n', '\n'),
   ('r', '\r'), ('t', '\t'), ('v', '\x0b')]

/-- The letters in front of hexadecimal digits, and the number of these. -/
def hexEscapes : List (Char × Nat) := [('x', 2), ('u', 4), ('U', 8)]

/-- An escape after its backslash, in front of a text, and the character that it stands for. An octal escape
has three digits, or as many as there are. -/
inductive IsEscape (rest : List Char) : List Char → Char → Prop where
  | letter {c d : Char} (letter : (c, d) ∈ letterEscapes) : IsEscape rest [c] d
  | octal {digits : List Char} {code : Nat} (nonempty : digits ≠ []) (length : digits.length ≤ 3)
      (value : Digits 8 digits code)
      (last : digits.length = 3 ∨ ∀ c ∈ rest.head?, ∀ d, ¬ IsDigit 8 c d) : IsEscape rest digits (Char.ofNat code)
  | hex {c : Char} {width code : Nat} {digits : List Char} (letter : (c, width) ∈ hexEscapes)
      (length : digits.length = width) (value : Digits 16 digits code) (valid : code.isValidChar) :
      IsEscape rest (c :: digits) (Char.ofNat code)

/-- A sequence of units and the characters that they stand for. A quote of the text does not stand for
itself. -/
inductive Units (quote : Option Char) : List Char → List Char → Prop where
  | nil : Units quote [] []
  | char {c : Char} {cs decoded : List Char} (inside : some c ≠ quote) (plain : c ≠ '\\')
      (rest : Units quote cs decoded) : Units quote (c :: cs) (c :: decoded)
  | escape (text : List Char) {d : Char} {cs decoded : List Char} (escape : IsEscape cs text d)
      (rest : Units quote cs decoded) : Units quote ('\\' :: (text ++ cs)) (d :: decoded)

/-- An escape is one character, which is no mark of comments, and then digits, if any. -/
theorem IsEscape.exists_cons {rest text : List Char} {d : Char} (h : IsEscape rest text d) :
    ∃ c digits, text = c :: digits ∧ c ≠ '#' ∧ ∀ x ∈ digits, x.isAlphanum = true := by
  cases h with
  | @letter c d letter =>
    refine ⟨c, [], rfl, ?_, by simp⟩
    rintro rfl
    simp [letterEscapes] at letter
  | octal nonempty _ value _ =>
    obtain ⟨c, digits, rfl⟩ := List.exists_cons_of_ne_nil nonempty
    have hall := value.isAlphanum (by decide)
    refine ⟨c, digits, rfl, ?_, fun x hx => hall x (List.mem_cons_of_mem c hx)⟩
    rintro rfl
    exact absurd (hall '#' List.mem_cons_self) (by decide)
  | @hex c width code digits letter _ value _ =>
    refine ⟨c, digits, rfl, ?_, value.isAlphanum le_rfl⟩
    rintro rfl
    simp [hexEscapes] at letter

/-! ## Classes of escapes -/

theorem letterEscape?_eq_some {c d : Char} : letterEscape? c = some d ↔ (c, d) ∈ letterEscapes := by
  constructor
  · intro h
    unfold letterEscape? at h
    split at h
    all_goals first | (cases h; decide) | cases h
  · intro h
    simp only [letterEscapes, List.mem_cons, Prod.mk.injEq, List.not_mem_nil, or_false] at h
    rcases h with h | h | h | h | h | h | h | h | h | h
    all_goals
      obtain ⟨rfl, rfl⟩ := h
      rfl

theorem hexWidth?_eq_some {c : Char} {width : Nat} : hexWidth? c = some width ↔ (c, width) ∈ hexEscapes := by
  constructor
  · intro h
    unfold hexWidth? at h
    split at h
    all_goals first | (cases h; decide) | cases h
  · intro h
    simp only [hexEscapes, List.mem_cons, Prod.mk.injEq, List.not_mem_nil, or_false] at h
    rcases h with h | h | h
    all_goals
      obtain ⟨rfl, rfl⟩ := h
      rfl

theorem letterEscape?_of_hexWidth? {c : Char} {width : Nat} (h : hexWidth? c = some width) :
    letterEscape? c = none := by
  unfold hexWidth? at h
  split at h <;> first | rfl | cases h

theorem letterEscape?_of_isOctalDigit {c : Char} (h : isOctalDigit c = true) : letterEscape? c = none := by
  unfold letterEscape?
  split <;> first | rfl | exact absurd h (by decide)

theorem hexWidth?_of_isOctalDigit {c : Char} (h : isOctalDigit c = true) : hexWidth? c = none := by
  unfold hexWidth?
  split <;> first | rfl | exact absurd h (by decide)

theorem digits_eight {digits : List Char} {n : Nat} :
    Digits 8 digits n ↔ (∀ c ∈ digits, isOctalDigit c = true) ∧ n = Nat.ofDigitChars 8 digits 0 :=
  digits_iff_ofDigitChars fun _ _ => isDigit_eight

theorem isOctalDigit_eq_false {c : Char} : isOctalDigit c = false ↔ ∀ d, ¬ IsDigit 8 c d := by
  simp [isDigit_eight]

/-- An octal escape takes its digits, unless more than it has could follow. -/
theorem takeWhile_isOctalDigit {digits body : List Char} (hdigits : Word isOctalDigit digits)
    (hlength : digits.length ≤ 3) (hlast : digits.length = 3 ∨ ∀ c ∈ body.head?, isOctalDigit c = false) :
    ((digits ++ body).take 3).takeWhile isOctalDigit = digits := by
  rw [List.take_append, List.take_of_length_le hlength]
  refine (splits_iff.1 ⟨rfl, hdigits.all, ?_⟩).1
  rw [List.head?_take]
  rcases hlast with hthree | hlast
  · simp [hthree]
  · split
    · simp
    · exact hlast

/-! ## Reading escapes -/

theorem map_scalar_eq_ok {body : String} {code width n : Nat} {d : Char} :
    (scalar body code).map (·, width) = .ok (d, n) ↔ code.isValidChar ∧ d = Char.ofNat code ∧ n = width := by
  rw [scalar]
  split
  · next h => simp [h, Except.map, eq_comm]
  · next h => simp [h, Except.map]

/-- Octal codes are small. -/
theorem isValidChar_of_octal {digits : List Char} {code : Nat} (h : Digits 8 digits code)
    (hlength : digits.length ≤ 3) : code.isValidChar := by
  have hle : 8 ^ digits.length ≤ 8 ^ 3 := Nat.pow_le_pow_right (by decide) hlength
  exact .inl (by have := h.lt (by decide); omega)

theorem readEscape_letter {body : String} {c d : Char} {rest : List Char} (h : letterEscape? c = some d) :
    readEscape body (c :: rest) = .ok (d, 1) := by
  simp only [readEscape, h]

theorem readEscape_hex {body : String} {c d : Char} {rest : List Char} {width n : Nat}
    (hwidth : hexWidth? c = some width) :
    readEscape body (c :: rest) = .ok (d, n) ↔
      ∃ code, Digits 16 (rest.take width) code ∧ (rest.take width).length = width ∧ code.isValidChar ∧
        d = Char.ofNat code ∧ n = width + 1 := by
  simp only [readEscape, letterEscape?_of_hexWidth? hwidth, hwidth, digits_sixteen]
  cases hexNumber? (rest.take width) with
  | none => simp
  | some code =>
    simp only [Option.some.injEq, exists_eq_left']
    split
    · next hlength => simp only [map_scalar_eq_ok, hlength, true_and]
    · next hlength => simp only [hlength, false_and, reduceCtorEq]

/-- Octal escapes never fail, as all their codes are characters. -/
theorem readEscape_octal {body : String} {c d : Char} {rest digits : List Char} {n : Nat}
    (hletter : letterEscape? c = none) (hwidth : hexWidth? c = none)
    (hdigits : digits = ((c :: rest).take 3).takeWhile isOctalDigit) :
    readEscape body (c :: rest) = .ok (d, n) ↔
      isOctalDigit c = true ∧ d = Char.ofNat (Nat.ofDigitChars 8 digits 0) ∧ n = digits.length := by
  simp only [readEscape, hletter, hwidth, ← hdigits]
  have hoctal : Digits 8 digits (Nat.ofDigitChars 8 digits 0) :=
    digits_eight.2 ⟨fun x hx => List.mem_takeWhile_imp (hdigits ▸ hx), rfl⟩
  have hlength : digits.length ≤ 3 := by
    rw [hdigits]
    exact (List.takeWhile_sublist _).length_le.trans (List.length_take_le 3 _)
  have hvalid := isValidChar_of_octal hoctal hlength
  split
  · next hc => simp only [map_scalar_eq_ok, hc, hvalid, true_and]
  · next hc => simp [hc]

/-- The octal digits that a text starts with are an escape. -/
theorem isEscape_takeWhile {c : Char} {rest digits : List Char} (hc : isOctalDigit c = true)
    (hdigits : digits = ((c :: rest).take 3).takeWhile isOctalDigit) :
    ∃ after, c :: rest = digits ++ after ∧ IsEscape after digits (Char.ofNat (Nat.ofDigitChars 8 digits 0)) := by
  have hsplit : digits ++ ((c :: rest).take 3).dropWhile isOctalDigit = (c :: rest).take 3 :=
    hdigits ▸ List.takeWhile_append_dropWhile
  have hlength := congrArg List.length hsplit
  rw [List.length_append, List.length_take] at hlength
  refine ⟨((c :: rest).take 3).dropWhile isOctalDigit ++ (c :: rest).drop 3, ?_, .octal ?_ (by omega) ?_ ?_⟩
  · rw [← List.append_assoc, hsplit, List.take_append_drop]
  · rw [hdigits, List.take_succ_cons, List.takeWhile_cons_of_pos hc]
    exact List.cons_ne_nil c _
  · exact digits_eight.2 ⟨fun x hx => List.mem_takeWhile_imp (hdigits ▸ hx), rfl⟩
  · cases hafter : ((c :: rest).take 3).dropWhile isOctalDigit with
    | nil =>
      rw [hafter, List.length_nil, List.length_cons] at hlength
      by_cases hshort : rest.length < 2
      · rw [List.drop_of_length_le (by rw [List.length_cons]; omega)]
        exact .inr (by simp)
      · exact .inl (by omega)
    | cons x more =>
      have hx : isOctalDigit x = false := by
        have hhead := List.head?_dropWhile_not isOctalDigit ((c :: rest).take 3)
        rwa [hafter] at hhead
      exact .inr (by simpa using isOctalDigit_eq_false.1 hx)

/-- The decoder reads the escape that a text starts with. -/
theorem readEscape_eq_ok_iff {body : String} {cs : List Char} {d : Char} {n : Nat} :
    readEscape body cs = .ok (d, n) ↔
      ∃ text rest, cs = text ++ rest ∧ text.length = n ∧ IsEscape rest text d := by
  constructor
  · intro h
    cases cs with
    | nil => cases h
    | cons c tail =>
      cases hletter : letterEscape? c with
      | some e =>
        obtain ⟨rfl, rfl⟩ : e = d ∧ 1 = n := by simpa [readEscape_letter hletter] using h
        exact ⟨[c], tail, rfl, rfl, .letter (letterEscape?_eq_some.1 hletter)⟩
      | none =>
        cases hwidth : hexWidth? c with
        | some width =>
          obtain ⟨code, hvalue, hlength, hvalid, rfl, rfl⟩ := (readEscape_hex hwidth).1 h
          refine ⟨c :: tail.take width, tail.drop width, ?_, ?_,
            .hex (hexWidth?_eq_some.1 hwidth) hlength hvalue hvalid⟩
          · rw [List.cons_append, List.take_append_drop]
          · rw [List.length_cons, hlength]
        | none =>
          obtain ⟨hc, rfl, rfl⟩ := (readEscape_octal hletter hwidth rfl).1 h
          obtain ⟨after, hafter, hescape⟩ := isEscape_takeWhile hc rfl
          exact ⟨_, after, hafter, rfl, hescape⟩
  · rintro ⟨text, rest, rfl, rfl, h⟩
    cases h with
    | letter letter => exact readEscape_letter (letterEscape?_eq_some.2 letter)
    | octal nonempty length value last =>
      obtain ⟨hall, rfl⟩ := digits_eight.1 value
      have hword : Word isOctalDigit text := ⟨nonempty, hall⟩
      have hlast : text.length = 3 ∨ ∀ c ∈ rest.head?, isOctalDigit c = false := by
        simpa only [isOctalDigit_eq_false] using last
      have htake := takeWhile_isOctalDigit hword length hlast
      obtain ⟨c, more, rfl, hc⟩ := hword.exists_cons
      exact (readEscape_octal (letterEscape?_of_isOctalDigit hc) (hexWidth?_of_isOctalDigit hc) htake.symm).2
        ⟨hc, rfl, rfl⟩
    | @hex c width code digits letter length value valid =>
      have htake : (digits ++ rest).take width = digits := List.take_left' length
      rw [List.cons_append]
      refine (readEscape_hex (hexWidth?_eq_some.2 letter)).2 ⟨code, ?_, ?_, valid, rfl, ?_⟩
      · rwa [htake]
      · rw [htake, length]
      · rw [List.length_cons, length]

/-! ## Reading bodies -/

section Bodies

variable {quote : Option Char} {body : String} {cs decoded : List Char}

theorem unescape_readEscape (hquote : quote ≠ some '\\') {rest : List Char} {d : Char} {n : Nat}
    (h : readEscape body rest = .ok (d, n)) :
    unescape quote body ('\\' :: rest) = (unescape quote body (rest.drop n)).map (d :: ·) := by
  rw [unescape, if_neg hquote.symm, if_pos rfl, h]

theorem units_of_unescape (h : unescape quote body cs = .ok decoded) : Units quote cs decoded := by
  induction cs using unescape.induct quote body generalizing decoded with
  | case1 =>
    rw [unescape, Except.ok.injEq] at h
    exact h ▸ .nil
  | case2 c rest hc =>
    rw [unescape, if_pos hc] at h
    cases h
  | case3 rest d n hread hc ih =>
    rw [unescape, if_neg hc, if_pos rfl, hread] at h
    obtain ⟨text, cs, rfl, rfl, hescape⟩ := readEscape_eq_ok_iff.1 hread
    obtain ⟨tail, htail, rfl⟩ := Steps.map_eq_ok.1 h
    rw [List.drop_left] at htail ih
    exact .escape text hescape (ih htail)
  | case4 rest fault hread hc =>
    rw [unescape, if_neg hc, if_pos rfl, hread] at h
    cases h
  | case5 c rest hc hb ih =>
    rw [unescape, if_neg hc, if_neg hb] at h
    obtain ⟨tail, htail, rfl⟩ := Steps.map_eq_ok.1 h
    exact .char hc hb (ih htail)

theorem Units.unescape_eq (hquote : quote ≠ some '\\') (h : Units quote cs decoded) (body : String) :
    unescape quote body cs = .ok decoded := by
  induction h with
  | nil => rw [unescape]
  | char inside plain _ ih =>
    rw [unescape, if_neg inside, if_neg plain, ih]
    rfl
  | @escape text d cs decoded escape _ ih =>
    rw [unescape_readEscape hquote (readEscape_eq_ok_iff.2 ⟨text, cs, rfl, rfl, escape⟩), List.drop_left, ih]
    rfl

/-- The decoder reads the sequences of units, and gives the characters that these stand for. -/
theorem unescape_eq_ok_iff (hquote : quote ≠ some '\\') :
    unescape quote body cs = .ok decoded ↔ Units quote cs decoded :=
  ⟨units_of_unescape, fun h => h.unescape_eq hquote body⟩

end Bodies

/-! ## Accumulated codes -/

/-- The codes that an escape goes through, digit by digit, while it is read after its backslash. -/
def runningCodes : List Char → List Nat
  | [] => []
  | c :: rest =>
    match letterEscape? c, hexWidth? c with
    | some _, _ => []
    | none, some width => (rest.take width).inits.filterMap hexNumber?
    | none, none =>
      (((c :: rest).take 3).takeWhile isOctalDigit).inits.map (Nat.ofDigitChars 8 · 0)

/-- An escape that the decoder reads is one of a letter, or its code is one of those that it goes through. -/
theorem mem_runningCodes {body : String} {after : List Char} {d : Char} {n : Nat}
    (h : readEscape body after = .ok (d, n)) :
    (∃ c ∈ after.head?, (c, d) ∈ letterEscapes) ∨ ∃ code ∈ runningCodes after, d = Char.ofNat code := by
  cases after with
  | nil => cases h
  | cons c rest =>
    cases hletter : letterEscape? c with
    | some e =>
      rw [readEscape_letter hletter] at h
      cases h
      exact .inl ⟨c, rfl, letterEscape?_eq_some.1 hletter⟩
    | none =>
      right
      simp only [runningCodes, hletter]
      cases hwidth : hexWidth? c with
      | some width =>
        obtain ⟨code, hvalue, -, -, hd, -⟩ := (readEscape_hex hwidth).1 h
        exact ⟨code, List.mem_filterMap.2 ⟨_, by simp, digits_sixteen.1 hvalue⟩, hd⟩
      | none =>
        obtain ⟨-, hd, -⟩ := (readEscape_octal hletter hwidth rfl).1 h
        exact ⟨_, List.mem_map_of_mem (by simp), hd⟩

theorem le_eight_of_hexWidth? {c : Char} {width : Nat} (h : hexWidth? c = some width) : width ≤ 8 := by
  have hmem := hexWidth?_eq_some.1 h
  simp only [hexEscapes, List.mem_cons, Prod.mk.injEq, List.not_mem_nil, or_false] at hmem
  omega

/-- No escape goes through a code beyond 32 bits. -/
theorem lt_of_mem_runningCodes {after : List Char} {code : Nat} (h : code ∈ runningCodes after) :
    code < 2 ^ 32 := by
  cases after with
  | nil => cases h
  | cons c rest =>
    simp only [runningCodes] at h
    split at h
    · cases h
    · next width _ hwidth =>
      obtain ⟨digits, hdigits, hcode⟩ := List.mem_filterMap.1 h
      have hlength : digits.length ≤ 8 :=
        ((List.mem_inits _ _).1 hdigits).length_le.trans
          ((List.length_take_le width rest).trans (le_eight_of_hexWidth? hwidth))
      calc code < 16 ^ digits.length := (digits_sixteen.2 hcode).lt (by decide)
        _ ≤ 16 ^ 8 := Nat.pow_le_pow_right (by decide) hlength
        _ = 2 ^ 32 := by decide
    · obtain ⟨digits, hdigits, rfl⟩ := List.mem_map.1 h
      have hfront := (List.mem_inits _ _).1 hdigits
      have hoctal : Digits 8 digits (Nat.ofDigitChars 8 digits 0) :=
        digits_eight.2 ⟨fun x hx => List.mem_takeWhile_imp (hfront.subset hx), rfl⟩
      have hlength : digits.length ≤ 3 :=
        hfront.length_le.trans ((List.takeWhile_sublist _).length_le.trans (List.length_take_le 3 _))
      calc Nat.ofDigitChars 8 digits 0 < 8 ^ digits.length := hoctal.lt (by decide)
        _ ≤ 8 ^ 3 := Nat.pow_le_pow_right (by decide) hlength
        _ < 2 ^ 32 := by decide

/-! ## Strings -/

theorem decodeString_eq_ok {text : List Char} {s : String} :
    decodeString text = .ok s ↔ unquote text = .ok s.toList := by
  rw [decodeString]
  cases unquote text with
  | ok cs =>
    simp only [Except.ok.injEq]
    constructor
    · rintro rfl
      exact String.toList_ofList.symm
    · rintro rfl
      exact String.ofList_toList
  | error fault => simp

theorem ne_backslash_of_isQuote {q : Char} (h : isQuote q = true) : q ≠ '\\' := by
  rintro rfl
  exact absurd h (by decide)

theorem unquote_eq_ok {q : Char} (hq : isQuote q = true) {rest decoded : List Char} :
    unquote (q :: rest) = .ok decoded ↔ ∃ body, rest = body ++ [q] ∧ Units (some q) body decoded := by
  have hquote : some q ≠ some '\\' := fun h => ne_backslash_of_isQuote hq (Option.some.inj h)
  rw [unquote, if_pos hq]
  constructor
  · intro h
    split at h
    · next hlast =>
      exact ⟨rest.dropLast, (List.dropLast_append_getLast? q hlast).symm, (unescape_eq_ok_iff hquote).1 h⟩
    · cases h
  · rintro ⟨body, rfl, hbody⟩
    rw [List.getLast?_concat, if_pos rfl, List.dropLast_concat]
    exact hbody.unescape_eq hquote _

def IsBare (text : List Char) : Prop := ∀ c ∈ text.head?, isQuote c = false

/-- Bare text is a sequence of units, of which quotes are some. -/
theorem decodeString_bare {text : List Char} (h : IsBare text) {s : String} :
    decodeString text = .ok s ↔ Units none text s.toList := by
  have hunescape : unquote text = unescape none (String.ofList text) text := by
    cases text with
    | nil => rw [unquote, unescape]
    | cons c rest => rw [unquote, if_neg (by simp [h c rfl])]
  rw [decodeString_eq_ok, hunescape, unescape_eq_ok_iff (by simp)]

/-- Quoted text is read exactly by its grammar. Any other text that starts with a quote is malformed, and no
code that is accumulated on the way exceeds 32 bits: neither those that an escape goes through nor the
one that the decoder reads it with. -/
theorem decodeString_quoted {q : Char} (hq : q = '\'' ∨ q = '"') (rest : List Char) :
    (∀ s : String, decodeString (q :: rest) = .ok s ↔
      ∃ body, rest = body ++ [q] ∧ Units (some q) body s.toList) ∧
    ((¬ ∃ body decoded, rest = body ++ [q] ∧ Units (some q) body decoded) →
      ∃ fault, decodeString (q :: rest) = .error (.badLiteral "string" fault)) ∧
    ∀ after, '\\' :: after <:+ rest → (∀ code ∈ runningCodes after, code < 2 ^ 32) ∧
      ∀ body d n, readEscape body after = .ok (d, n) →
        (∃ c ∈ after.head?, (c, d) ∈ letterEscapes) ∨ ∃ code ∈ runningCodes after, d = Char.ofNat code := by
  have hquote : isQuote q = true := by simpa [isQuote] using hq
  refine ⟨fun s => ?_, fun hnone => ?_, fun after _ =>
    ⟨fun _ => lt_of_mem_runningCodes, fun _ _ _ => mem_runningCodes⟩⟩
  · rw [decodeString_eq_ok, unquote_eq_ok hquote]
  · rw [decodeString]
    cases hdecoded : unquote (q :: rest) with
    | error fault => exact ⟨fault, rfl⟩
    | ok decoded =>
      obtain ⟨body, hbody⟩ := (unquote_eq_ok hquote).1 hdecoded
      exact absurd ⟨body, decoded, hbody⟩ hnone

/-- Escaped quotes do not end a text, and octal escapes end after three digits. -/
theorem decodeString_quoted_escapes :
    ('"' = '\'' ∨ '"' = '"') ∧
    decodeString ('"' :: ("\\\"\\1012\\x4a\\U000003bb".toList ++ ['"'])) = .ok "\"A2Jλ" ∧
    (∃ fault, decodeString ('"' :: "\\\"".toList) = .error (.badLiteral "string" fault)) ∧
    (∀ code ∈ runningCodes "Uffffffff".toList, code < 2 ^ 32) ∧
    ∃ code ∈ runningCodes "U000003bb".toList, 'λ' = Char.ofNat code := by
  have hoctal : Digits 8 ['1', '0', '1'] 65 := digits_eight.2 ⟨List.all_eq_true.1 (by decide), by decide⟩
  have hbyte : Digits 16 ['4', 'a'] 74 := digits_sixteen.2 rfl
  have hlong : Digits 16 "000003bb".toList 955 := digits_sixteen.2 rfl
  have hunits : Units (some '"') "\\\"\\1012\\x4a\\U000003bb".toList "\"A2Jλ".toList :=
    .escape ['"'] (.letter (by decide)) <|
    .escape ['1', '0', '1'] (.octal (by decide) (by decide) hoctal (.inl rfl)) <|
    .char (by decide) (by decide) <|
    .escape ['x', '4', 'a'] (.hex (by decide) rfl hbyte (by decide)) <|
    .escape "U000003bb".toList (.hex (by decide) rfl hlong (by decide)) .nil
  have hdangling : ¬ ∃ body decoded, "\\\"".toList = body ++ ['"'] ∧ Units (some '"') body decoded := by
    rintro ⟨body, decoded, happend, h⟩
    have hsplit : ['\\'] ++ ['"'] = body ++ ['"'] := happend
    obtain rfl := List.append_cancel_right hsplit
    have hread := h.unescape_eq (by decide) ""
    simp [unescape, readEscape] at hread
  have hread : readEscape "" "U000003bb".toList = .ok ('λ', 9) :=
    readEscape_eq_ok_iff.2 ⟨_, [], rfl, rfl, .hex (by decide) rfl hlong (by decide)⟩
  refine ⟨.inr rfl, ?_, ?_, ?_, ?_⟩
  · exact ((decodeString_quoted (.inr rfl) _).1 _).2 ⟨_, rfl, hunits⟩
  · exact (decodeString_quoted (.inr rfl) _).2.1 hdangling
  · exact ((decodeString_quoted (q := '"') (.inr rfl) "\\Uffffffff".toList).2.2 _ List.suffix_rfl).1
  · refine (((decodeString_quoted (q := '"') (.inr rfl) "\\U000003bb".toList).2.2 _ List.suffix_rfl).2 _ _ _
      hread).resolve_left ?_
    rintro ⟨c, ⟨⟩, hletter⟩
    exact absurd hletter (by decide)

end RosSchema.Literal

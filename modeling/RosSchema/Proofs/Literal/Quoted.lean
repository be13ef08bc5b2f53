import RosSchema.Proofs.Literal.Escapes
import RosSchema.Proofs.Text.Trim

/-!
# Text between quotes

`quote` writes any text on one line, and what it writes between the quotes is escaped and decoded to the
text again.
-/

namespace RosSchema.Literal

open RosSchema.Text (escape hexPair quote Trimmed)

/-- The two digits of a number below 32 are read as the number. -/
theorem hexNumber?_hexPair (n : Fin 32) : hexNumber? ('0' :: '0' :: hexPair n) = some n.val := by
  revert n
  decide

theorem isAlphanum_of_mem_hexPair (n : Fin 32) : (hexPair n).all Char.isAlphanum = true := by
  revert n
  decide

/-- A character inside quotes is escaped by a letter, by the digits of its code or not at all. -/
theorem escape_cases (c : Char) :
    (∃ letter, escape c = ['\\', letter] ∧ letterEscape? letter = some c) ∨
      (∃ n : Fin 32, c.toNat = n ∧ escape c = '\\' :: 'u' :: '0' :: '0' :: hexPair n) ∨
      (escape c = [c] ∧ c ≠ '"' ∧ c ≠ '\\' ∧ c ≠ '\n') := by
  unfold escape
  split
  · next h => exact .inl ⟨'"', rfl, by rw [h]; rfl⟩
  split
  · next h => exact .inl ⟨'\\', rfl, by rw [h]; rfl⟩
  split
  · next h => exact .inl ⟨'b', rfl, h ▸ rfl⟩
  split
  · next h => exact .inl ⟨'f', rfl, h ▸ rfl⟩
  split
  · next h => exact .inl ⟨'n', rfl, h ▸ rfl⟩
  split
  · next h => exact .inl ⟨'r', rfl, h ▸ rfl⟩
  split
  · next h => exact .inl ⟨'t', rfl, h ▸ rfl⟩
  split
  · next h => exact .inr (.inl ⟨⟨c.toNat, h⟩, rfl, rfl⟩)
  · next hquote hback _ _ hnewline _ _ _ => exact .inr (.inr ⟨rfl, hquote, hback, hnewline⟩)

/-- The escapes of a text are units that stand for it. -/
theorem units_escape (cs : List Char) : Units (some '"') (cs.flatMap escape) cs := by
  induction cs with
  | nil => exact .nil
  | cons c cs ih =>
    rw [List.flatMap_cons]
    rcases escape_cases c with ⟨letter, h, hletter⟩ | ⟨n, hn, h⟩ | ⟨h, hquote, hplain, -⟩
    · rw [h]
      exact .escape [letter] (.letter (letterEscape?_eq_some.1 hletter)) ih
    · have hcode : Digits 16 ('0' :: '0' :: hexPair n) c.toNat := digits_sixteen.2 (by rw [hexNumber?_hexPair, hn])
      have hescape : IsEscape (cs.flatMap escape) ('u' :: '0' :: '0' :: hexPair n) (Char.ofNat c.toNat) :=
        .hex (by decide : ('u', 4) ∈ hexEscapes) rfl hcode c.valid
      rw [Char.ofNat_toNat] at hescape
      rw [h]
      exact .escape _ hescape ih
    · rw [h]
      exact .char (by simpa using hquote) hplain ih

/-- A quoted text is decoded to the text. -/
theorem decodeString_quote (cs : List Char) : decodeString (quote cs) = .ok (String.ofList cs) := by
  rw [decodeString_eq_ok, String.toList_ofList, quote, List.cons_append]
  exact (unquote_eq_ok (by decide)).2 ⟨_, rfl, units_escape cs⟩

/-- What stands between the quotes ends neither there nor, without a mark in the text, at a mark. -/
theorem escaped_escape {stop : Char → Bool} (halnum : ∀ c, c.isAlphanum = true → stop c = false)
    {cs : List Char} (h : ∀ c ∈ cs, c ≠ '"' → stop c = false) : Escaped stop (cs.flatMap escape) := by
  induction cs with
  | nil => exact .nil
  | cons c cs ih =>
    rw [List.flatMap_cons]
    refine Escaped.append ?_ (ih fun d hd => h d (List.mem_cons_of_mem _ hd))
    rcases escape_cases c with ⟨letter, hc, -⟩ | ⟨n, -, hc⟩ | ⟨hc, hquote, hplain, -⟩
    · rw [hc]
      exact .pair letter .nil
    · rw [hc]
      refine .pair 'u' (.of_all fun x hx => ?_)
      have hx : x.isAlphanum = true := by
        rcases List.mem_cons.1 hx with rfl | hx
        · decide
        rcases List.mem_cons.1 hx with rfl | hx
        · decide
        · exact List.all_eq_true.1 (isAlphanum_of_mem_hexPair n) x hx
      exact ⟨(plain_of_isAlphanum hx).1, halnum x hx⟩
    · rw [hc]
      exact .char hplain (h c List.mem_cons_self hquote) .nil

theorem escaped_quote_escape (cs : List Char) : Escaped (· == '"') (cs.flatMap escape) := by
  refine escaped_escape (fun c hc => beq_eq_false_iff_ne.2 ?_) fun c _ hc => beq_eq_false_iff_ne.2 hc
  rintro rfl
  exact absurd hc (by decide)

/-- A quoted text stands on one line. -/
theorem newline_not_mem_escape (c : Char) : '\n' ∉ escape c := by
  rcases escape_cases c with ⟨letter, h, hletter⟩ | ⟨n, -, h⟩ | ⟨h, -, -, hne⟩
  · rw [h]
    intro hm
    have hm : letter = '\n' := by simpa [eq_comm] using hm
    rw [hm] at hletter
    exact absurd hletter (by simp [letterEscape?])
  · have hall : ∀ n : Fin 32, '\n' ∉ '\\' :: 'u' :: '0' :: '0' :: hexPair n := by decide
    rw [h]
    exact hall n
  · rw [h]
    simpa [eq_comm] using hne

theorem newline_not_mem_quote (cs : List Char) : '\n' ∉ quote cs := by
  intro hm
  simp only [quote, List.cons_append, List.mem_cons, List.mem_append, List.mem_flatMap,
    List.not_mem_nil, or_false] at hm
  rcases hm with hm | ⟨c, -, hm⟩ | hm
  · exact absurd hm (by decide)
  · exact newline_not_mem_escape c hm
  · exact absurd hm (by decide)

theorem trimmed_quote (cs : List Char) : Trimmed (quote cs) where
  head := by
    rintro c ⟨⟩
    decide
  last := by
    intro c hc
    rw [quote, List.getLast?_concat] at hc
    obtain rfl := Option.some.inj hc
    decide

end RosSchema.Literal

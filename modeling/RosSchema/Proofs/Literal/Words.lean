import RosSchema.Proofs.Literal.Scalars

/-!
# Words of literals

A literal of another type than a string is a word: it is read from its first character to its last, and
all of them are letters, digits, points and signs.
-/

namespace RosSchema.Literal

open Reader (Word)

/-- A text goes on to a rest with characters of literals. -/
def LeadsTo (cs rest : List Char) : Prop :=
  ∃ front, cs = front ++ rest ∧ ∀ c ∈ front, isLiteralPart c = true

theorem LeadsTo.refl (cs : List Char) : LeadsTo cs cs := ⟨[], rfl, by simp⟩

theorem LeadsTo.trans {as bs cs : List Char} (h : LeadsTo as bs) (h' : LeadsTo bs cs) : LeadsTo as cs := by
  obtain ⟨front, rfl, hfront⟩ := h
  obtain ⟨front', rfl, hfront'⟩ := h'
  refine ⟨front ++ front', by simp, fun c hc => ?_⟩
  exact (List.mem_append.1 hc).elim (hfront c) (hfront' c)

theorem LeadsTo.cons {c : Char} (hc : isLiteralPart c = true) {as bs : List Char} (h : LeadsTo as bs) :
    LeadsTo (c :: as) bs := by
  obtain ⟨front, rfl, hfront⟩ := h
  refine ⟨c :: front, rfl, fun d hd => ?_⟩
  rcases List.mem_cons.1 hd with rfl | hd
  · exact hc
  · exact hfront d hd

theorem leadsTo_sign (cs : List Char) : LeadsTo cs (Sign.read cs).2 :=
  ⟨Sign.text (Sign.read cs).1, (Sign.text_append_read cs).symm, fun _ hc => isLiteralPart_of_mem_sign hc⟩

theorem leadsTo_digits (cs : List Char) : LeadsTo cs (cs.dropWhile Char.isDigit) :=
  ⟨cs.takeWhile Char.isDigit, List.takeWhile_append_dropWhile.symm,
    fun _ hc => isLiteralPart_of_isDigit (List.mem_takeWhile_imp hc)⟩

theorem leadsTo_fraction (cs : List Char) : LeadsTo cs (Numeral.fraction? cs).2 := by
  unfold Numeral.fraction?
  split
  · exact .cons (by decide) (leadsTo_digits _)
  · exact .refl cs

theorem leadsTo_tenPower {upperCase : Bool} {cs rest : List Char} {p : TenPower}
    (h : TenPower.read? upperCase cs = some (p, rest)) : LeadsTo cs rest := by
  unfold TenPower.read? at h
  dsimp only at h
  split at h
  · cases h
  · cases h
    exact (leadsTo_sign cs).trans (leadsTo_digits _)

theorem leadsTo_power {cs rest : List Char} {p : Option TenPower}
    (h : Numeral.power? cs = some (p, rest)) : LeadsTo cs rest := by
  unfold Numeral.power? at h
  split at h
  · obtain ⟨r, hr, heq⟩ := Option.map_eq_some_iff.1 h
    cases heq
    exact .cons (by decide) (leadsTo_tenPower hr)
  · obtain ⟨r, hr, heq⟩ := Option.map_eq_some_iff.1 h
    cases heq
    exact .cons (by decide) (leadsTo_tenPower hr)
  · cases h
    exact .refl _

theorem leadsTo_numeral {cs rest : List Char} {n : Numeral} (h : Numeral.read? cs = some (n, rest)) :
    LeadsTo cs rest := by
  unfold Numeral.read? at h
  dsimp only at h
  split at h
  · cases h
  · obtain ⟨r, hr, heq⟩ := Option.map_eq_some_iff.1 h
    cases heq
    exact (leadsTo_sign cs).trans ((leadsTo_digits _).trans ((leadsTo_fraction _).trans (leadsTo_power hr)))

theorem word_of_leadsTo {cs : List Char} (hne : cs ≠ []) (h : LeadsTo cs []) : Word isLiteralPart cs := by
  obtain ⟨front, rfl, hfront⟩ := h
  exact ⟨hne, by simpa using hfront⟩

theorem word_of_decodeBool {type : String} {text : List Char} {v : Value}
    (h : decodeBool type text = .ok v) : Word isLiteralPart text := by
  have hword {s : String} (hs : String.ofList text = s) (hall : s.toList.all isLiteralPart = true)
      (hne : s.toList ≠ []) : Word isLiteralPart text := by
    obtain rfl : text = s.toList := by rw [← hs, String.toList_ofList]
    exact Reader.word_of_all hne hall
  unfold decodeBool at h
  split at h
  · next hs => exact hword hs (by decide) (by decide)
  · next hs => exact hword hs (by decide) (by decide)
  · next hs => exact hword hs (by decide) (by decide)
  · next hs => exact hword hs (by decide) (by decide)
  · next hs => exact hword hs (by decide) (by decide)
  · next hs => exact hword hs (by decide) (by decide)
  · cases h

theorem word_of_decodeFloat {type : String} {text : List Char} {v : Value}
    (h : decodeFloat type text = .ok v) : Word isLiteralPart text := by
  unfold decodeFloat Numeral.ofText? at h
  split at h
  · next n hn =>
    split at hn
    · next hread =>
      refine word_of_leadsTo ?_ (leadsTo_numeral hread)
      rintro rfl
      cases hread
    · cases hn
  · cases h

theorem word_of_decodeInteger {p : Primitive} {text : List Char} {v : Value}
    (h : decodeInteger p text = .ok v) : Word isLiteralPart text := by
  unfold decodeInteger Numeral.integer? at h
  dsimp only at h
  split at h
  · next i hi =>
    split at hi
    · next hdigits =>
      simp only [Bool.and_eq_true, List.all_eq_true] at hdigits
      obtain ⟨front, htext, hfront⟩ := leadsTo_sign text
      refine ⟨?_, fun c hc => ?_⟩
      · rintro rfl
        exact absurd hdigits.1 (by decide)
      · rw [htext] at hc
        exact (List.mem_append.1 hc).elim (hfront c) fun hc => isLiteralPart_of_isDigit (hdigits.2 c hc)
    · cases hi
  · cases h

/-- What is decoded for a type other than a string is a word. -/
theorem word_of_decodeAs {p : Primitive} (hp : p.isString = false) {type : String} {text : List Char}
    {v : Value} (h : decodeAs p type text = .ok v) : Word isLiteralPart text := by
  cases p with
  | bool => exact word_of_decodeBool h
  | float32 => exact word_of_decodeFloat h
  | float64 => exact word_of_decodeFloat h
  | string => cases hp
  | wstring => cases hp
  | _ => exact word_of_decodeInteger h

end RosSchema.Literal

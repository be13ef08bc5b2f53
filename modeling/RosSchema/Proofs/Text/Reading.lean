import Mathlib
import RosSchema.Text.Reader

/-!
# What readers take

Each reader is described by the texts it takes and the rest it leaves. A run takes characters of its
class as long as there are any; a sequence of readers takes what its parts take one after the other.
-/

namespace RosSchema.Reader

variable {α β : Type}

/-- A word of one class in front of a text that does not go on with that class. -/
structure Splits (p : Char → Bool) (cs word rest : List Char) : Prop where
  eq : cs = word ++ rest
  all : ∀ c ∈ word, p c = true
  stops : ∀ c ∈ rest.head?, p c = false

/-- A word of one class, which is not empty. -/
structure Word (p : Char → Bool) (cs : List Char) : Prop where
  ne_nil : cs ≠ []
  all : ∀ c ∈ cs, p c = true

theorem word_of_all {p : Char → Bool} {cs : List Char} (hne : cs ≠ []) (h : cs.all p = true) :
    Word p cs :=
  ⟨hne, List.all_eq_true.1 h⟩

theorem Word.exists_cons {p : Char → Bool} {cs : List Char} (h : Word p cs) :
    ∃ c rest, cs = c :: rest ∧ p c = true := by
  cases cs with
  | nil => exact absurd rfl h.ne_nil
  | cons c rest => exact ⟨c, rest, rfl, h.all c List.mem_cons_self⟩

theorem splits_iff {p : Char → Bool} {cs word rest : List Char} :
    Splits p cs word rest ↔ cs.takeWhile p = word ∧ cs.dropWhile p = rest := by
  constructor
  · rintro ⟨rfl, hall, hstops⟩
    have hrest : rest.takeWhile p = [] ∧ rest.dropWhile p = rest := by
      cases rest with
      | nil => simp
      | cons c rest => simp [hstops c rfl]
    rw [List.takeWhile_append_of_pos hall, List.dropWhile_append_of_pos hall, hrest.1, hrest.2]
    simp
  · rintro ⟨rfl, rfl⟩
    refine ⟨List.takeWhile_append_dropWhile.symm, fun c hc => List.mem_takeWhile_imp hc, ?_⟩
    intro c hc
    have hne : cs.dropWhile p ≠ [] := by
      intro h
      simp [h] at hc
    have hnot := List.head_dropWhile_not p (l := cs) hne
    rw [List.head?_eq_some_head hne] at hc
    obtain rfl := Option.some.inj hc
    exact hnot

/-- A text is split in one way. -/
theorem Splits.unique {p : Char → Bool} {cs word rest word' rest' : List Char}
    (h : Splits p cs word rest) (h' : Splits p cs word' rest') : word = word' ∧ rest = rest' :=
  ⟨(splits_iff.1 h).1.symm.trans (splits_iff.1 h').1, (splits_iff.1 h).2.symm.trans (splits_iff.1 h').2⟩

theorem bind_eq_some {p : Reader α} {f : α → Reader β} {cs : List Char} {b : β} {rest : List Char} :
    (p >>= f) cs = some (b, rest) ↔ ∃ a mid, p cs = some (a, mid) ∧ f a mid = some (b, rest) := by
  change (p cs >>= fun r => f r.1 r.2) = some (b, rest) ↔ _
  cases p cs with
  | none => simp
  | some r =>
    constructor
    · exact fun h => ⟨r.1, r.2, rfl, h⟩
    · rintro ⟨a, mid, hr, h⟩
      obtain rfl := Option.some.inj hr
      exact h

/-- What follows a reader reads what the reader leaves. -/
theorem bind_of_eq_some {p : Reader α} {f : α → Reader β} {cs mid : List Char} {a : α}
    (h : p cs = some (a, mid)) : (p >>= f) cs = f a mid := by
  change (p cs >>= fun r => f r.1 r.2) = _
  rw [h]
  rfl

/-- What follows a reader that takes nothing takes nothing. -/
theorem bind_of_eq_none {p : Reader α} {f : α → Reader β} {cs : List Char}
    (h : p cs = none) : (p >>= f) cs = none := by
  change (p cs >>= fun r => f r.1 r.2) = _
  rw [h]
  rfl

@[simp] theorem pure_apply (a : α) (cs : List Char) : (pure a : Reader α) cs = some (a, cs) := rfl

theorem pure_eq_some {a b : α} {cs rest : List Char} :
    (pure a : Reader α) cs = some (b, rest) ↔ a = b ∧ cs = rest := by
  simp [pure_apply]

theorem map_apply (f : α → β) (p : Reader α) (cs : List Char) :
    (f <$> p) cs = (p cs).map fun r => (f r.1, r.2) := by
  change (p cs >>= fun r => some (f r.1, r.2)) = _
  cases p cs <;> rfl

theorem map_eq_some {f : α → β} {p : Reader α} {cs : List Char} {b : β} {rest : List Char} :
    (f <$> p) cs = some (b, rest) ↔ ∃ a, p cs = some (a, rest) ∧ f a = b := by
  rw [map_apply]
  cases p cs with
  | none => simp
  | some r =>
    obtain ⟨a, mid⟩ := r
    constructor
    · intro h
      cases h
      exact ⟨a, rfl, rfl⟩
    · rintro ⟨a, h, rfl⟩
      cases h
      rfl

theorem seqLeft_apply (p : Reader α) (q : Reader β) (cs : List Char) :
    (p <* q) cs = (p cs).bind fun r => (q r.2).map fun s => (r.1, s.2) := by
  rw [seqLeft_eq_bind]
  change Option.bind _ (fun r : α × List Char => Option.bind (q r.2) fun s => some (r.1, s.2)) = _
  refine congrArg _ (funext fun r => ?_)
  rw [Option.map_eq_bind]
  rfl

theorem orElse_apply (p q : Reader α) (cs : List Char) :
    (p <|> q) cs = (p cs).or (q cs) := by
  change (p cs).orElse (fun _ => q cs) = _
  cases p cs <;> rfl

theorem optional_apply (p : Reader α) (cs : List Char) :
    optional p cs = ((p cs).map fun r => (some r.1, r.2)).or (some (none, cs)) := by
  rw [optional, orElse_apply, map_apply]
  rfl

theorem orElse_eq_some {p q : Reader α} {cs : List Char} {a : α} {rest : List Char} :
    (p <|> q) cs = some (a, rest) ↔
      p cs = some (a, rest) ∨ p cs = none ∧ q cs = some (a, rest) := by
  rw [orElse_apply, Option.or_eq_some_iff]

theorem optional_eq_some {p : Reader α} {cs : List Char} {a : Option α} {rest : List Char} :
    optional p cs = some (a, rest) ↔
      (∃ b, a = some b ∧ p cs = some (b, rest)) ∨ p cs = none ∧ a = none ∧ cs = rest := by
  rw [optional_apply]
  cases h : p cs with
  | none => simp [eq_comm]
  | some r =>
    obtain ⟨b, mid⟩ := r
    constructor
    · intro hr
      cases hr
      exact .inl ⟨b, rfl, rfl⟩
    · rintro (⟨c, rfl, hc⟩ | ⟨hc, -⟩)
      · cases hc
        rfl
      · cases hc

theorem discard_eq_some {p : Reader α} {cs rest : List Char} :
    (discard p) cs = some ((), rest) ↔ ∃ a, p cs = some (a, rest) := by
  change ((fun _ => ()) <$> p) cs = some ((), rest) ↔ _
  rw [map_apply]
  simp

theorem one_eq_some {p : Char → Bool} {cs : List Char} {c : Char} {rest : List Char} :
    one p cs = some (c, rest) ↔ cs = c :: rest ∧ p c = true := by
  cases cs with
  | nil => simp [one]
  | cons d cs =>
    by_cases hd : p d = true
    · simp only [one, hd, ↓reduceIte, Option.some.injEq, Prod.mk.injEq, List.cons.injEq]
      constructor
      · rintro ⟨rfl, rfl⟩
        exact ⟨⟨rfl, rfl⟩, hd⟩
      · exact fun h => h.1
    · simp only [one, hd, List.cons.injEq]
      constructor
      · intro h
        cases h
      · rintro ⟨⟨rfl, -⟩, h⟩
        exact absurd h hd

theorem mark_eq_some {c : Char} {cs rest : List Char} {u : Unit} :
    mark c cs = some (u, rest) ↔ cs = c :: rest := by
  rw [mark, discard_eq_some]
  simp [one_eq_some]

theorem mark_cons (c : Char) (rest : List Char) : mark c (c :: rest) = some ((), rest) := mark_eq_some.2 rfl

theorem mark_eq_none {c : Char} {cs : List Char} (h : ∀ d ∈ cs.head?, d ≠ c) : mark c cs = none := by
  rw [Option.eq_none_iff_forall_ne_some]
  rintro ⟨_, rest⟩ hread
  obtain rfl := mark_eq_some.1 hread
  exact h c rfl rfl

theorem isPrefixOf?_eq_some {word cs rest : List Char} :
    word.isPrefixOf? cs = some rest ↔ cs = word ++ rest := by
  induction word generalizing cs with
  | nil => simp [List.isPrefixOf?]
  | cons c word ih =>
    cases cs with
    | nil => simp [List.isPrefixOf?]
    | cons d cs =>
      by_cases hd : c = d
      · simp [List.isPrefixOf?, hd, ih]
      · simp [List.isPrefixOf?, hd, Ne.symm hd]

theorem token_eq_some {s : String} {cs rest : List Char} {u : Unit} :
    token s cs = some (u, rest) ↔ cs = s.toList ++ rest := by
  rw [token, Option.map_eq_some_iff, ← isPrefixOf?_eq_some]
  simp

theorem token_append (s : String) (rest : List Char) : token s (s.toList ++ rest) = some ((), rest) :=
  token_eq_some.2 rfl

/-- Of two words neither of which starts with the other, one is not read off the other. -/
theorem token_eq_none (s : String) (word : List Char) (h : ¬ s.toList <+: word) (h' : ¬ word <+: s.toList)
    (rest : List Char) : token s (word ++ rest) = none := by
  rw [Option.eq_none_iff_forall_ne_some]
  rintro ⟨⟨⟩, left⟩ hread
  have hfront : s.toList <+: word ++ rest := ⟨left, (token_eq_some.1 hread).symm⟩
  rcases le_total s.toList.length word.length with hle | hle
  · exact h (List.prefix_of_prefix_length_le hfront (List.prefix_append word rest) hle)
  · exact h' (List.prefix_of_prefix_length_le (List.prefix_append word rest) hfront hle)

theorem run_eq_some {p : Char → Bool} {cs word rest : List Char} :
    run p cs = some (word, rest) ↔ Splits p cs word rest := by
  rw [splits_iff, run]
  simp

theorem run1_eq_some {p : Char → Bool} {cs word rest : List Char} :
    run1 p cs = some (word, rest) ↔
      Word p word ∧ cs = word ++ rest ∧ ∀ c ∈ rest.head?, p c = false := by
  rw [run1, bind_eq_some]
  constructor
  · rintro ⟨c, mid, hc, h⟩
    obtain ⟨rfl, hp⟩ := one_eq_some.1 hc
    obtain ⟨tail, left, hrun, h⟩ := bind_eq_some.1 h
    obtain ⟨rfl, rfl⟩ := pure_eq_some.1 h
    obtain ⟨rfl, hall, hstops⟩ := run_eq_some.1 hrun
    refine ⟨⟨by simp, ?_⟩, by simp, hstops⟩
    intro d hd
    rcases List.mem_cons.1 hd with rfl | hd
    · exact hp
    · exact hall d hd
  · rintro ⟨⟨hne, hall⟩, rfl, hstops⟩
    cases word with
    | nil => exact absurd rfl hne
    | cons c word =>
      have hrun : run p (word ++ rest) = some (word, rest) :=
        run_eq_some.2 ⟨rfl, fun d hd => hall d (List.mem_cons_of_mem _ hd), hstops⟩
      refine ⟨c, word ++ rest, one_eq_some.2 ⟨rfl, hall c List.mem_cons_self⟩, ?_⟩
      exact bind_eq_some.2 ⟨word, rest, hrun, rfl⟩

theorem run1_append {p : Char → Bool} {word rest : List Char} (h : Word p word)
    (stops : ∀ c ∈ rest.head?, p c = false) : run1 p (word ++ rest) = some (word, rest) :=
  run1_eq_some.2 ⟨h, rfl, stops⟩

theorem run1_eq_none {p : Char → Bool} {c : Char} {cs : List Char} (h : p c = false) :
    run1 p (c :: cs) = none := by
  rw [Option.eq_none_iff_forall_ne_some]
  rintro ⟨word, rest⟩ hread
  obtain ⟨hw, hcs, -⟩ := run1_eq_some.1 hread
  obtain ⟨d, tail, rfl, hd⟩ := hw.exists_cons
  obtain ⟨rfl, -⟩ := List.cons.inj hcs
  simp [h] at hd

theorem rest_eq_some {cs word left : List Char} :
    rest cs = some (word, left) ↔ cs = word ∧ left = [] := by
  simp only [Reader.rest, Option.some.injEq, Prod.mk.injEq]
  exact and_congr_right fun _ => eq_comm

theorem given_eq_some {a : Option α} {b : α} {cs rest : List Char} :
    given a cs = some (b, rest) ↔ a = some b ∧ cs = rest := by
  cases a <;> simp [given]

theorem guard_eq_some {P : Prop} [Decidable P] {cs rest : List Char} {u : Unit} :
    (guard P : Reader Unit) cs = some (u, rest) ↔ P ∧ cs = rest := by
  by_cases h : P
  · simp [guard, h, pure_apply]
  · simp only [guard, h, ↓reduceIte, false_and, iff_false]
    intro hf
    cases hf

theorem whole?_eq_some {p : Reader α} {cs : List Char} {a : α} :
    whole? p cs = some a ↔ p cs = some (a, []) := by
  unfold whole?
  split
  · next b h => simp [h]
  · next h =>
    constructor
    · intro hf
      cases hf
    · intro hp
      exact absurd hp (h a)

theorem isNamePart_of_isNameStart {c : Char} (h : isNameStart c = true) : isNamePart c = true := by
  simp only [isNameStart, isNamePart, Char.isAlphanum, Bool.or_eq_true] at h ⊢
  exact h.imp_left .inl

theorem identifier_eq_some {cs word rest : List Char} :
    identifier cs = some (word, rest) ↔
      (∃ c tail, word = c :: tail ∧ isNameStart c = true) ∧ Splits isNamePart cs word rest := by
  rw [identifier, bind_eq_some]
  constructor
  · rintro ⟨c, mid, hc, h⟩
    obtain ⟨rfl, hp⟩ := one_eq_some.1 hc
    obtain ⟨tail, left, hrun, h⟩ := bind_eq_some.1 h
    obtain ⟨rfl, rfl⟩ := pure_eq_some.1 h
    obtain ⟨rfl, hall, hstops⟩ := run_eq_some.1 hrun
    refine ⟨⟨c, tail, rfl, hp⟩, by simp, ?_, hstops⟩
    intro d hd
    rcases List.mem_cons.1 hd with rfl | hd
    · exact isNamePart_of_isNameStart hp
    · exact hall d hd
  · rintro ⟨⟨c, tail, rfl, hp⟩, rfl, hall, hstops⟩
    have hrun : run isNamePart (tail ++ rest) = some (tail, rest) :=
      run_eq_some.2 ⟨rfl, fun d hd => hall d (List.mem_cons_of_mem _ hd), hstops⟩
    refine ⟨c, tail ++ rest, one_eq_some.2 ⟨rfl, hp⟩, ?_⟩
    exact bind_eq_some.2 ⟨tail, rest, hrun, rfl⟩

theorem count64?_eq_some {digits : List Char} {n : Nat} :
    count64? digits = some n ↔ Nat.ofDigitChars 10 digits 0 = n ∧ n < 2 ^ 64 := by
  rw [count64?, Option.ite_none_right_eq_some, Option.some.injEq]
  constructor
  · rintro ⟨hlt, rfl⟩
    exact ⟨rfl, by simpa [Nat.pow_eq] using hlt⟩
  · rintro ⟨rfl, hlt⟩
    exact ⟨by simpa [Nat.pow_eq] using hlt, rfl⟩

end RosSchema.Reader

import RosSchema.Proofs.Literal.Units
import RosSchema.Text.Quoted

/-!
# Escaped texts

In an escaped text every backslash takes the character after it along, and no other character is one of
a class that would end the text. What the decoder accepts is escaped, and so is what is written between
quotes.
-/

namespace RosSchema.Literal

open RosSchema.Text (escape quote)

/-- A text in which no character of a class stands outside of an escape. -/
inductive Escaped (stop : Char → Bool) : List Char → Prop where
  | nil : Escaped stop []
  | pair (c : Char) {cs : List Char} (rest : Escaped stop cs) : Escaped stop ('\\' :: c :: cs)
  | char {c : Char} {cs : List Char} (plain : c ≠ '\\') (inside : stop c = false)
      (rest : Escaped stop cs) : Escaped stop (c :: cs)

namespace Escaped

variable {stop : Char → Bool} {as bs : List Char}

theorem of_pair {c : Char} {cs : List Char} (h : Escaped stop ('\\' :: c :: cs)) : Escaped stop cs := by
  cases h with
  | pair _ rest => exact rest
  | char plain _ _ => exact absurd rfl plain

theorem of_char {c : Char} {cs : List Char} (plain : c ≠ '\\') (h : Escaped stop (c :: cs)) :
    stop c = false ∧ Escaped stop cs := by
  cases h with
  | pair _ _ => exact absurd rfl plain
  | char _ inside rest => exact ⟨inside, rest⟩

theorem append (ha : Escaped stop as) (hb : Escaped stop bs) : Escaped stop (as ++ bs) := by
  induction ha with
  | nil => exact hb
  | pair c _ ih => exact .pair c ih
  | char plain inside _ ih => exact .char plain inside ih

/-- What follows an escaped text is escaped if both together are. -/
theorem of_append (ha : Escaped stop as) (h : Escaped stop (as ++ bs)) : Escaped stop bs := by
  induction ha with
  | nil => exact h
  | pair c _ ih => exact ih h.of_pair
  | char plain _ _ ih => exact ih (of_char plain h).2

theorem of_all {cs : List Char} (h : ∀ c ∈ cs, c ≠ '\\' ∧ stop c = false) : Escaped stop cs := by
  induction cs with
  | nil => exact .nil
  | cons c cs ih =>
    obtain ⟨plain, inside⟩ := h c List.mem_cons_self
    exact .char plain inside (ih fun d hd => h d (List.mem_cons_of_mem _ hd))

theorem not_cons {c : Char} {cs : List Char} (plain : c ≠ '\\') (hc : stop c = true) :
    ¬ Escaped stop (c :: cs) := by
  intro h
  have inside := (of_char plain h).1
  simp [hc] at inside

end Escaped

/-- Texts are taken apart as they are read: by escapes, and by characters that start none. -/
@[elab_as_elim]
theorem escapes_induction {motive : List Char → Prop} (nil : motive []) (dangling : motive ['\\'])
    (pair : ∀ c cs, motive cs → motive ('\\' :: c :: cs))
    (char : ∀ c cs, c ≠ '\\' → motive cs → motive (c :: cs)) (cs : List Char) : motive cs := by
  generalize hn : cs.length = n
  induction n using Nat.strong_induction_on generalizing cs with
  | _ n ih =>
    cases cs with
    | nil => exact nil
    | cons c cs =>
      rw [List.length_cons] at hn
      by_cases hc : c = '\\'
      · subst hc
        cases cs with
        | nil => exact dangling
        | cons d cs =>
          rw [List.length_cons] at hn
          exact pair d cs (ih cs.length (by omega) cs rfl)
      · exact char c cs hc (ih cs.length (by omega) cs rfl)

/-! ## Quoted runs -/

theorem lengthToQuote?_char {q c : Char} (plain : c ≠ '\\') (cs : List Char) :
    lengthToQuote? q (c :: cs) = if c = q then some 1 else (lengthToQuote? q cs).map (· + 1) :=
  lengthToQuote?.eq_3 q c cs fun _ _ h _ => plain h

/-- A quoted run ends at the first quote that is not escaped. -/
theorem lengthToQuote?_eq_some {q : Char} (hq : q ≠ '\\') {cs : List Char} {n : Nat} :
    lengthToQuote? q cs = some n ↔
      ∃ as bs, cs = as ++ q :: bs ∧ Escaped (· == q) as ∧ n = as.length + 1 := by
  constructor
  · intro h
    induction cs using escapes_induction generalizing n with
    | nil => cases h
    | dangling => simp [lengthToQuote?, hq.symm] at h
    | pair c rest ih =>
      rw [lengthToQuote?, Option.map_eq_some_iff] at h
      obtain ⟨k, hk, rfl⟩ := h
      obtain ⟨as, bs, rfl, has, rfl⟩ := ih hk
      exact ⟨'\\' :: c :: as, bs, rfl, .pair c has, by simp⟩
    | char c rest plain ih =>
      rw [lengthToQuote?_char plain] at h
      by_cases hc : c = q
      · rw [if_pos hc] at h
        subst hc
        exact ⟨[], rest, rfl, .nil, (Option.some.inj h).symm⟩
      · rw [if_neg hc, Option.map_eq_some_iff] at h
        obtain ⟨k, hk, rfl⟩ := h
        obtain ⟨as, bs, rfl, has, rfl⟩ := ih hk
        exact ⟨c :: as, bs, rfl, .char plain (by simpa using hc) has, rfl⟩
  · rintro ⟨as, bs, rfl, has, rfl⟩
    induction has with
    | nil => rw [List.nil_append, lengthToQuote?_char hq, if_pos rfl, List.length_nil]
    | pair c _ ih => simp [lengthToQuote?, ih]
    | char plain inside _ ih =>
      rw [List.cons_append, lengthToQuote?_char plain, if_neg (by simpa using inside), ih]
      rfl

/-- No part of an escaped text in front ends a quoted run. -/
theorem lengthToQuote?_eq_none {q : Char} (hq : q ≠ '\\') {cs text : List Char}
    (h : Escaped (· == q) text) (hfront : cs <+: text) : lengthToQuote? q cs = none := by
  obtain ⟨back, rfl⟩ := hfront
  by_contra hne
  obtain ⟨n, hn⟩ := Option.ne_none_iff_exists'.1 hne
  obtain ⟨as, bs, rfl, has, -⟩ := (lengthToQuote?_eq_some hq).1 hn
  rw [List.append_assoc] at h
  exact Escaped.not_cons hq (by simp) (has.of_append h)

/-! ## Units -/

theorem plain_of_isAlphanum {c : Char} (h : c.isAlphanum = true) : c ≠ '\\' ∧ isQuote c = false := by
  constructor
  · rintro rfl
    exact absurd h (by decide)
  · by_contra hq
    simp only [isQuote, Bool.or_eq_false_iff, decide_eq_false_iff_not, not_and_or, not_not] at hq
    rcases hq with rfl | rfl <;> exact absurd h (by decide)

/-- A sequence of units is escaped, and its own quote does not stand alone in it. -/
theorem Units.escaped {q : Option Char} (hq : ∀ c ∈ q, isQuote c = true) {cs decoded : List Char}
    (h : Units q cs decoded) : Escaped (fun c => some c == q) cs := by
  induction h with
  | nil => exact .nil
  | char inside plain _ ih => exact .char plain (beq_eq_false_iff_ne.2 inside) ih
  | escape text escape _ ih =>
    obtain ⟨c, digits, rfl, -, hdigits⟩ := escape.exists_cons
    have hescaped : Escaped (fun c => some c == q) digits := by
      refine .of_all fun x hx => ?_
      obtain ⟨hplain, hx⟩ := plain_of_isAlphanum (hdigits x hx)
      refine ⟨hplain, beq_eq_false_iff_ne.2 ?_⟩
      rintro rfl
      simp [hq x rfl] at hx
    exact .pair c (hescaped.append ih)

end RosSchema.Literal

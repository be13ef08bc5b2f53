import Mathlib
import RosSchema.Text.Blank

/-!
# Trimmed texts

A text is trimmed when no blank stands at either end. Trimming yields such a text, takes off nothing
but blanks, and leaves a trimmed text alone.
-/

namespace RosSchema.Text

theorem trimRight_eq_rdropWhile (cs : List Char) : trimRight cs = cs.rdropWhile isBlank := rfl

theorem trimRight_concat (cs : List Char) (c : Char) :
    trimRight (cs ++ [c]) = if isBlank c then trimRight cs else cs ++ [c] :=
  List.rdropWhile_concat ..

/-- Trimming on the right stops at the last character that is not blank. -/
theorem trimRight_append_cons {c : Char} (hc : isBlank c = false) (as bs : List Char) :
    trimRight (as ++ c :: bs) = as ++ c :: trimRight bs := by
  induction bs using List.reverseRecOn with
  | nil =>
    rw [trimRight_concat, hc]
    rfl
  | append_singleton bs d ih =>
    have hassoc : as ++ c :: (bs ++ [d]) = (as ++ c :: bs) ++ [d] := by simp
    rw [hassoc, trimRight_concat, trimRight_concat, ih]
    split <;> simp

theorem trimRight_cons (c : Char) (cs : List Char) : trimRight (c :: cs) =
    if trimRight cs = [] then (if isBlank c then [] else [c]) else c :: trimRight cs := by
  induction cs using List.reverseRecOn with
  | nil => exact trimRight_concat [] c
  | append_singleton cs d ih =>
    rw [← List.cons_append, trimRight_concat, trimRight_concat]
    by_cases hd : isBlank d = true
    · rw [if_pos hd, if_pos hd, ih]
    · rw [if_neg hd, if_neg hd, if_neg (List.concat_ne_nil d cs)]
      rfl

structure Trimmed (cs : List Char) : Prop where
  head : ∀ c ∈ cs.head?, isBlank c = false
  last : ∀ c ∈ cs.getLast?, isBlank c = false

theorem trimLeft_of_head {cs : List Char} (h : ∀ c ∈ cs.head?, isBlank c = false) :
    trimLeft cs = cs := by
  cases cs with
  | nil => rfl
  | cons c cs => exact List.dropWhile_cons_of_neg (by simp [h c rfl])

/-- Trimming on the left stops at the first character that is not blank. -/
theorem trimLeft_append_cons {c : Char} (hc : isBlank c = false) (as bs : List Char) :
    trimLeft (as ++ c :: bs) = trimLeft as ++ c :: bs := by
  induction as with
  | nil => exact trimLeft_of_head (by simpa using hc)
  | cons a as ih =>
    cases ha : isBlank a with
    | true =>
      have hcons (cs : List Char) : trimLeft (a :: cs) = trimLeft cs := List.dropWhile_cons_of_pos ha
      rw [List.cons_append, hcons, hcons, ih]
    | false =>
      have hcons (cs : List Char) : trimLeft (a :: cs) = a :: cs :=
        List.dropWhile_cons_of_neg (by simp [ha])
      rw [List.cons_append, hcons, hcons, List.cons_append]

theorem trimRight_of_last {cs : List Char} (h : ∀ c ∈ cs.getLast?, isBlank c = false) :
    trimRight cs = cs := by
  rw [trimRight_eq_rdropWhile, List.rdropWhile_eq_self_iff]
  intro hne
  simp [h _ (List.getLast?_eq_getLast_of_ne_nil hne)]

/-- Trimming takes nothing off a trimmed text. -/
theorem Trimmed.trim_eq {cs : List Char} (h : Trimmed cs) : trim cs = cs := by
  rw [trim, trimLeft_of_head h.head, trimRight_of_last h.last]

theorem head_trimLeft {cs : List Char} : ∀ c ∈ (trimLeft cs).head?, isBlank c = false := by
  intro c hc
  have hne : trimLeft cs ≠ [] := by
    intro h
    simp [h] at hc
  have hnot := List.head_dropWhile_not isBlank (l := cs) hne
  rw [List.head?_eq_some_head hne] at hc
  obtain rfl := Option.some.inj hc
  exact Bool.eq_false_iff.2 (by simpa [trimLeft] using hnot)

theorem last_trimRight {cs : List Char} : ∀ c ∈ (trimRight cs).getLast?, isBlank c = false := by
  intro c hc
  have hne : cs.rdropWhile isBlank ≠ [] := by
    intro h
    simp [trimRight_eq_rdropWhile, h] at hc
  have hnot := List.rdropWhile_last_not isBlank cs hne
  rw [trimRight_eq_rdropWhile, List.getLast?_eq_getLast_of_ne_nil hne] at hc
  obtain rfl := Option.some.inj hc
  simpa using hnot

/-- A prefix that is not empty starts like the whole. -/
theorem head?_of_front {as bs : List Char} (h : as <+: bs) : ∀ c ∈ as.head?, c ∈ bs.head? := by
  obtain ⟨cs, rfl⟩ := h
  intro c hc
  cases as with
  | nil => simp at hc
  | cons a as => simpa using hc

theorem trimmed_trim (cs : List Char) : Trimmed (trim cs) where
  head c hc := head_trimLeft c (head?_of_front ( List.rdropWhile_prefix ..) c hc)
  last := last_trimRight

@[simp] theorem trim_trim (cs : List Char) : trim (trim cs) = trim cs := (trimmed_trim cs).trim_eq

/-- Trimming on the right takes blanks off the end. -/
theorem exists_trimRight_append (cs : List Char) :
    ∃ blanks, cs = trimRight cs ++ blanks ∧ ∀ c ∈ blanks, isBlank c = true := by
  refine ⟨cs.rtakeWhile isBlank, ?_, fun c hc => List.mem_rtakeWhile_imp hc⟩
  exact List.rdropWhile_append_rtakeWhile.symm

/-- Trimming on the left takes blanks off the front. -/
theorem exists_append_trimLeft (cs : List Char) :
    ∃ blanks, cs = blanks ++ trimLeft cs ∧ ∀ c ∈ blanks, isBlank c = true :=
  ⟨cs.takeWhile isBlank, List.takeWhile_append_dropWhile.symm, fun _ hc => (List.mem_takeWhile_imp hc)⟩

/-- Trimming takes blanks off both ends. -/
theorem exists_append_trim_append (cs : List Char) :
    ∃ front back, cs = front ++ trim cs ++ back ∧
      (∀ c ∈ front, isBlank c = true) ∧ ∀ c ∈ back, isBlank c = true := by
  obtain ⟨front, hfront, hf⟩ := exists_append_trimLeft cs
  obtain ⟨back, hback, hb⟩ := exists_trimRight_append (trimLeft cs)
  refine ⟨front, back, ?_, hf, hb⟩
  calc cs = front ++ trimLeft cs := hfront
    _ = front ++ (trimRight (trimLeft cs) ++ back) := by rw [← hback]
    _ = front ++ trim cs ++ back := by rw [trim, List.append_assoc]

/-- Blanks in front do not count. -/
theorem trimLeft_append {blanks cs : List Char} (h : ∀ c ∈ blanks, isBlank c = true) :
    trimLeft (blanks ++ cs) = trimLeft cs :=
  List.dropWhile_append_of_pos h

theorem trimLeft_space (cs : List Char) : trimLeft (' ' :: cs) = trimLeft cs :=
  List.dropWhile_cons_of_pos (by decide)

/-- Blanks at the end do not count. -/
theorem trimRight_append {blanks : List Char} (h : ∀ c ∈ blanks, isBlank c = true) (cs : List Char) :
    trimRight (cs ++ blanks) = trimRight cs := by
  induction blanks using List.reverseRecOn with
  | nil => rw [List.append_nil]
  | append_singleton blanks c ih =>
    rw [← List.append_assoc, trimRight_concat, if_pos (h c (by simp))]
    exact ih fun d hd => h d (List.mem_append_left _ hd)

theorem trimRight_front (cs : List Char) : trimRight cs <+: cs :=  List.rdropWhile_prefix ..

theorem trim_eq_nil_iff {cs : List Char} : trim cs = [] ↔ ∀ c ∈ cs, isBlank c = true := by
  constructor
  · intro h
    obtain ⟨front, back, hcs, hf, hb⟩ := exists_append_trim_append cs
    rw [h, List.append_nil] at hcs
    intro c hc
    rw [hcs, List.mem_append] at hc
    exact hc.elim (hf c) (hb c)
  · intro h
    rw [trim, trimLeft, List.dropWhile_eq_nil_iff.2 h]
    rfl

theorem trim_subset (cs : List Char) : trim cs ⊆ cs := by
  obtain ⟨front, back, hcs, -, -⟩ := exists_append_trim_append cs
  intro c hc
  rw [hcs]
  simp [hc]

end RosSchema.Text

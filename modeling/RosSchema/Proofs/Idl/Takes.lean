import RosSchema.Proofs.Idl.Notation
import RosSchema.Proofs.Idl.Sections

/-!
# Readers on words

A text is described by the words that are left of it: at their first one (`At`), or at the gap before that
(`Behind`). `Reads` and `Fails` say what a reader does on all texts of a description, with a rule for each way
in which readers are put together; the order of the alternatives of a choice is the order of the rules.
-/

namespace RosSchema.Idl

open Reader

variable {α β : Type}

/-! ## What readers do -/

/-- On texts of one kind a reader gives a value and leaves texts of another kind. -/
def Reads (S : List Char → Prop) (p : Reader α) (a : α) (T : List Char → Prop) : Prop :=
  ∀ cs, S cs → ∃ rest, p cs = some (a, rest) ∧ T rest

def Fails (S : List Char → Prop) (p : Reader α) : Prop := ∀ cs, S cs → p cs = none

section Rules

variable {S T U : List Char → Prop} {p q : Reader α} {r : Reader β} {f : α → Reader β} {a : α} {b : β}

namespace Reads

theorem pure (a : α) : Reads S (Pure.pure a) a S := fun cs hcs => ⟨cs, rfl, hcs⟩

theorem given {x : Option α} (h : x = some a) : Reads S (Reader.given x) a S := fun cs hcs =>
  ⟨cs, given_eq_some.2 ⟨h, rfl⟩, hcs⟩

theorem guarded {P : Prop} [Decidable P] (h : P) : Reads S (guard P) () S := fun cs hcs =>
  ⟨cs, guard_eq_some.2 ⟨h, rfl⟩, hcs⟩

theorem bind (hp : Reads S p a T) (hf : Reads T (f a) b U) : Reads S (p >>= f) b U := by
  intro cs hcs
  obtain ⟨mid, hread, hmid⟩ := hp cs hcs
  obtain ⟨rest, hread', hrest⟩ := hf mid hmid
  exact ⟨rest, bind_eq_some.2 ⟨a, mid, hread, hread'⟩, hrest⟩

theorem map (g : α → β) (hp : Reads S p a T) : Reads S (g <$> p) (g a) T := by
  rw [map_eq_pure_bind]
  exact hp.bind (.pure (g a))

theorem seqLeft (hp : Reads S p a T) (hr : Reads T r b U) : Reads S (p <* r) a U := by
  rw [seqLeft_eq_bind]
  exact hp.bind (hr.bind (.pure a))

theorem seqRight (hp : Reads S p a T) (hr : Reads T r b U) : Reads S (p *> r) b U := by
  rw [seqRight_eq_bind]
  exact hp.bind hr

theorem orElse_left (hp : Reads S p a T) : Reads S (p <|> q) a T := by
  intro cs hcs
  obtain ⟨rest, hread, hrest⟩ := hp cs hcs
  exact ⟨rest, orElse_eq_some.2 (.inl hread), hrest⟩

theorem orElse_right (hp : Fails S p) (hq : Reads S q a T) : Reads S (p <|> q) a T := by
  intro cs hcs
  obtain ⟨rest, hread, hrest⟩ := hq cs hcs
  exact ⟨rest, orElse_eq_some.2 (.inr ⟨hp cs hcs, hread⟩), hrest⟩

theorem optional_some (hp : Reads S p a T) : Reads S (optional p) (some a) T := (hp.map some).orElse_left

theorem optional_none (hp : Fails S p) : Reads S (optional p) none S := by
  intro cs hcs
  exact ⟨cs, optional_eq_some.2 (.inr ⟨hp cs hcs, rfl, rfl⟩), hcs⟩

/-- No value at all. -/
theorem many_nil (hp : Fails S p) (limit : Nat) : Reads S (Reader.many p limit) [] S := by
  intro cs hcs
  cases limit with
  | zero => exact ⟨cs, rfl, hcs⟩
  | succ limit => exact ⟨cs, by rw [many_succ_apply, hp cs hcs]; rfl, hcs⟩

/-- One value and no other. -/
theorem many_one (hp : Reads S p a T) (hstop : Fails T p) {limit : Nat} (hlimit : 0 < limit) :
    Reads S (Reader.many p limit) [a] T := by
  cases limit with
  | zero => cases hlimit
  | succ limit => exact orElse_left (hp.bind ((many_nil hstop limit).bind (.pure [a])))

/-- One value after the other, as long as each is read before the texts of the rest. -/
theorem many {γ : Type} {value : γ → α} {K : List γ → List Char → Prop} {parts : List γ} {limit : Nat}
    (hread : ∀ part ∈ parts, ∀ rest, Reads (K (part :: rest)) p (value part) (K rest)) (hstop : Fails (K []) p)
    (hlimit : parts.length ≤ limit) : Reads (K parts) (Reader.many p limit) (parts.map value) (K []) := by
  induction parts generalizing limit with
  | nil => exact many_nil hstop limit
  | cons part parts ih =>
    cases limit with
    | zero => cases hlimit
    | succ limit =>
      have hfirst := hread part List.mem_cons_self parts
      have hrest := ih (fun other hother => hread other (List.mem_cons_of_mem part hother))
        (Nat.le_of_succ_le_succ hlimit)
      exact (hfirst.bind (hrest.bind (.pure (value part :: parts.map value)))).orElse_left

end Reads

namespace Fails

theorem bind (hp : Fails S p) : Fails S (p >>= f) := by
  intro cs hcs
  change (p cs >>= fun r => f r.1 r.2) = none
  rw [hp cs hcs]
  rfl

theorem bind_of_reads (hp : Reads S p a T) (hf : Fails T (f a)) : Fails S (p >>= f) := by
  intro cs hcs
  obtain ⟨mid, hread, hmid⟩ := hp cs hcs
  rw [bind_of_eq_some hread]
  exact hf mid hmid

theorem map (g : α → β) (hp : Fails S p) : Fails S (g <$> p) := by
  rw [map_eq_pure_bind]
  exact hp.bind

theorem seqLeft (hp : Fails S p) : Fails S (p <* r) := by
  rw [seqLeft_eq_bind]
  exact hp.bind

theorem seqRight (hp : Fails S p) : Fails S (p *> r) := by
  rw [seqRight_eq_bind]
  exact hp.bind

theorem seqRight_of_reads (hp : Reads S p a T) (hr : Fails T r) : Fails S (p *> r) := by
  rw [seqRight_eq_bind]
  exact bind_of_reads hp hr

theorem orElse (hp : Fails S p) (hq : Fails S q) : Fails S (p <|> q) := by
  intro cs hcs
  rw [orElse_apply, hp cs hcs, hq cs hcs]
  rfl

/-- The choice of one reader or another, and something after both. -/
theorem orElse_bind (hp : Fails S (p >>= f)) (hq : Fails S (q >>= f)) : Fails S ((p <|> q) >>= f) := by
  intro cs hcs
  have hp := hp cs hcs
  have hq := hq cs hcs
  refine Option.eq_none_iff_forall_ne_some.2 fun _ hread => ?_
  obtain ⟨a, mid, hchoice, hrest⟩ := bind_eq_some.1 hread
  rcases orElse_eq_some.1 hchoice with hread | ⟨-, hread⟩
  · rw [bind_of_eq_some hread, hrest] at hp
    cases hp
  · rw [bind_of_eq_some hread, hrest] at hq
    cases hq

end Fails

end Rules

/-! ## Words -/

/-- A word that starts with no gap and that no comment starts in or after. -/
structure IsToken (word : List Char) : Prop where
  start : ∃ c rest, word = c :: rest ∧ isGap c = false
  uncommented : ∀ rest, strip .code (word ++ rest) = word ++ strip .code rest

/-- A text of words, each with a gap after it. -/
inductive At : List (List Char) → List Char → Prop where
  | nil : At [] []
  | cons {word gaps : List Char} {words : List (List Char)} {cs : List Char} (hword : IsToken word)
      (hgaps : Word isGap gaps) (rest : At words cs) : At (word :: words) (word ++ (gaps ++ cs))

/-- A text that starts with the gap before some words. -/
def Behind (words : List (List Char)) (cs : List Char) : Prop :=
  ∃ gaps rest, cs = gaps ++ rest ∧ Word isGap gaps ∧ At words rest

def first? (words : List (List Char)) : Option Char := words.head?.bind List.head?

@[simp] theorem first?_nil : first? [] = none := rfl

theorem At.head? {words : List (List Char)} {cs : List Char} (h : At words cs) : cs.head? = first? words := by
  cases h with
  | nil => rfl
  | cons hword _ _ =>
    obtain ⟨c, rest, rfl, -⟩ := hword.start
    rfl

theorem At.isGap_head? {words : List (List Char)} {cs : List Char} (h : At words cs) :
    ∀ c ∈ cs.head?, isGap c = false := by
  cases h with
  | nil => simp
  | cons hword _ _ =>
    obtain ⟨c, rest, rfl, hc⟩ := hword.start
    rintro d ⟨⟩
    exact hc

/-- A gap is taken off as a whole. -/
theorem splits_of_at {words : List (List Char)} {gaps rest : List Char} (hgaps : ∀ c ∈ gaps, isGap c = true)
    (h : At words rest) : Splits isGap (gaps ++ rest) gaps rest :=
  ⟨rfl, hgaps, h.isGap_head?⟩

section Words

variable {word : List Char} {words : List (List Char)} {p : Reader α} {a : α} {c : Char}

theorem reads_gap : Reads (Behind words) gap () (At words) := by
  rintro cs ⟨gaps, rest, rfl, hgaps, hrest⟩
  exact ⟨rest, discard_eq_some.2 ⟨gaps, run_eq_some.2 (splits_of_at hgaps.all hrest)⟩, hrest⟩

theorem reads_gap_at : Reads (At words) gap () (At words) := by
  intro cs hcs
  have hsplits : Splits isGap ([] ++ cs) [] cs := splits_of_at (List.forall_mem_nil _) hcs
  exact ⟨cs, discard_eq_some.2 ⟨[], run_eq_some.2 hsplits⟩, hcs⟩

theorem reads_gap1 : Reads (Behind words) gap1 () (At words) := by
  rintro cs ⟨gaps, rest, rfl, hgaps, hrest⟩
  exact ⟨rest, discard_eq_some.2 ⟨gaps, run1_append hgaps hrest.isGap_head?⟩, hrest⟩

/-- A reader that takes the word at a gap takes it off the text. -/
theorem reads_word
    (h : ∀ rest, (∃ c tail, rest = c :: tail ∧ isGap c = true) → p (word ++ rest) = some (a, rest)) :
    Reads (At (word :: words)) p a (Behind words) := by
  intro cs hcs
  cases hcs with
  | @cons _ gaps _ rest _ hgaps hrest =>
    obtain ⟨c, tail, rfl, hc⟩ := hgaps.exists_cons
    exact ⟨c :: tail ++ rest, h _ ⟨c, tail ++ rest, rfl, hc⟩, c :: tail, rest, rfl, hgaps, hrest⟩

theorem reads_mark : Reads (At ([c] :: words)) (mark c) () (Behind words) :=
  reads_word fun _ _ => mark_eq_some.2 rfl

/-- A mark at the front of a word leaves the rest of the word. -/
theorem reads_mark_front (hword : IsToken word) :
    Reads (At ((c :: word) :: words)) (mark c) () (At (word :: words)) := by
  intro cs hcs
  cases hcs with
  | cons _ hgaps hrest => exact ⟨_, mark_eq_some.2 rfl, .cons hword hgaps hrest⟩

theorem reads_token (s : String) : Reads (At (s.toList :: words)) (token s) () (Behind words) :=
  reads_word fun _ _ => token_eq_some.2 rfl

theorem reads_spaced : Reads (Behind ([c] :: words)) (spaced c) () (At words) :=
  (reads_gap.seqRight reads_mark).seqRight reads_gap

/-! ## Failing at the first character -/

theorem fails_one {f : Char → Bool} (h : ∀ c ∈ first? words, f c = false) : Fails (At words) (one f) := by
  intro cs hcs
  have hhead := hcs.head?
  cases cs with
  | nil => rfl
  | cons c cs =>
    rw [one, h c (hhead ▸ rfl)]
    rfl

theorem fails_run1 {f : Char → Bool} (h : ∀ c ∈ first? words, f c = false) : Fails (At words) (run1 f) :=
  (fails_one h).bind

theorem fails_mark (h : c ∉ first? words) : Fails (At words) (mark c) := by
  have hc : ∀ d ∈ first? words, (d == c) = false := by
    intro d hd
    rw [beq_eq_false_iff_ne]
    rintro rfl
    exact h hd
  exact (fails_one hc).map _

theorem fails_identifier (h : ∀ c ∈ first? words, isNameStart c = false) : Fails (At words) identifier :=
  (fails_one h).bind

theorem fails_token {s : String} (hs : s.toList.head? = some c) (h : c ∉ first? words) :
    Fails (At words) (token s) := by
  intro cs hcs
  have hhead := hcs.head?
  cases hread : token s cs with
  | none => rfl
  | some r =>
    obtain ⟨u, rest⟩ := r
    rw [token_eq_some.1 hread, List.head?_append, hs] at hhead
    exact absurd hhead.symm h

/-- A token that starts like a name is not read off anything else. -/
theorem fails_token_of_start {s : String} (hs : s.toList.head?.any isNameStart = true)
    (h : ∀ c ∈ first? words, isNameStart c = false) : Fails (At words) (token s) := by
  obtain ⟨c, hc, hstart⟩ := (Option.any_eq_true _ _).1 hs
  refine fails_token hc fun hfirst => ?_
  rw [h c hfirst] at hstart
  cases hstart

theorem fails_spaced (h : c ∉ first? words) : Fails (Behind words) (spaced c) := by
  have hmark : Fails (Behind words) (gap *> mark c) := Fails.seqRight_of_reads reads_gap (fails_mark h)
  exact hmark.seqRight

/-! ## Failing after the beginning of a word -/

/-- What is taken off a word by a token is all of it, or something that is neither a gap nor the end of the word
follows it. -/
theorem token_at {s : String} (hs : s.toList.all (!isGap ·) = true) {cs rest : List Char}
    (hcs : At (word :: words) cs) (hread : token s cs = some ((), rest)) :
    word = s.toList ∧ Behind words rest ∨
      ∃ c part tail, word = s.toList ++ c :: part ∧ rest = c :: part ++ tail := by
  have hcs' := token_eq_some.1 hread
  cases hcs with
  | @cons _ gaps _ tail _ hgaps hrest =>
    obtain ⟨g, more, rfl, hg⟩ := hgaps.exists_cons
    rcases List.append_eq_append_iff.1 hcs' with ⟨as, has, hmid⟩ | ⟨bs, hbs, hmid⟩
    · cases as with
      | nil =>
        rw [List.append_nil] at has
        exact .inl ⟨has.symm, g :: more, tail, hmid.symm, hgaps, hrest⟩
      | cons d as =>
        obtain ⟨rfl, -⟩ := List.cons.inj hmid
        have hgap : (!isGap g) = true := List.all_eq_true.1 hs g (by simp [has])
        rw [hg] at hgap
        cases hgap
    · cases bs with
      | nil => exact .inl ⟨by simpa using hbs, g :: more, tail, by simpa using hmid, hgaps, hrest⟩
      | cons d bs => exact .inr ⟨d, bs, _, hbs, hmid⟩

/-- What follows a token fails after a whole word, and in the middle of one. -/
theorem fails_token_bind {s : String} {f : Unit → Reader α} (hs : s.toList.all (!isGap ·) = true)
    (hwhole : word = s.toList → Fails (Behind words) (f ()))
    (hpart : ∀ c part tail, word = s.toList ++ c :: part → f () (c :: part ++ tail) = none) :
    Fails (At (word :: words)) (token s >>= f) := by
  intro cs hcs
  refine Option.eq_none_iff_forall_ne_some.2 fun _ hr => ?_
  obtain ⟨⟨⟩, rest, hread, hf⟩ := bind_eq_some.1 hr
  rcases token_at hs hcs hread with ⟨heq, hrest⟩ | ⟨c, part, tail, heq, rfl⟩
  · rw [hwhole heq rest hrest] at hf
    cases hf
  · rw [hpart c part tail heq] at hf
    cases hf

/-- A keyword is not read off another word, nor off a longer one. -/
theorem fails_keyword {s : String} {f : Reader α} (hs : s.toList.all (!isGap ·) = true)
    (hword : ∀ c ∈ word, isGap c = false) (hne : word ≠ s.toList) :
    Fails (At (word :: words)) (token s >>= fun _ => gap1 >>= fun _ => f) := by
  refine fails_token_bind hs (fun heq => absurd heq hne) fun c part tail heq => ?_
  have hc : isGap c = false := hword c (by simp [heq])
  have hgap : gap1 (c :: part ++ tail) = none := by
    rw [List.cons_append, gap1_cons, if_neg (by simp [hc])]
  change (gap1 (c :: part ++ tail) >>= fun r => f r.2) = none
  rw [hgap]
  rfl

/-- A token with a bracket after it is not read off a word without the bracket, unless it follows. -/
theorem fails_opened {s : String} {f : Reader α} (hs : s.toList.all (!isGap ·) = true)
    (hword : ∀ c ∈ word, isGap c = false ∧ c ≠ '<') (hnext : '<' ∉ first? words) :
    Fails (At (word :: words)) (token s >>= fun _ => spaced '<' >>= fun _ => f) := by
  refine fails_token_bind hs (fun _ => (fails_spaced hnext).bind) fun c part tail heq => ?_
  obtain ⟨hc, hne⟩ := hword c (by simp [heq])
  refine Option.eq_none_iff_forall_ne_some.2 fun _ hr => ?_
  obtain ⟨_, _, hspaced, -⟩ := bind_eq_some.1 hr
  rw [spaced, seqRight_eq_bind] at hspaced
  obtain ⟨_, mid, hmark, -⟩ := bind_eq_some.1 hspaced
  rw [seqRight_eq_bind] at hmark
  obtain ⟨_, mid', hgap, hmark⟩ := bind_eq_some.1 hmark
  obtain ⟨gaps, hrun⟩ := discard_eq_some.1 hgap
  have hsplits : Splits isGap (c :: part ++ tail) [] (c :: part ++ tail) :=
    ⟨rfl, by simp, by rintro _ ⟨⟩; exact hc⟩
  obtain ⟨-, rfl⟩ := (run_eq_some.1 hrun).unique hsplits
  exact hne (List.cons.inj (mark_eq_some.1 hmark)).1

end Words

end RosSchema.Idl

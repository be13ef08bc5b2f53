import RosSchema.Idl.Grammar
import RosSchema.Proofs.Text.Reading

/-!
# Readers that do not see the end of a text

Two texts are alike when they differ at most in the gaps at their ends. Readers of the grammar give the
same value on texts that are alike and leave texts that are alike again, whatever the limits of their
repetitions are, as long as no text is longer. `Alike` says so of two readers; there is a rule for each
way in which readers are put together.
-/

namespace RosSchema.Idl

open Reader

variable {α β : Type}

/-- Texts that differ at most in the gaps at their ends. -/
inductive EndsAlike : List Char → List Char → Prop where
  | gaps {cs ds : List Char} (left : ∀ c ∈ cs, isGap c = true) (right : ∀ c ∈ ds, isGap c = true) :
      EndsAlike cs ds
  | cons (c : Char) {cs ds : List Char} (rest : EndsAlike cs ds) : EndsAlike (c :: cs) (c :: ds)

namespace EndsAlike

variable {cs ds : List Char}

theorem refl : ∀ cs : List Char, EndsAlike cs cs
  | [] => .gaps (by simp) (by simp)
  | c :: cs => .cons c (refl cs)

theorem symm (h : EndsAlike cs ds) : EndsAlike ds cs := by
  induction h with
  | gaps left right => exact .gaps right left
  | cons c _ ih => exact .cons c ih

/-- A text that is alike with one of gaps holds gaps only. -/
theorem all_gaps (h : EndsAlike cs ds) (hcs : ∀ c ∈ cs, isGap c = true) : ∀ c ∈ ds, isGap c = true := by
  induction h with
  | gaps _ right => exact right
  | cons c _ ih =>
    obtain ⟨hc, hrest⟩ := List.forall_mem_cons.1 hcs
    exact List.forall_mem_cons.2 ⟨hc, ih hrest⟩

theorem trans {es : List Char} (h : EndsAlike cs ds) (h' : EndsAlike ds es) : EndsAlike cs es := by
  induction h generalizing es with
  | gaps left right => exact .gaps left (h'.all_gaps right)
  | @cons c cs ds rest ih =>
    cases h' with
    | gaps left right => exact .gaps ((rest.cons c).symm.all_gaps left) right
    | cons _ rest' => exact .cons c (ih rest')

/-- Texts that are alike still are after the same front. -/
theorem append_left (front : List Char) (h : EndsAlike cs ds) : EndsAlike (front ++ cs) (front ++ ds) := by
  induction front with
  | nil => exact h
  | cons c front ih => exact .cons c ih

theorem eq_nil (h : EndsAlike [] ds) (hds : ∀ c ∈ ds.head?, isGap c = false) : ds = [] := by
  cases ds with
  | nil => rfl
  | cons d ds =>
    have hgap := h.all_gaps (by simp) d List.mem_cons_self
    simp [hds d rfl] at hgap

/-- A front that ends with a character of no gap stands in front of both texts. -/
theorem of_append {front rest : List Char} (hlast : ∀ c ∈ front.getLast?, isGap c = false)
    (h : EndsAlike (front ++ rest) ds) : ∃ rest', ds = front ++ rest' ∧ EndsAlike rest rest' := by
  induction front generalizing ds with
  | nil => exact ⟨ds, rfl, h⟩
  | cons c front ih =>
    cases h with
    | gaps left _ =>
      have hne : c :: front ≠ [] := List.cons_ne_nil c front
      have hgap := left _ (List.mem_append_left rest (List.getLast_mem hne))
      rw [hlast _ (List.getLast?_eq_getLast_of_ne_nil hne)] at hgap
      cases hgap
    | @cons _ _ ds tail =>
      cases front with
      | nil => exact ⟨ds, rfl, tail⟩
      | cons d front =>
        obtain ⟨rest', rfl, hrest⟩ := ih hlast tail
        exact ⟨rest', rfl, hrest⟩

/-- A run of a class without gaps is the same on both sides. -/
theorem takeWhile_eq {p : Char → Bool} (hp : ∀ c, isGap c = true → p c = false) (h : EndsAlike cs ds) :
    cs.takeWhile p = ds.takeWhile p := by
  have hnil (es : List Char) (hes : ∀ c ∈ es, isGap c = true) : es.takeWhile p = [] := by
    cases es with
    | nil => rfl
    | cons c es => exact List.takeWhile_cons_of_neg (by simp [hp c (hes c List.mem_cons_self)])
  induction h with
  | gaps left right => rw [hnil _ left, hnil _ right]
  | cons c _ ih => rw [List.takeWhile_cons, List.takeWhile_cons, ih]

theorem dropWhile (p : Char → Bool) (h : EndsAlike cs ds) :
    EndsAlike (cs.dropWhile p) (ds.dropWhile p) := by
  induction h with
  | gaps left right =>
    exact .gaps (fun c hc => left c (List.dropWhile_sublist p |>.subset hc))
      (fun c hc => right c (List.dropWhile_sublist p |>.subset hc))
  | cons c rest ih =>
    rw [List.dropWhile_cons, List.dropWhile_cons]
    split
    · exact ih
    · exact .cons c rest

end EndsAlike

/-! ## Results -/

/-- Results of readers on two texts: both fail, or both give one value and leave texts that are alike and
shorter by a number of characters. -/
inductive SameResult (k : Nat) (cs ds : List Char) :
    Option (α × List Char) → Option (α × List Char) → Prop where
  | fail : SameResult k cs ds none none
  | read (a : α) {left right : List Char} (ends : EndsAlike left right)
      (shorterLeft : left.length + k ≤ cs.length) (shorterRight : right.length + k ≤ ds.length) :
      SameResult k cs ds (some (a, left)) (some (a, right))

/-- Readers that have the same result on texts that are alike and no longer than two bounds, and that take
a number of characters at least. -/
def Alike (k m n : Nat) (p q : Reader α) : Prop :=
  ∀ cs ds, EndsAlike cs ds → cs.length ≤ m → ds.length ≤ n → SameResult k cs ds (p cs) (q ds)

namespace Alike

variable {k l m n : Nat} {p q p' q' : Reader α} {f g : α → Reader β}

/-- Both readers fail, or both give one value. -/
theorem elim (h : Alike k m n p q) {cs ds : List Char} (hends : EndsAlike cs ds) (hcs : cs.length ≤ m)
    (hds : ds.length ≤ n) : p cs = none ∧ q ds = none ∨ ∃ a left right, p cs = some (a, left) ∧
      q ds = some (a, right) ∧ EndsAlike left right ∧ left.length + k ≤ cs.length ∧
      right.length + k ≤ ds.length := by
  have hres := h cs ds hends hcs hds
  generalize p cs = x at hres ⊢
  generalize q ds = y at hres ⊢
  cases hres with
  | fail => exact .inl ⟨rfl, rfl⟩
  | read a ends left right => exact .inr ⟨a, _, _, rfl, rfl, ends, left, right⟩

/-- Readers that take a character fail on the empty text. -/
theorem eq_none_of_nil (h : Alike (k + 1) m n p q) : p [] = none := by
  rcases h.elim (.refl []) (Nat.zero_le m) (Nat.zero_le n) with ⟨hp, -⟩ | ⟨a, left, right, -, -, -, hlen, -⟩
  · exact hp
  · simp at hlen

theorem symm (h : Alike k m n p q) : Alike k n m q p := by
  intro cs ds hends hcs hds
  rcases h.elim hends.symm hds hcs with ⟨hp, hq⟩ | ⟨a, left, right, hp, hq, hends', hleft, hright⟩
  · rw [hp, hq]
    exact .fail
  · rw [hp, hq]
    exact .read a hends'.symm hright hleft

theorem mono {k' m' n' : Nat} (h : Alike k m n p q) (hk : k' ≤ k) (hm : m' ≤ m) (hn : n' ≤ n) :
    Alike k' m' n' p q := by
  intro cs ds hends hcs hds
  rcases h.elim hends (hcs.trans hm) (hds.trans hn) with
    ⟨hp, hq⟩ | ⟨a, left, right, hp, hq, hends', hleft, hright⟩
  · rw [hp, hq]
    exact .fail
  · rw [hp, hq]
    exact .read a hends' (by omega) (by omega)

theorem weaken (h : Alike k m n p q) {k' : Nat} (hk : k' ≤ k) : Alike k' m n p q :=
  h.mono hk le_rfl le_rfl

/-- A reader that never looks at the text. -/
theorem of_const {r : Option α} (hp : ∀ cs, p cs = r.map (·, cs)) : Alike 0 m n p p := by
  intro cs ds hends _ _
  rw [hp cs, hp ds]
  cases r with
  | none => exact .fail
  | some a => exact .read a hends le_rfl le_rfl

theorem pure (a : α) : Alike 0 m n (Pure.pure a) (Pure.pure a) :=
  of_const (r := some a) fun _ => rfl

theorem given (a : Option α) : Alike 0 m n (Reader.given a) (Reader.given a) :=
  of_const (r := a) fun _ => rfl

theorem guarded (P : Prop) [Decidable P] : Alike 0 m n (guard P : Reader Unit) (guard P) := by
  refine of_const (r := if P then some () else none) fun cs => ?_
  by_cases h : P
  · simp [guard, h]
  · simp only [guard, h, ↓reduceIte]
    rfl

/-- The second of two readers reads a text that is shorter already. -/
theorem bind_shorter (hp : Alike k m n p q) (hf : ∀ a, Alike l (m - k) (n - k) (f a) (g a)) :
    Alike (k + l) m n (p >>= f) (q >>= g) := by
  intro cs ds hends hcs hds
  change SameResult (k + l) cs ds (p cs >>= fun r => f r.1 r.2) (q ds >>= fun r => g r.1 r.2)
  rcases hp.elim hends hcs hds with ⟨hp, hq⟩ | ⟨a, left, right, hp, hq, hends', hleft, hright⟩
  · rw [hp, hq]
    exact .fail
  · rw [hp, hq]
    change SameResult (k + l) cs ds (f a left) (g a right)
    rcases (hf a).elim hends' (by omega) (by omega) with
      ⟨hp, hq⟩ | ⟨b, left', right', hp, hq, hends'', hleft', hright'⟩
    · rw [hp, hq]
      exact .fail
    · rw [hp, hq]
      exact .read b hends'' (by omega) (by omega)

theorem bind (hp : Alike k m n p q) (hf : ∀ a, Alike l m n (f a) (g a)) :
    Alike (k + l) m n (p >>= f) (q >>= g) :=
  hp.bind_shorter fun a => (hf a).mono le_rfl (Nat.sub_le m k) (Nat.sub_le n k)

theorem map (h : β → α) {p q : Reader β} (hp : Alike k m n p q) : Alike k m n (h <$> p) (h <$> q) :=
  hp.bind fun a => pure (h a)

theorem seqLeft {r s : Reader β} (hp : Alike k m n p q) (hr : Alike l m n r s) :
    Alike (k + l) m n (p <* r) (q <* s) :=
  hp.bind fun a => hr.bind fun _ => pure a

theorem seqRight {r s : Reader β} (hp : Alike k m n p q) (hr : Alike l m n r s) :
    Alike (k + l) m n (p *> r) (q *> s) :=
  hp.bind fun _ => hr

theorem orElse (hp : Alike k m n p q) (hp' : Alike k m n p' q') : Alike k m n (p <|> p') (q <|> q') := by
  intro cs ds hends hcs hds
  rw [orElse_apply, orElse_apply]
  rcases hp.elim hends hcs hds with ⟨hp, hq⟩ | ⟨a, left, right, hp, hq, hends', hleft, hright⟩
  · rw [hp, hq]
    exact hp' cs ds hends hcs hds
  · rw [hp, hq]
    exact .read a hends' hleft hright

theorem optional (hp : Alike k m n p q) : Alike 0 m n (optional p) (optional q) :=
  (hp.map some).weaken (Nat.zero_le k) |>.orElse (pure none)

/-- What a reader of a list does, as long as its own readers are alike. -/
theorem mapM {γ : Type} {f : γ → Reader α} (hf : ∀ c, Alike 0 m n (f c) (f c)) (xs : List γ) :
    Alike 0 m n (xs.mapM f) (xs.mapM f) := by
  induction xs with
  | nil => exact pure []
  | cons x xs ih =>
    rw [List.mapM_cons]
    exact (hf x).bind fun a => ih.bind fun as => pure (a :: as)

end Alike

/-! ## Repetition -/

theorem many_succ_apply (p : Reader α) (limit : Nat) (cs : List Char) : many p (limit + 1) cs =
    ((p cs).bind fun r => (many p limit r.2).map fun s => (r.1 :: s.1, s.2)).or (some ([], cs)) := by
  rw [many, orElse_apply]
  change Option.or (p cs >>= fun r => many p limit r.2 >>= fun s => some (r.1 :: s.1, s.2)) _ = _
  cases p cs with
  | none => rfl
  | some r => cases h : many p limit r.2 <;> simp [h]

/-- Where nothing is left for one of two readers that take something, the other reads nothing either. -/
theorem Alike.eq_none_of_ends {k m n : Nat} {p q : Reader α} (hp : Alike (k + 1) m n p q) {ds : List Char}
    (hends : EndsAlike [] ds) (hds : ds.length ≤ n) : q ds = none := by
  rcases hp.elim hends (Nat.zero_le m) hds with ⟨-, hq⟩ | ⟨a, left, right, hread, -⟩
  · exact hq
  · rw [hp.eq_none_of_nil] at hread
    cases hread

/-- As many values as there are. A limit that is no shorter than the text does not count. -/
theorem Alike.many {k m n limit limit' : Nat} {p q : Reader α} (hp : Alike (k + 1) m n p q) (hm : m ≤ limit)
    (hn : n ≤ limit') : Alike 0 m n (Reader.many p limit) (Reader.many q limit') := by
  suffices hall : ∀ limit limit' cs ds, EndsAlike cs ds → cs.length ≤ m → ds.length ≤ n →
      cs.length ≤ limit → ds.length ≤ limit' →
      SameResult 0 cs ds (Reader.many p limit cs) (Reader.many q limit' ds) from
    fun cs ds hends hcs hds => hall limit limit' cs ds hends hcs hds (hcs.trans hm) (hds.trans hn)
  intro limit
  induction limit with
  | zero =>
    intro limit' cs ds hends hcs hds hlimit _
    obtain rfl := List.length_eq_zero_iff.1 (Nat.le_zero.1 hlimit)
    cases limit' with
    | zero => exact .read [] hends le_rfl le_rfl
    | succ limit' =>
      rw [many_succ_apply, hp.eq_none_of_ends hends hds]
      exact .read [] hends le_rfl le_rfl
  | succ limit ih =>
    intro limit' cs ds hends hcs hds hlimit hlimit'
    cases limit' with
    | zero =>
      obtain rfl := List.length_eq_zero_iff.1 (Nat.le_zero.1 hlimit')
      rw [many_succ_apply, hp.symm.eq_none_of_ends hends.symm hcs]
      exact .read [] hends le_rfl le_rfl
    | succ limit' =>
      rw [many_succ_apply, many_succ_apply]
      rcases hp.elim hends hcs hds with ⟨hp, hq⟩ | ⟨a, left, right, hp, hq, hends', hleft, hright⟩
      · rw [hp, hq]
        exact .read [] hends le_rfl le_rfl
      · rw [hp, hq]
        have hrest := ih limit' left right hends' (by omega) (by omega) (by omega) (by omega)
        simp only [Option.bind_some]
        generalize Reader.many p limit left = x at hrest ⊢
        generalize Reader.many q limit' right = y at hrest ⊢
        cases hrest with
        | fail => exact .read [] hends le_rfl le_rfl
        | read as ends left' right' =>
          refine .read (a :: as) ends ?_ ?_ <;> dsimp only <;> omega

/-- Values with separators between them. -/
theorem Alike.separated {k l m n limit limit' : Nat} {separator separator' : Reader Unit} {p q : Reader α}
    (hs : Alike (l + 1) m n separator separator') (hp : Alike k m n p q) (hm : m ≤ limit) (hn : n ≤ limit') :
    Alike 0 m n (Reader.separated separator p limit) (Reader.separated separator' q limit') := by
  have hmany := ((hs.seqRight hp).weaken (show 0 + 1 ≤ l + 1 + k by omega)).many hm hn
  exact ((hp.bind fun a => hmany.bind fun as => .pure (a :: as)).weaken (Nat.zero_le _)).orElse (.pure [])

/-! ## Characters -/

section Classes

variable {m n : Nat} {p : Char → Bool} (hp : ∀ c, isGap c = true → p c = false)
include hp

theorem alike_one : Alike 1 m n (one p) (one p) := by
  intro cs ds hends _ _
  have hfail (es : List Char) (hes : ∀ c ∈ es, isGap c = true) : one p es = none := by
    cases es with
    | nil => rfl
    | cons c es => simp [one, hp c (hes c List.mem_cons_self)]
  cases hends with
  | gaps left right =>
    rw [hfail cs left, hfail ds right]
    exact .fail
  | cons c rest =>
    rw [one, one]
    split
    · exact .read c rest le_rfl le_rfl
    · exact .fail

theorem alike_run : Alike 0 m n (run p) (run p) := by
  intro cs ds hends _ _
  rw [run, run, hends.takeWhile_eq hp]
  exact .read _ (hends.dropWhile p) (List.dropWhile_sublist p).length_le (List.dropWhile_sublist p).length_le

theorem alike_run1 : Alike 1 m n (run1 p) (run1 p) :=
  (alike_one hp).bind fun c => (alike_run hp).bind fun cs => .pure (c :: cs)

theorem alike_stop : Alike 0 m n (stop p) (stop p) := by
  intro cs ds hends _ _
  have hread (es : List Char) (hes : ∀ c ∈ es, isGap c = true) : stop p es = some ((), es) := by
    cases es with
    | nil => rfl
    | cons c es => simp [stop, hp c (hes c List.mem_cons_self)]
  cases hends with
  | gaps left right =>
    rw [hread cs left, hread ds right]
    exact .read () (.gaps left right) le_rfl le_rfl
  | cons c rest =>
    rw [stop, stop]
    split
    · exact .fail
    · exact .read () (.cons c rest) le_rfl le_rfl

end Classes

section Words

variable {m n : Nat}

theorem alike_mark {c : Char} (hc : isGap c = false) : Alike 1 m n (mark c) (mark c) := by
  refine (alike_one fun d hd => beq_eq_false_iff_ne.2 ?_).map fun _ => ()
  rintro rfl
  simp [hc] at hd

/-- A reader that takes a front with no gap at its end, whatever follows it. -/
theorem alike_of_front {k : Nat} {p : Reader α} (h : ∀ cs a rest, p cs = some (a, rest) →
    ∃ front, cs = front ++ rest ∧ k ≤ front.length ∧ (∀ c ∈ front.getLast?, isGap c = false) ∧
      ∀ rest, p (front ++ rest) = some (a, rest)) : Alike k m n p p := by
  intro cs ds hends _ _
  cases hcs : p cs with
  | some r =>
    obtain ⟨a, rest⟩ := r
    obtain ⟨front, rfl, hlen, hlast, hread⟩ := h cs a rest hcs
    obtain ⟨rest', rfl, hends'⟩ := hends.of_append hlast
    rw [hread]
    refine .read a hends' ?_ ?_ <;> rw [List.length_append] <;> omega
  | none =>
    cases hds : p ds with
    | none => exact .fail
    | some r =>
      obtain ⟨a, rest⟩ := r
      obtain ⟨front, rfl, -, hlast, hread⟩ := h ds a rest hds
      obtain ⟨rest', rfl, -⟩ := hends.symm.of_append hlast
      rw [hread] at hcs
      cases hcs

theorem alike_token {s : String} (hs : s.toList.getLast?.all (!isGap ·) = true) :
    Alike s.length m n (token s) (token s) := by
  refine alike_of_front fun cs a rest h => ⟨s.toList, token_eq_some.1 h, ?_, ?_, fun rest => ?_⟩
  · rw [String.length_toList]
  · intro c hc
    rw [Option.mem_def] at hc
    simpa [hc] using hs
  · exact token_eq_some.2 rfl

end Words

/-! ## Gaps -/

section Gaps

variable {m n : Nat}

/-- A run of gaps, or of some of them, may be cut off by the end of the text. -/
theorem alike_skip (p : Char → Bool) : Alike 0 m n (discard (run p)) (discard (run p)) := by
  intro cs ds hends _ _
  exact .read () (hends.dropWhile p) (List.dropWhile_sublist p).length_le (List.dropWhile_sublist p).length_le

theorem alike_gap : Alike 0 m n gap gap := alike_skip isGap

theorem gap1_cons (c : Char) (cs : List Char) :
    gap1 (c :: cs) = if isGap c then some ((), cs.dropWhile isGap) else none := by
  split
  · next hc =>
    have hread : run1 isGap (c :: cs) = some (c :: cs.takeWhile isGap, cs.dropWhile isGap) := by
      rw [run1, bind_of_eq_some (one_eq_some.2 ⟨rfl, hc⟩)]
      rfl
    exact discard_eq_some.2 ⟨_, hread⟩
  · next hc =>
    change ((fun _ => ()) <$> run1 isGap) (c :: cs) = none
    rw [map_apply, run1_eq_none (Bool.eq_false_iff.2 hc)]
    rfl

/-- A gap that is needed may be the end of the text, but then nothing is read after it. -/
theorem Alike.gap1_bind {k : Nat} {p q : Reader α} (h : Alike (k + 1) m n p q) :
    Alike (k + 1) m n (gap1 >>= fun _ => p) (gap1 >>= fun _ => q) := by
  intro cs ds hends hcs hds
  have hfail {r : Reader α} (hr : r [] = none) {es : List Char} (hes : ∀ c ∈ es, isGap c = true) :
      (gap1 >>= fun _ => r) es = none := by
    cases es with
    | nil => rfl
    | cons c es =>
      obtain ⟨hc, hes⟩ := List.forall_mem_cons.1 hes
      have hread := gap1_cons c es
      rw [if_pos hc, List.dropWhile_eq_nil_iff.2 hes] at hread
      rw [bind_of_eq_some hread, hr]
  cases hends with
  | gaps left right =>
    rw [hfail h.eq_none_of_nil left, hfail h.symm.eq_none_of_nil right]
    exact .fail
  | @cons c cs ds rest =>
    have hleft := gap1_cons c cs
    have hright := gap1_cons c ds
    split at hleft
    · next hc =>
      rw [if_pos hc] at hright
      rw [bind_of_eq_some hleft, bind_of_eq_some hright]
      have hcs' := (List.dropWhile_sublist isGap (l := cs)).length_le
      have hds' := (List.dropWhile_sublist isGap (l := ds)).length_le
      rw [List.length_cons] at hcs hds
      rcases h.elim (rest.dropWhile isGap) (by omega) (by omega) with
        ⟨hp, hq⟩ | ⟨a, left, right, hp, hq, hends, hleft, hright⟩
      · rw [hp, hq]
        exact .fail
      · rw [hp, hq]
        refine .read a hends ?_ ?_ <;> rw [List.length_cons] <;> omega
    · next hc =>
      rw [if_neg hc] at hright
      change SameResult _ _ _ (gap1 (c :: cs) >>= fun r => p r.2) (gap1 (c :: ds) >>= fun r => q r.2)
      rw [hleft, hright]
      exact .fail

end Gaps

end RosSchema.Idl

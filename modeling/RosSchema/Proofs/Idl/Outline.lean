import RosSchema.Proofs.Idl.DocumentEnd

/-!
# Outlines

An outline of a document is drawn by a machine that goes over it character by character, apart from all
readers. It notes every word for a declaration that stands where the type of a member does, and every brace
with the word two words before it. `Traces` says how the machine goes over what a reader takes, with a rule
for each way in which readers are put together.
-/

namespace RosSchema.Idl

open Reader

/-! ## The machine -/

def declarationWords : List String := ["module", "struct", "typedef", "const", "union", "enum", "bitmask"]

/-- What an outline notes: a word for a declaration as a type, and the word for what stands in braces. -/
inductive Use where
  | type (word : String)
  | body (word : String)
  deriving DecidableEq, Repr

def typeUses (word : String) : List Use := if word ∈ declarationWords then [.type word] else []

/-- What stands directly before a word. -/
inductive Lead where
  | nothing
  | colon
  /-- The bracket of a sequence. -/
  | element
  | type (word : List Char)
  deriving DecidableEq, Repr

namespace Lead

/-- What a word is for the word after it. Behind a colon it is only a part of a name. -/
def next (lead : Lead) (word : List Char) : Lead :=
  if word = [] then lead else if lead = .colon then .nothing else .type word

def named : Lead → List Use
  | .type word => typeUses (String.ofList word)
  | _ => []

def ofElements (word : List Char) : Lead → List Use
  | .element => typeUses (String.ofList word)
  | _ => []

def body : Lead → Use
  | .type word => .body (String.ofList word)
  | _ => .body ""

def uses (lead : Lead) (word : List Char) : Char → List Use
  | ';' | '[' | '=' => lead.named
  | ',' | '>' => lead.ofElements word
  | '\x7b' => [lead.body]
  | _ => []

def ofMark (word : List Char) : Char → Lead
  | ':' => .colon
  | '<' => if word = "sequence".toList then .element else .nothing
  | _ => .nothing

end Lead

namespace Lead

variable (lead : Lead) (word : List Char)

@[simp] theorem uses_brace : lead.uses word '\x7b' = [lead.body] := rfl

@[simp] theorem uses_open : lead.uses word '<' = [] := rfl

@[simp] theorem uses_quote : lead.uses word '"' = [] := rfl

theorem ofMark_open : ofMark word '<' = if word = "sequence".toList then .element else .nothing := rfl

end Lead

inductive Mode where
  | code
  | string
  | escape
  | directive
  | angle
  deriving DecidableEq, Repr

def Mode.ofMark : Char → Mode
  | '"' => .string
  | '#' => .directive
  | _ => .code

/-- What is known of a document up to a point: the last word with what stands before it, unless a mark follows
it, and whether a gap follows it. -/
structure Outline where
  mode : Mode := .code
  lead : Lead := .nothing
  word : List Char := []
  gap : Bool := false
  uses : List Use := []
  deriving DecidableEq, Repr

namespace Outline

def codeStep (o : Outline) (c : Char) : Outline :=
  if isNamePart c then
    if o.gap ∧ o.word ≠ [] then { o with lead := o.lead.next o.word, word := [c], gap := false }
    else { o with word := o.word ++ [c], gap := false }
  else if isGap c then { o with gap := true }
  else
    { mode := .ofMark c
      lead := .ofMark o.word c
      uses := o.uses ++ o.lead.uses o.word c }

def step (o : Outline) (c : Char) : Outline :=
  match o.mode with
  | .code => o.codeStep c
  | .string => if c = '\\' then { o with mode := .escape } else if c = '"' then { o with mode := .code } else o
  | .escape => { o with mode := .string }
  | .directive => if c = '"' then { o with mode := .string } else if c = '<' then { o with mode := .angle } else o
  | .angle => if c = '>' then { o with mode := .code } else o

def go (o : Outline) (cs : List Char) : Outline := cs.foldl step o

@[simp] theorem go_nil (o : Outline) : o.go [] = o := rfl

@[simp] theorem go_cons (o : Outline) (c : Char) (cs : List Char) : o.go (c :: cs) = (o.step c).go cs := rfl

@[simp] theorem go_append (o : Outline) (cs ds : List Char) : o.go (cs ++ ds) = (o.go cs).go ds :=
  List.foldl_append

end Outline

def usesOf (cs : List Char) : List Use := (Outline.go {} cs).uses

/-! ## What readers trace -/

/-- Where a reader takes a text off at a point of one kind, the outline after it is at a point of another. A
point is an outline with the text that follows. -/
def Traces {α : Type} (P : Outline → List Char → Prop) (p : Reader α) (Q : α → Outline → List Char → Prop) :
    Prop :=
  ∀ o cs a rest, P o cs → p cs = some (a, rest) → ∃ text, cs = text ++ rest ∧ Q a (o.go text) rest

namespace Traces

variable {α β : Type} {P P' : Outline → List Char → Prop} {p q : Reader α} {Q Q' : α → Outline → List Char → Prop}
  {R : β → Outline → List Char → Prop}

theorem pure {a : α} (h : ∀ o cs, P o cs → Q a o cs) : Traces P (Pure.pure a) Q := by
  intro o cs b rest ho hread
  obtain ⟨rfl, rfl⟩ := pure_eq_some.1 hread
  exact ⟨[], rfl, h o cs ho⟩

theorem bind {f : α → Reader β} (hp : Traces P p Q) (hf : ∀ a, Traces (Q a) (f a) R) : Traces P (p >>= f) R := by
  intro o cs b rest ho hread
  obtain ⟨a, mid, hfirst, hnext⟩ := bind_eq_some.1 hread
  obtain ⟨text, rfl, ha⟩ := hp o cs a mid ho hfirst
  obtain ⟨text', rfl, hb⟩ := hf a _ mid b rest ha hnext
  exact ⟨text ++ text', by simp, by simpa using hb⟩

theorem mono (h : Traces P p Q) (hpre : ∀ o cs, P' o cs → P o cs) (hpost : ∀ a o cs, Q a o cs → Q' a o cs) :
    Traces P' p Q' := by
  intro o cs a rest ho hread
  obtain ⟨text, heq, ha⟩ := h o cs a rest (hpre o cs ho) hread
  exact ⟨text, heq, hpost a _ rest ha⟩

theorem pre (h : Traces P p Q) (hpre : ∀ o cs, P' o cs → P o cs) : Traces P' p Q := h.mono hpre fun _ _ _ => id

theorem post (h : Traces P p Q) (hpost : ∀ a o cs, Q a o cs → Q' a o cs) : Traces P p Q' :=
  h.mono (fun _ _ => id) hpost

theorem map (f : α → β) (h : Traces P p fun a => R (f a)) : Traces P (f <$> p) R := by
  rw [map_eq_pure_bind]
  exact h.bind fun a => pure fun _ _ => id

theorem seqLeft {r : Reader β} {S : α → Outline → List Char → Prop} (hp : Traces P p S)
    (hr : ∀ a, Traces (S a) r fun _ => Q a) : Traces P (p <* r) Q := by
  rw [seqLeft_eq_bind]
  exact hp.bind fun a => (hr a).bind fun _ => pure fun _ _ => id

theorem seqRight {r : Reader β} {S : Outline → List Char → Prop} (hp : Traces P p fun _ => S) (hr : Traces S r R) :
    Traces P (p *> r) R := by
  rw [seqRight_eq_bind]
  exact hp.bind fun _ => hr

theorem orElse (hp : Traces P p Q) (hq : Traces P q Q) : Traces P (p <|> q) Q := by
  intro o cs a rest ho hread
  rcases orElse_eq_some.1 hread with hread | ⟨-, hread⟩
  · exact hp o cs a rest ho hread
  · exact hq o cs a rest ho hread

theorem optional {S : Option α → Outline → List Char → Prop} (hsome : Traces P p fun a => S (some a))
    (hnone : ∀ o cs, P o cs → S none o cs) : Traces P (optional p) S :=
  orElse (map some hsome) (pure hnone)

theorem given {a : Option α} (h : ∀ b ∈ a, ∀ o cs, P o cs → Q b o cs) : Traces P (Reader.given a) Q := by
  intro o cs b rest ho hread
  obtain ⟨hb, rfl⟩ := given_eq_some.1 hread
  exact ⟨[], rfl, h b hb o cs ho⟩

theorem guard {p : Prop} [Decidable p] : Traces P (guard p) fun _ => P := by
  intro o cs u rest ho hread
  obtain ⟨-, rfl⟩ := guard_eq_some.1 hread
  exact ⟨[], rfl, ho⟩

/-- Values are read one after the other at points that go with the values before them. -/
theorem many {I : List α → Outline → List Char → Prop} (h : ∀ as, Traces (I as) p fun a => I (as ++ [a]))
    (limit : Nat) (as : List α) : Traces (I as) (Reader.many p limit) fun bs => I (as ++ bs) := by
  have hnone : ∀ o cs, I as o cs → I (as ++ []) o cs := by simp
  induction limit generalizing as with
  | zero => exact pure hnone
  | succ limit ih =>
    refine orElse ((h as).bind fun a => ?_) (pure hnone)
    have hrest := ih (as ++ [a]) (by simp)
    exact hrest.bind fun bs => pure (by simp)

/-- Values with separators between them lead from points of one kind to points of another that those are of as
well. -/
theorem separated {separator : Reader Unit} {S T : Outline → List Char → Prop} (hp : Traces S p fun _ => T)
    (hseparator : Traces T separator fun _ => S) (hpoint : ∀ o cs, S o cs → T o cs) (limit : Nat) :
    Traces S (Reader.separated separator p limit) fun _ => T := by
  refine orElse (hp.bind fun first => ?_) (pure hpoint)
  have hmany := many (I := fun _ => T) (fun _ => hseparator.seqRight hp) limit []
  exact hmany.bind fun _ => pure fun _ _ => id

theorem stop {f : Char → Bool} : Traces P (stop f) fun _ => P := by
  intro o cs u rest ho hread
  cases cs with
  | nil =>
    cases hread
    exact ⟨[], rfl, ho⟩
  | cons c cs =>
    rw [Reader.stop] at hread
    split at hread
    · cases hread
    · cases hread
      exact ⟨[], rfl, ho⟩

theorem exists_pre {ι : Sort*} {S : ι → Outline → List Char → Prop} (h : ∀ i, Traces (S i) p Q) :
    Traces (fun o cs => ∃ i, S i o cs) p Q := fun o cs a rest ⟨i, ho⟩ => h i o cs a rest ho

theorem and_pre {φ : Prop} (h : φ → Traces P p Q) : Traces (fun o cs => φ ∧ P o cs) p Q :=
  fun o cs a rest ⟨hφ, ho⟩ => h hφ o cs a rest ho

/-- A reader is traced by what it takes. -/
theorem of_read (h : ∀ cs a rest, p cs = some (a, rest) →
    ∃ text, cs = text ++ rest ∧ ∀ o, P o (text ++ rest) → Q a (o.go text) rest) : Traces P p Q := by
  intro o cs a rest ho hread
  obtain ⟨text, rfl, ha⟩ := h cs a rest hread
  exact ⟨text, rfl, ha o ho⟩

end Traces

/-! ## Points in code -/

/-- A text that does not go on with a character of names. -/
def Ends (cs : List Char) : Prop := ∀ c ∈ cs.head?, isNamePart c = false

/-- A point in code, after a word that may go on, or after a mark if there is no word. -/
structure Stands (uses : List Use) (lead : Lead) (word : List Char) (o : Outline) (_ : List Char) : Prop where
  mode : o.mode = .code
  uses : o.uses = uses
  lead : o.lead = lead
  word : o.word = word

structure Awaits (uses : List Use) (lead : Lead) (o : Outline) (cs : List Char) : Prop where
  mode : o.mode = .code
  uses : o.uses = uses
  next : o.lead.next o.word = lead
  apart : o.word = [] ∨ o.gap = true ∨ Ends cs

section Points

variable {uses : List Use} {lead : Lead} {word : List Char} {o : Outline} {cs : List Char} {c : Char}

theorem Stands.awaits (h : Stands uses lead [] o cs) : Awaits uses lead o cs :=
  ⟨h.mode, h.uses, by rw [h.lead, h.word]; rfl, .inl h.word⟩

theorem step_of_code (h : o.mode = .code) (c : Char) : o.step c = o.codeStep c := by
  rw [Outline.step, h]

theorem step_of_gap (h : o.mode = .code) (hc : isGap c = true) : o.step c = { o with gap := true } := by
  rw [step_of_code h, Outline.codeStep, isNamePart_eq_false_of_isGap hc, hc]
  rfl

theorem step_of_part (h : o.mode = .code) (hc : isNamePart c = true) :
    o.step c = if o.gap ∧ o.word ≠ [] then { o with lead := o.lead.next o.word, word := [c], gap := false }
      else { o with word := o.word ++ [c], gap := false } := by
  rw [step_of_code h, Outline.codeStep, if_pos hc]

theorem step_of_mark (h : o.mode = .code) (hname : isNamePart c = false) (hgap : isGap c = false) : o.step c =
    { mode := .ofMark c, lead := .ofMark o.word c, uses := o.uses ++ o.lead.uses o.word c } := by
  rw [step_of_code h, Outline.codeStep, hname, hgap]
  rfl

theorem go_gaps (h : o.mode = .code) {gaps : List Char} (hgaps : ∀ c ∈ gaps, isGap c = true) :
    o.go gaps = if gaps = [] then o else { o with gap := true } := by
  induction gaps generalizing o with
  | nil => rfl
  | cons c gaps ih =>
    obtain ⟨hc, hgaps⟩ := List.forall_mem_cons.1 hgaps
    rw [Outline.go_cons, step_of_gap h hc, ih (by exact h) hgaps]
    split <;> rfl

/-- A word that has begun goes on. -/
theorem go_parts (h : o.mode = .code) (hgap : o.gap = false) (hword : ∀ c ∈ word, isNamePart c = true) :
    o.go word = { o with word := o.word ++ word } := by
  induction word generalizing o with
  | nil => simp
  | cons c word ih =>
    obtain ⟨hc, hword⟩ := List.forall_mem_cons.1 hword
    rw [Outline.go_cons, step_of_part h hc, if_neg (by simp [hgap]), ih (by exact h) rfl hword]
    simp [hgap]

/-- A word of its own, from its first character on. -/
theorem Awaits.go_word (h : Awaits uses lead o (word ++ cs)) (hword : Word isNamePart word) :
    Stands uses lead word (o.go word) cs := by
  obtain ⟨c, rest, rfl, -⟩ := hword.exists_cons
  obtain ⟨hc, hrest⟩ := List.forall_mem_cons.1 hword.all
  rw [Outline.go_cons, step_of_part h.mode hc]
  have hapart : o.word = [] ∨ o.gap = true := by
    rcases h.apart with hword | hgap | hends
    · exact .inl hword
    · exact .inr hgap
    · rw [hends c rfl] at hc
      cases hc
  have hnext := h.next
  split
  · rw [go_parts (by exact h.mode) rfl hrest]
    exact ⟨h.mode, h.uses, hnext, rfl⟩
  · next hne =>
    have hnil : o.word = [] := by
      rcases hapart with hnil | hgap
      · exact hnil
      · by_contra hword
        exact hne ⟨hgap, hword⟩
    rw [Lead.next, if_pos hnil] at hnext
    rw [go_parts (by exact h.mode) rfl hrest, hnil]
    exact ⟨h.mode, h.uses, hnext, rfl⟩

theorem traces_gap : Traces (Stands uses lead word) gap fun _ => Stands uses lead word := by
  refine .of_read fun cs u rest hread => ?_
  obtain ⟨gaps, hrun⟩ := discard_eq_some.1 hread
  obtain ⟨rfl, hgaps, -⟩ := run_eq_some.1 hrun
  refine ⟨gaps, rfl, fun o ho => ?_⟩
  rw [go_gaps ho.mode hgaps]
  split <;> exact ⟨ho.mode, ho.uses, ho.lead, ho.word⟩

/-- After the end of a word a gap is none that the word could go on after. -/
theorem traces_gap_of_ends : Traces (fun o cs => Stands uses lead word o cs ∧ Ends cs) gap
    fun _ => Awaits uses (lead.next word) := by
  refine .of_read fun cs u rest hread => ?_
  obtain ⟨gaps, hrun⟩ := discard_eq_some.1 hread
  obtain ⟨rfl, hgaps, -⟩ := run_eq_some.1 hrun
  refine ⟨gaps, rfl, fun o ⟨ho, hends⟩ => ?_⟩
  rw [go_gaps ho.mode hgaps]
  split
  · next hnil =>
    subst hnil
    exact ⟨ho.mode, ho.uses, by rw [ho.lead, ho.word], .inr (.inr hends)⟩
  · exact ⟨ho.mode, ho.uses, by rw [ho.lead, ho.word], .inr (.inl rfl)⟩

theorem traces_gap1 : Traces (Stands uses lead word) gap1 fun _ => Awaits uses (lead.next word) := by
  refine .of_read fun cs u rest hread => ?_
  obtain ⟨gaps, hrun⟩ := discard_eq_some.1 hread
  obtain ⟨hgaps, rfl, -⟩ := run1_eq_some.1 hrun
  refine ⟨gaps, rfl, fun o ho => ?_⟩
  rw [go_gaps ho.mode hgaps.all, if_neg hgaps.ne_nil]
  exact ⟨ho.mode, ho.uses, by rw [ho.lead, ho.word], .inr (.inl rfl)⟩

/-- A character that is neither part of a name nor of a gap, and that code goes on after. -/
def IsMark (c : Char) : Prop := isNamePart c = false ∧ isGap c = false ∧ Mode.ofMark c = .code

instance (c : Char) : Decidable (IsMark c) :=
  inferInstanceAs (Decidable (isNamePart c = false ∧ isGap c = false ∧ Mode.ofMark c = .code))

theorem traces_mark (c : Char) (h : IsMark c) :
    Traces (Stands uses lead word) (mark c) fun _ => Stands (uses ++ lead.uses word c) (.ofMark word c) [] := by
  obtain ⟨hname, hgap, hmode⟩ := h
  refine .of_read fun cs u rest hread => ?_
  obtain rfl := mark_eq_some.1 hread
  refine ⟨[c], rfl, fun o ho => ?_⟩
  rw [Outline.go_cons, step_of_mark ho.mode hname hgap, ho.lead, ho.word, ho.uses]
  exact ⟨hmode, rfl, rfl, rfl⟩

theorem traces_spaced (c : Char) (h : IsMark c) :
    Traces (Stands uses lead word) (spaced c) fun _ => Stands (uses ++ lead.uses word c) (.ofMark word c) [] :=
  (traces_gap.seqRight (traces_mark c h)).seqRight traces_gap

/-- A point in code where one more mark notes the last of some uses. What it notes is due. -/
def Owes (due : Lead → List Char → List Use) (uses : List Use) (o : Outline) (cs : List Char) : Prop :=
  ∃ noted lead word, noted ++ due lead word = uses ∧ Stands noted lead word o cs

section Owes

variable {due : Lead → List Char → List Use}

theorem Stands.owes (h : Stands uses lead word o cs) (hdue : due lead word = []) : Owes due uses o cs :=
  ⟨uses, lead, word, by rw [hdue, List.append_nil], h⟩

theorem Traces.of_owes {α : Type} {p : Reader α} {Q : α → Outline → List Char → Prop}
    (h : ∀ noted lead word, noted ++ due lead word = uses → Traces (Stands noted lead word) p Q) :
    Traces (Owes due uses) p Q :=
  fun o cs a rest ⟨noted, lead, word, hdue, ho⟩ => h noted lead word hdue o cs a rest ho

theorem traces_gap_owes : Traces (Owes due uses) gap fun _ => Owes due uses :=
  .of_owes fun noted lead word hdue => traces_gap.post fun _ _ _ ho => ⟨noted, lead, word, hdue, ho⟩

/-- A mark that notes what is due. -/
theorem traces_mark_owes (c : Char) (h : IsMark c) (hdue : ∀ lead word, Lead.uses lead word c = due lead word)
    (hlead : ∀ word, Lead.ofMark word c = .nothing) :
    Traces (Owes due uses) (mark c) fun _ => Stands uses .nothing [] :=
  .of_owes fun noted lead word huses => (traces_mark c h).post fun _ o cs ho => by
    rwa [hdue, huses, hlead] at ho

theorem traces_spaced_owes (c : Char) (h : IsMark c) (hdue : ∀ lead word, Lead.uses lead word c = due lead word)
    (hlead : ∀ word, Lead.ofMark word c = .nothing) :
    Traces (Owes due uses) (spaced c) fun _ => Stands uses .nothing [] :=
  (traces_gap_owes.seqRight (traces_mark_owes c h hdue hlead)).seqRight traces_gap

end Owes

/-! ## Names -/

theorem traces_token {s : String} (hs : Word isNamePart s.toList) :
    Traces (Awaits uses lead) (token s) fun _ => Stands uses lead s.toList := by
  refine .of_read fun cs u rest hread => ?_
  obtain rfl := token_eq_some.1 hread
  exact ⟨s.toList, rfl, fun o ho => ho.go_word hs⟩

theorem traces_identifier : Traces (Awaits uses lead) identifier fun name o cs =>
    Word isNamePart name ∧ Ends cs ∧ Stands uses lead name o cs := by
  refine .of_read fun cs name rest hread => ?_
  obtain ⟨⟨c, tail, rfl, hc⟩, rfl, hall, hstops⟩ := identifier_eq_some.1 hread
  have hword : Word isNamePart (c :: tail) := ⟨List.cons_ne_nil c tail, hall⟩
  exact ⟨c :: tail, rfl, fun o ho => ⟨hword, hstops, ho.go_word hword⟩⟩

/-- A scoped name is one word, or it ends in a word after a colon and has a colon in it. -/
structure Named (uses : List Use) (lead : Lead) (name : List Char) (o : Outline) (cs : List Char) : Prop where
  ends : Ends cs
  stands : (Word isNamePart name ∧ Stands uses lead name o cs) ∨
    ':' ∈ name ∧ ∃ word, Word isNamePart word ∧ Stands uses .colon word o cs

theorem traces_scopePart : Traces (Stands uses lead word) scopePart fun part o cs =>
    ':' ∈ part ∧ Ends cs ∧ ∃ word, Word isNamePart word ∧ Stands uses .colon word o cs := by
  have hcolons : Traces (Stands uses lead word) (token "::") fun _ => Awaits uses .colon := by
    refine .of_read fun cs u rest hread => ?_
    obtain rfl := token_eq_some.1 hread
    refine ⟨"::".toList, rfl, fun o ho => ?_⟩
    have hfirst : Stands (uses ++ lead.uses word ':') .colon [] (o.step ':') (':' :: rest) := by
      rw [step_of_mark ho.mode (by decide) (by decide), ho.lead, ho.word, ho.uses]
      exact ⟨rfl, rfl, rfl, rfl⟩
    have hsecond : Stands uses .colon [] ((o.step ':').step ':') rest := by
      rw [step_of_mark hfirst.mode (by decide) (by decide), hfirst.uses]
      exact ⟨rfl, by simp [Lead.uses], rfl, rfl⟩
    exact hsecond.awaits
  exact hcolons.bind fun _ => traces_identifier.bind fun part => .pure fun o cs ⟨hpart, hends, ho⟩ =>
    ⟨by simp, hends, part, hpart, ho⟩

theorem traces_scopedName (limit : Nat) : Traces (Awaits uses lead) (scopedName limit) fun name =>
    Named uses lead name.toList := by
  refine traces_identifier.bind fun first => ?_
  have hpart (parts : List (List Char)) : Traces (Named uses lead (first ++ parts.flatten)) scopePart fun part =>
      Named uses lead (first ++ (parts ++ [part]).flatten) := by
    have hnext (point : Lead × List Char) : Traces (Stands uses point.1 point.2) scopePart fun part =>
        Named uses lead (first ++ (parts ++ [part]).flatten) :=
      traces_scopePart.post fun part o cs ⟨hcolon, hends, hword⟩ => ⟨hends, .inr ⟨by simp [hcolon], hword⟩⟩
    refine (Traces.exists_pre hnext).pre fun o cs ho => ?_
    rcases ho.stands with ⟨-, hstands⟩ | ⟨-, word, -, hstands⟩
    · exact ⟨⟨_, _⟩, hstands⟩
    · exact ⟨⟨_, _⟩, hstands⟩
  have hmany := (Traces.many hpart limit []).bind fun parts =>
    Traces.pure (a := String.ofList (first ++ parts.flatten)) (Q := fun name => Named uses lead name.toList)
      fun o cs ho => by simpa using ho
  refine hmany.pre fun o cs ⟨hfirst, hends, ho⟩ => ?_
  simpa using Named.mk hends (.inl ⟨hfirst, ho⟩)

/-! ## Literals -/

/-- A point in code with no word before it that could be a type. -/
def Calm (uses : List Use) (o : Outline) (cs : List Char) : Prop :=
  ∃ lead word, (lead = .nothing ∨ lead = .colon) ∧ Stands uses lead word o cs

theorem Calm.owes {due : Lead → List Char → List Use} (h : Calm uses o cs)
    (hnothing : ∀ word, due .nothing word = []) (hcolon : ∀ word, due .colon word = []) : Owes due uses o cs := by
  obtain ⟨lead, word, hlead | hlead, ho⟩ := h
  · exact ho.owes (hlead ▸ hnothing word)
  · exact ho.owes (hlead ▸ hcolon word)

theorem Stands.calm (h : Stands uses .nothing word o cs) : Calm uses o cs := ⟨_, _, .inl rfl, h⟩

theorem Named.calm (h : Named uses .nothing word o cs) : Calm uses o cs := by
  rcases h.stands with ⟨-, hstands⟩ | ⟨-, word, -, hstands⟩
  · exact hstands.calm
  · exact ⟨_, _, .inr rfl, hstands⟩

structure InString (uses : List Use) (o : Outline) : Prop where
  mode : o.mode = .string
  uses : o.uses = uses
  lead : o.lead = .nothing
  word : o.word = []

/-- A string ends at its quote. -/
theorem InString.go (h : InString uses o) {body : List Char} (hbody : Literal.Escaped (· == '"') body) :
    Stands uses .nothing [] (o.go (body ++ ['"'])) cs := by
  induction hbody generalizing o with
  | nil =>
    rw [List.nil_append, Outline.go_cons, Outline.step, h.mode]
    exact ⟨rfl, h.uses, h.lead, h.word⟩
  | @pair c _ _ ih =>
    have hstep : (o.step '\\').step c = o := by
      cases o
      obtain rfl := h.mode
      rfl
    rw [List.cons_append, List.cons_append, Outline.go_cons, Outline.go_cons, hstep]
    exact ih h
  | @char c _ plain inside _ ih =>
    have hstep : o.step c = o := by
      rw [Outline.step, h.mode]
      simp only [beq_eq_false_iff_ne] at inside
      simp [plain, inside]
    rw [List.cons_append, Outline.go_cons, hstep]
    exact ih h

theorem traces_stringPiece_of {P : Outline → List Char → Prop} (h : ∀ o cs, P o cs → InString uses (o.step '"')) :
    Traces P stringPiece fun _ => Stands uses .nothing [] := by
  refine .of_read fun cs piece rest hread => ?_
  obtain ⟨body, hbody, rfl, rfl⟩ := stringPiece_eq_some.1 hread
  exact ⟨_, rfl, fun o ho => (h o _ ho).go hbody⟩

theorem traces_stringPiece : Traces (Stands uses lead word) stringPiece fun _ => Stands uses .nothing [] := by
  refine traces_stringPiece_of fun o cs ho => ?_
  rw [step_of_mark ho.mode (by decide) (by decide), ho.uses, Lead.uses_quote, List.append_nil]
  exact ⟨rfl, rfl, rfl, rfl⟩

theorem traces_stringLiteral (limit : Nat) :
    Traces (Stands uses .nothing []) (stringLiteral limit) fun _ => Calm uses := by
  have hpiece (text : List Char) : Traces (Stands uses .nothing []) (decodePiece text)
      fun _ => Stands uses .nothing [] :=
    .given fun _ _ _ _ => id
  refine traces_stringPiece.bind fun first => ?_
  have hmany := Traces.many (I := fun _ => Stands uses .nothing [])
    (fun _ => traces_gap.seqRight traces_stringPiece) limit []
  refine hmany.bind fun others => (hpiece first).bind fun text => ?_
  have hall : Traces (Stands uses .nothing []) (others.mapM decodePiece) fun _ => Stands uses .nothing [] := by
    induction others with
    | nil => exact .pure fun _ _ => id
    | cons piece others ih =>
      rw [List.mapM_cons]
      exact (hpiece piece).bind fun _ => ih.bind fun _ => .pure fun _ _ => id
  exact hall.bind fun more => .pure fun o cs ho => ho.calm

theorem step_of_literalPart (ho : Stands uses .nothing word o cs) (hword : o.word = [] ∨ o.gap = false)
    (hc : Literal.isLiteralPart c = true) :
    ∃ word', Stands uses .nothing word' (o.step c) cs ∧ ((o.step c).word = [] ∨ (o.step c).gap = false) := by
  by_cases hname : isNamePart c = true
  · rw [step_of_part ho.mode hname, if_neg (by rcases hword with hword | hword <;> simp [hword])]
    exact ⟨o.word ++ [c], ⟨ho.mode, ho.uses, ho.lead, rfl⟩, .inr rfl⟩
  · have hmark : c = '.' ∨ c = '+' ∨ c = '-' := by
      simp only [Literal.isLiteralPart, isNamePart, Bool.or_eq_true, beq_iff_eq] at hc hname
      tauto
    have hstep : o.step c = { uses := o.uses } := by
      rcases hmark with rfl | rfl | rfl <;>
        rw [step_of_mark ho.mode (by decide) (by decide), ho.lead] <;> simp [Lead.uses] <;> exact ⟨rfl, rfl⟩
    rw [hstep]
    exact ⟨[], ⟨rfl, ho.uses, rfl, rfl⟩, .inl rfl⟩

/-- The characters of a literal that is no string are of no use. -/
theorem go_literalParts (ho : Stands uses .nothing word o cs) (hword : o.word = [] ∨ o.gap = false)
    {text : List Char} (h : ∀ c ∈ text, Literal.isLiteralPart c = true) : Calm uses (o.go text) cs := by
  induction text generalizing o word with
  | nil => exact ho.calm
  | cons c text ih =>
    obtain ⟨hc, htext⟩ := List.forall_mem_cons.1 h
    obtain ⟨word', hstands, hword'⟩ := step_of_literalPart ho hword hc
    exact ih hstands hword' htext

/-- A reader that takes characters of literals. -/
theorem traces_leadsTo {α : Type} {p : Reader α}
    (h : ∀ cs a rest, p cs = some (a, rest) → Literal.LeadsTo cs rest) :
    Traces (Stands uses .nothing []) p fun _ => Calm uses := by
  refine .of_read fun cs a rest hread => ?_
  obtain ⟨text, rfl, htext⟩ := h cs a rest hread
  exact ⟨text, rfl, fun o ho => go_literalParts ⟨ho.mode, ho.uses, ho.lead, ho.word⟩ (.inl ho.word) htext⟩

theorem traces_boolLiteral : Traces (Stands uses .nothing []) boolLiteral fun _ => Calm uses := by
  have hchoice (t : String) (b : Bool) (ht : Word isNamePart t.toList) : Traces (Awaits uses .nothing) (do
      token t
      return (Literal.value (.bool b), some t.toList)) fun _ => Calm uses :=
    (traces_token ht).bind fun _ => .pure fun o cs ho => ho.calm
  have hall := (hchoice "TRUE" true (word_of_all (by decide) (by decide))).orElse
    ((hchoice "FALSE" false (word_of_all (by decide) (by decide))).orElse
      ((hchoice "true" true (word_of_all (by decide) (by decide))).orElse
        (hchoice "false" false (word_of_all (by decide) (by decide)))))
  exact (hall.seqLeft fun _ => .stop).pre fun o cs ho => Stands.awaits ho

theorem traces_hexLiteral : Traces (Stands uses .nothing []) hexLiteral fun _ => Calm uses := by
  refine traces_leadsTo fun cs l rest hread => ?_
  obtain ⟨_, r₁, hzero, hread⟩ := bind_eq_some.1 hread
  obtain ⟨x, r₂, hone, hread⟩ := bind_eq_some.1 hread
  obtain ⟨digits, r₃, hdigits, hread⟩ := bind_eq_some.1 hread
  obtain ⟨n, r₄, hn, hread⟩ := bind_eq_some.1 hread
  obtain ⟨_, r₅, hguard, hread⟩ := bind_eq_some.1 hread
  obtain rfl := mark_eq_some.1 hzero
  obtain ⟨rfl, hx⟩ := one_eq_some.1 hone
  obtain ⟨hword, rfl, -⟩ := run1_eq_some.1 hdigits
  obtain ⟨-, rfl⟩ := given_eq_some.1 hn
  obtain ⟨-, rfl⟩ := guard_eq_some.1 hguard
  obtain ⟨-, rfl⟩ := pure_eq_some.1 hread
  have hxpart : Literal.isLiteralPart x = true := by
    rcases Bool.or_eq_true_iff.1 hx with hx | hx <;> rw [beq_iff_eq.1 hx] <;> decide
  refine .cons (by decide) (.cons hxpart ⟨digits, rfl, fun c hc => ?_⟩)
  obtain ⟨k, hk⟩ := Option.isSome_iff_exists.1 (hword.all c hc)
  simp [Literal.isLiteralPart, (Literal.isDigit_sixteen.2 hk).isAlphanum le_rfl]

theorem traces_numeralLiteral : Traces (Stands uses .nothing []) numeralLiteral fun _ => Calm uses := by
  refine (traces_leadsTo fun cs n rest hread => Literal.leadsTo_numeral hread).bind fun n => ?_
  exact Traces.bind (Q := fun _ => Calm uses) (.given fun _ _ _ _ => id) fun v => .pure fun _ _ => id

theorem traces_constantName (limit : Nat) :
    Traces (Stands uses .nothing []) (constantName limit) fun _ => Calm uses := by
  have hname : Traces (Awaits uses .nothing) (constantName limit) fun _ => Calm uses :=
    (traces_scopedName limit).bind fun name => .pure fun o cs ho => ho.calm
  exact hname.pre fun o cs ho => Stands.awaits ho

theorem traces_literal (limit : Nat) : Traces (Stands uses .nothing []) (literal limit) fun _ => Calm uses :=
  (traces_stringLiteral limit).orElse (traces_boolLiteral.orElse (traces_hexLiteral.orElse
    (traces_numeralLiteral.orElse (traces_constantName limit))))

theorem traces_bound (limit : Nat) : Traces (Stands uses .nothing []) (bound limit) fun _ => Calm uses := by
  have hname : Traces (Awaits uses .nothing) (do return Literal.constant (← scopedName limit))
      fun _ => Calm uses :=
    (traces_scopedName limit).bind fun name => .pure fun o cs ho => ho.calm
  refine .orElse ?_ (hname.pre fun o cs ho => Stands.awaits ho)
  have hdigits : Traces (Stands uses .nothing []) (run1 Char.isDigit) fun _ => Calm uses := by
    refine traces_leadsTo fun cs digits rest hread => ?_
    obtain ⟨hword, rfl, -⟩ := run1_eq_some.1 hread
    exact ⟨digits, rfl, fun c hc => Literal.isLiteralPart_of_isDigit (hword.all c hc)⟩
  exact hdigits.bind fun digits => Traces.bind (Q := fun _ => Calm uses) (.given fun _ _ _ _ => id) fun n =>
    .pure fun _ _ => id

/-! ## Includes -/

structure InDirective (uses : List Use) (o : Outline) (_ : List Char) : Prop where
  mode : o.mode = .directive
  uses : o.uses = uses
  lead : o.lead = .nothing
  word : o.word = []

theorem InDirective.go (h : InDirective uses o cs) {text : List Char} (htext : ∀ c ∈ text, c ≠ '"' ∧ c ≠ '<')
    (cs' : List Char) : InDirective uses (o.go text) cs' := by
  induction text generalizing o with
  | nil => exact ⟨h.mode, h.uses, h.lead, h.word⟩
  | cons c text ih =>
    obtain ⟨⟨hquote, hangle⟩, htext⟩ := List.forall_mem_cons.1 htext
    have hstep : o.step c = o := by rw [Outline.step, h.mode]; simp [hquote, hangle]
    rw [Outline.go_cons, hstep]
    exact ih h htext

/-- The name of an include ends at its bracket. -/
theorem InDirective.go_angle (h : InDirective uses o cs) {file : List Char} (hfile : ∀ c ∈ file, c ≠ '>')
    (cs' : List Char) : Stands uses .nothing [] (o.go ('<' :: (file ++ ['>']))) cs' := by
  have hopen : o.step '<' = { o with mode := .angle } := by rw [Outline.step, h.mode]; rfl
  have hinside (p : Outline) (hp : p.mode = .angle) : p.go file = p := by
    induction file with
    | nil => rfl
    | cons c file ih =>
      obtain ⟨hc, hfile⟩ := List.forall_mem_cons.1 hfile
      have hstep : p.step c = p := by rw [Outline.step, hp]; simp [hc]
      rw [Outline.go_cons, hstep]
      exact ih hfile
  rw [Outline.go_cons, hopen, Outline.go_append, hinside _ rfl]
  exact ⟨rfl, h.uses, h.lead, h.word⟩

theorem traces_includeFile : Traces (Stands uses .nothing []) includeFile fun _ => Stands uses .nothing [] := by
  have htoken : Traces (Stands uses .nothing []) (token "#include") fun _ => InDirective uses := by
    refine .of_read fun cs u rest hread => ?_
    obtain rfl := token_eq_some.1 hread
    refine ⟨_, rfl, fun o ho => ?_⟩
    have hmark : InDirective uses (o.step '#') rest := by
      rw [step_of_mark ho.mode (by decide) (by decide), ho.uses, ho.lead]
      exact ⟨rfl, List.append_nil uses, rfl, rfl⟩
    have hname : ∀ c ∈ ['i', 'n', 'c', 'l', 'u', 'd', 'e'], c ≠ '"' ∧ c ≠ '<' := by simp
    exact hmark.go hname rest
  have hblanks : Traces (InDirective uses) (run fun c => c == ' ' || c == '\t') fun _ => InDirective uses := by
    refine .of_read fun cs blanks rest hread => ?_
    obtain ⟨rfl, hall, -⟩ := run_eq_some.1 hread
    refine ⟨blanks, rfl, fun o ho => ho.go (fun c hc => ?_) rest⟩
    have hblank := hall c hc
    constructor <;> rintro rfl <;> exact absurd hblank (by decide)
  have hstring : Traces (InDirective uses) stringPiece fun _ => Stands uses .nothing [] := by
    refine traces_stringPiece_of fun o cs ho => ?_
    rw [Outline.step, ho.mode]
    exact ⟨rfl, ho.uses, ho.lead, ho.word⟩
  have hangle : Traces (InDirective uses) (do
      mark '<'
      let _ ← run1 fun c => c != '>' && c != '\n'
      mark '>' : Reader Unit) fun _ => Stands uses .nothing [] := by
    refine .of_read fun cs u rest hread => ?_
    obtain ⟨_, r₁, hopen, hread⟩ := bind_eq_some.1 hread
    obtain ⟨file, r₂, hrun, hclose⟩ := bind_eq_some.1 hread
    obtain rfl := mark_eq_some.1 hopen
    obtain ⟨hfile, rfl, -⟩ := run1_eq_some.1 hrun
    obtain rfl := mark_eq_some.1 hclose
    refine ⟨'<' :: (file ++ ['>']), by simp, fun o ho => ho.go_angle (fun c hc => ?_) rest⟩
    rintro rfl
    exact absurd (hfile.all '>' hc) (by decide)
  exact htoken.bind fun _ => hblanks.bind fun _ => (hstring.map fun _ => ()).orElse hangle

end Points

end RosSchema.Idl

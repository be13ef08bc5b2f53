import Mathlib.Data.List.Destutter
import RosSchema.Error

/-!
# The context of errors

Lines and sections are added to an error on its way out. A section always stays, a line only where the
error does not show one yet. What stays is told by the pieces alone: of lines in a row it is the first,
and none at all directly on an error that quotes its line. So the cause is under any amount of context,
and the message is that of the cause followed by the pieces that stay.
-/

namespace RosSchema.Error

inductive Context where
  | atLine (line : String)
  | inSection (path : String)
  deriving DecidableEq, Repr

namespace Context

def isLine : Context → Bool
  | atLine _ => true
  | inSection _ => false

def text : Context → String
  | atLine line => s!" (line: '{line}')"
  | inSection path => s!" (in {path})"

/-- Add context to an error, unless it is a line and the error shows one. -/
def add : Context → Error → Error
  | atLine line, e => e.withLine line
  | inSection path, e => e.withSection path

def wrap : Context → Error → Error
  | atLine line, e => .atLine line e
  | inSection path, e => .inSection path e

/-- Of two pieces in a row, not both are lines. -/
def Apart (c d : Context) : Prop := ¬ (c.isLine = true ∧ d.isLine = true)

instance : DecidableRel Apart := fun _ _ => inferInstanceAs (Decidable (¬ _))

end Context

def addAll (e : Error) (cs : List Context) : Error := cs.foldl (fun e c => c.add e) e

/-- An error with all of the context around it, the last piece outermost. -/
def wrapAll (e : Error) (cs : List Context) : Error := cs.foldl (fun e c => c.wrap e) e

def IsCause (e : Error) : Prop :=
  (∀ line cause, e ≠ atLine line cause) ∧ ∀ path cause, e ≠ inSection path cause

/-- The error quotes the line it arose in, or has a line as its outermost context. -/
inductive HasLine : Error → Prop where
  | malformed (context text : String) : HasLine (malformed context text)
  | ambiguousLine (line : String) : HasLine (ambiguousLine line)
  | atLine (line : String) (cause : Error) : HasLine (atLine line cause)

theorem showsLine_iff {e : Error} : e.showsLine = true ↔ e.HasLine := by
  constructor
  · intro h
    cases e with
    | malformed context text => exact .malformed context text
    | ambiguousLine line => exact .ambiguousLine line
    | atLine line cause => exact .atLine line cause
    | _ => cases h
  · intro h
    cases h <;> rfl

instance : DecidablePred HasLine := fun _ => decidable_of_iff _ showsLine_iff

/-- The pieces that stay of context added to an error: of lines in a row the first, and none in front
where the error has a line itself. -/
def kept (e : Error) (cs : List Context) : List Context :=
  (if e.HasLine then cs.dropWhile Context.isLine else cs).destutter Context.Apart

/-- Each line in the context of an error is around an error that has none itself. -/
def TellsLinesOnce (e : Error) : Prop := ∀ line cause, atLine line cause ∈ e :: e.causes → ¬ cause.HasLine

variable {c : Context} {e : Error}

/-! ## One piece -/

theorem hasLine_wrap : (c.wrap e).HasLine ↔ c.isLine = true := by
  cases c with
  | atLine line => exact iff_of_true (.atLine line e) rfl
  | inSection path => exact ⟨nofun, nofun⟩

theorem innermost_wrap (c : Context) (e : Error) : (c.wrap e).innermost = e.innermost := by
  cases c <;> rfl

theorem causes_wrap (c : Context) (e : Error) : (c.wrap e).causes = e :: e.causes := by
  cases c <;> rfl

theorem message_wrap (c : Context) (e : Error) : (c.wrap e).message = e.message ++ c.text := by
  cases c with
  | atLine line =>
    change e.message ++ " (line: '" ++ line ++ "')" = e.message ++ (" (line: '" ++ line ++ "')")
    simp only [String.append_assoc]
  | inSection path =>
    change e.message ++ " (in " ++ path ++ ")" = e.message ++ (" (in " ++ path ++ ")")
    simp only [String.append_assoc]

/-- A line leaves an error alone that has one. -/
theorem add_of_hasLine (h : e.HasLine) (hc : c.isLine = true) : c.add e = e := by
  cases c with
  | atLine line => exact if_pos (showsLine_iff.2 h)
  | inSection path => cases hc

/-- All other context is put around the error. -/
theorem add_of_apart (h : ¬ (e.HasLine ∧ c.isLine = true)) : c.add e = c.wrap e := by
  cases c with
  | atLine line => exact if_neg fun hshows => h ⟨showsLine_iff.1 hshows, rfl⟩
  | inSection path => rfl

theorem TellsLinesOnce.add (h : e.TellsLinesOnce) (c : Context) : (c.add e).TellsLinesOnce := by
  by_cases hdrop : e.HasLine ∧ c.isLine = true
  · rw [add_of_hasLine hdrop.1 hdrop.2]
    exact h
  · rw [add_of_apart hdrop]
    intro line cause hmem
    rw [causes_wrap] at hmem
    rcases List.mem_cons.1 hmem with heq | hmem
    · cases c with
      | atLine line' =>
        cases heq
        exact fun hline => hdrop ⟨hline, rfl⟩
      | inSection path => cases heq
    · exact h line cause hmem

/-! ## What stays -/

/-- Behind a line that stays, no other line does before the next section. -/
theorem destutter'_apart (c : Context) (cs : List Context) : cs.destutter' Context.Apart c =
    c :: (if c.isLine = true then cs.dropWhile Context.isLine else cs).destutter Context.Apart := by
  induction cs with
  | nil => simp
  | cons d cs ih =>
    by_cases hapart : c.Apart d
    · rw [List.destutter'_cons_pos _ hapart]
      by_cases hc : c.isLine = true
      · have hd : ¬ d.isLine = true := fun hd => hapart ⟨hc, hd⟩
        rw [if_pos hc, List.dropWhile_cons_of_neg hd]
        rfl
      · rw [if_neg hc]
        rfl
    · obtain ⟨hc, hd⟩ := not_not.1 hapart
      rw [List.destutter'_cons_neg _ hapart, ih, if_pos hc, if_pos hc, List.dropWhile_cons_of_pos hd]

theorem kept_cons_of_hasLine (h : e.HasLine) (hc : c.isLine = true) (cs : List Context) :
    kept e (c :: cs) = kept e cs := by
  rw [kept, kept, if_pos h, if_pos h, List.dropWhile_cons_of_pos hc]

theorem kept_cons_of_apart (h : ¬ (e.HasLine ∧ c.isLine = true)) (cs : List Context) :
    kept e (c :: cs) = c :: kept (c.wrap e) cs := by
  have hcons : kept e (c :: cs) = (c :: cs).destutter Context.Apart := by
    by_cases hline : e.HasLine
    · have hc : ¬ c.isLine = true := fun hc => h ⟨hline, hc⟩
      rw [kept, if_pos hline, List.dropWhile_cons_of_neg hc]
    · rw [kept, if_neg hline]
  rw [hcons, List.destutter_cons', destutter'_apart]
  simp only [kept, hasLine_wrap]

/-! ## Any amount of context -/

/-- The pieces that stay are all around the error, in the order in which they were added. -/
theorem addAll_eq_wrapAll (e : Error) (cs : List Context) : e.addAll cs = e.wrapAll (kept e cs) := by
  -- For all errors at once: of what was added before, the rest sees only whether the error has a line.
  induction cs generalizing e with
  | nil => simp [addAll, wrapAll, kept]
  | cons c cs ih =>
    by_cases hdrop : e.HasLine ∧ c.isLine = true
    · calc (c.add e).addAll cs
        _ = e.addAll cs := by rw [add_of_hasLine hdrop.1 hdrop.2]
        _ = e.wrapAll (kept e cs) := ih e
        _ = e.wrapAll (kept e (c :: cs)) := by rw [kept_cons_of_hasLine hdrop.1 hdrop.2]
    · calc (c.add e).addAll cs
        _ = (c.wrap e).addAll cs := by rw [add_of_apart hdrop]
        _ = e.wrapAll (c :: kept (c.wrap e) cs) := ih (c.wrap e)
        _ = e.wrapAll (kept e (c :: cs)) := by rw [kept_cons_of_apart hdrop]

theorem innermost_wrapAll (e : Error) (cs : List Context) : (e.wrapAll cs).innermost = e.innermost := by
  induction cs generalizing e with
  | nil => rfl
  | cons c cs ih => exact (ih (c.wrap e)).trans (innermost_wrap c e)

theorem message_wrapAll (e : Error) (cs : List Context) :
    (e.wrapAll cs).message = e.message ++ String.join (cs.map Context.text) := by
  induction cs generalizing e with
  | nil => simp [wrapAll]
  | cons c cs ih =>
    calc ((c.wrap e).wrapAll cs).message
      _ = (c.wrap e).message ++ String.join (cs.map Context.text) := ih (c.wrap e)
      _ = e.message ++ (c.text ++ String.join (cs.map Context.text)) := by
        rw [message_wrap, String.append_assoc]
      _ = e.message ++ String.join ((c :: cs).map Context.text) := by rw [List.map_cons, String.join_cons]

theorem TellsLinesOnce.addAll (h : e.TellsLinesOnce) (cs : List Context) : (e.addAll cs).TellsLinesOnce := by
  induction cs generalizing e with
  | nil => exact h
  | cons c cs ih => exact ih (h.add c)

theorem IsCause.innermost_eq (h : e.IsCause) : e.innermost = e := by
  cases e with
  | atLine line cause => exact absurd rfl (h.1 line cause)
  | inSection path cause => exact absurd rfl (h.2 path cause)
  | _ => rfl

theorem IsCause.tellsLinesOnce (h : e.IsCause) : e.TellsLinesOnce := by
  intro line cause hmem
  cases e with
  | atLine line cause => exact absurd rfl (h.1 line cause)
  | inSection path cause => exact absurd rfl (h.2 path cause)
  | _ => cases List.mem_singleton.1 hmem

/-- **Context never hides the cause.** Whatever is added to a cause, it is the innermost error. Around it
are just the pieces that stay, its message is followed by theirs, in order, and no line is around an error
that has one. -/
theorem addAll_keeps_cause (h : e.IsCause) (cs : List Context) :
    (e.addAll cs).innermost = e ∧
      e.addAll cs = e.wrapAll (kept e cs) ∧
      (e.addAll cs).message = e.message ++ String.join ((kept e cs).map Context.text) ∧
      ∀ line cause, atLine line cause ∈ e.addAll cs :: (e.addAll cs).causes → ¬ cause.HasLine := by
  have heq := addAll_eq_wrapAll e cs
  refine ⟨?_, heq, ?_, h.tellsLinesOnce.addAll cs⟩
  · rw [heq, innermost_wrapAll, h.innermost_eq]
  · rw [heq, message_wrapAll]

def linesAndSection : List Context := [.atLine "float32 X", .atLine "X", .inSection "a/B", .atLine "Y"]

/-- The second line is left out behind the first, and both on an error that quotes its line. -/
theorem addAll_keeps_cause_of_lines :
    ((badName .field "X").IsCause ∧
      ((badName .field "X").addAll linesAndSection).innermost = badName .field "X" ∧
      (badName .field "X").addAll linesAndSection =
        atLine "Y" (inSection "a/B" (atLine "float32 X" (badName .field "X"))) ∧
      ((badName .field "X").addAll linesAndSection).message =
        "invalid field name: X (line: 'float32 X') (in a/B) (line: 'Y')") ∧
    (malformed "field" "X").IsCause ∧
      ((malformed "field" "X").addAll linesAndSection).innermost = malformed "field" "X" ∧
      (malformed "field" "X").addAll linesAndSection = atLine "Y" (inSection "a/B" (malformed "field" "X")) ∧
      ((malformed "field" "X").addAll linesAndSection).message =
        "could not parse field: 'X' (in a/B) (line: 'Y')" ∧
      ¬ (inSection "a/B" (malformed "field" "X")).HasLine := by
  have named : (badName .field "X").IsCause := ⟨nofun, nofun⟩
  have quoted : (malformed "field" "X").IsCause := ⟨nofun, nofun⟩
  obtain ⟨hnamed, hnamedWrap, hnamedMessage, -⟩ := addAll_keeps_cause named linesAndSection
  obtain ⟨hquoted, hquotedWrap, hquotedMessage, honce⟩ := addAll_keeps_cause quoted linesAndSection
  have hwrap : (malformed "field" "X").addAll linesAndSection =
      atLine "Y" (inSection "a/B" (malformed "field" "X")) := hquotedWrap.trans (by decide)
  refine ⟨⟨named, hnamed, hnamedWrap.trans (by decide), hnamedMessage.trans (by decide +kernel)⟩,
    quoted, hquoted, hwrap, hquotedMessage.trans (by decide +kernel), honce "Y" _ ?_⟩
  rw [hwrap]
  exact List.mem_cons_self

end RosSchema.Error

import RosSchema.Proofs.Line.Header

/-!
# Names of headers

One grammar cuts a header at the first `#` and takes the first word of what is left. The other takes all it
can up to a space, as long as nothing but blanks and a comment is left, so it takes a comment along that ends
before a space, or that another one follows. `StandsApart` is what has to follow a name for both to agree.
-/

namespace RosSchema.Line

open RosSchema.Text
open Reader (Splits splits_iff)

/-! ## What follows a name -/

/-- The next character that is not blank starts a comment, which is not empty. -/
def StartsComment (cs : List Char) : Prop := ∃ comment, trimLeft cs = '#' :: comment ∧ comment ≠ []

/-- A name stands apart from what follows it: from nothing, from a space, or from a comment that has a space,
with neither a second mark before it nor a second comment right after it. -/
inductive StandsApart : List Char → Prop where
  | nothing : StandsApart []
  | space (rest : List Char) : StandsApart (' ' :: rest)
  | comment {word rest : List Char} (space : ' ' ∉ word) (mark : '#' ∉ word) (single : ¬ StartsComment rest) :
      StandsApart ('#' :: (word ++ ' ' :: rest))

theorem startsComment_append {blanks cs : List Char} (h : ∀ c ∈ blanks, isBlank c = true) :
    StartsComment (blanks ++ cs) ↔ StartsComment cs := by
  rw [StartsComment, trimLeft_append h, StartsComment]

theorem startsComment_cons {c : Char} {cs : List Char} (hc : isBlank c = true) :
    StartsComment (c :: cs) ↔ StartsComment cs := by
  rw [StartsComment, trimLeft, List.dropWhile_cons_of_pos hc]
  rfl

theorem startsComment_mark {comment : List Char} : StartsComment ('#' :: comment) ↔ comment ≠ [] := by
  have htrim : trimLeft ('#' :: comment) = '#' :: comment := trimLeft_of_head (by
    rintro c ⟨⟩
    decide)
  simp [StartsComment, htrim]

/-- A text in front of a comment is blank if it has no mark of comments. -/
theorem startsComment_of_append {front back : List Char} (hmark : '#' ∉ front)
    (h : StartsComment (front ++ back)) : StartsComment back := by
  obtain ⟨comment, hcomment, hne⟩ := h
  obtain ⟨blanks, hsplit, hblanks⟩ := exists_append_trimLeft (front ++ back)
  rw [hcomment] at hsplit
  have hfront : ∀ c ∈ front, isBlank c = true := by
    rcases List.append_eq_append_iff.1 hsplit with ⟨more, rfl, -⟩ | ⟨more, rfl, hmore⟩
    · exact fun c hc => hblanks c (List.mem_append_left _ hc)
    · cases more with
      | nil => rwa [List.append_nil]
      | cons d more =>
        obtain rfl := (List.cons.inj hmore).1
        exact absurd (List.mem_append_right _ List.mem_cons_self) hmark
  rw [← startsComment_append hfront]
  exact ⟨comment, hcomment, hne⟩

/-- A header is finished before blanks and before a comment. -/
theorem isHeaderFinished_iff {cs : List Char} :
    Ros2.isHeaderFinished cs = true ↔ (∀ c ∈ cs, isBlank c = true) ∨ StartsComment cs := by
  rw [Ros2.isHeaderFinished, StartsComment, ← List.dropWhile_eq_nil_iff]
  change _ ↔ trimLeft cs = [] ∨ _
  cases trimLeft cs with
  | nil => simp
  | cons c rest =>
    by_cases hc : c = '#'
    · subst hc
      cases rest <;> simp
    · split <;> simp_all

/-- A header is not finished where a name goes on. -/
theorem isHeaderFinished_of_isNameChar {c : Char} {cs : List Char} (hc : isNameChar c = true) :
    Ros2.isHeaderFinished (c :: cs) = false := by
  obtain ⟨hblank, hmark⟩ := isNameChar_eq_true.1 hc
  rw [← Bool.not_eq_true, isHeaderFinished_iff]
  rintro (hall | ⟨comment, hcomment, -⟩)
  · simp [hall c List.mem_cons_self] at hblank
  · rw [trimLeft_of_head (by simpa using hblank)] at hcomment
    exact hmark (List.cons.inj hcomment).1

/-- Before the end of a trimmed line, only a comment finishes a header. -/
theorem startsComment_of_isHeaderFinished {front cs : List Char} (hne : cs ≠ [])
    (hlast : ∀ c ∈ (front ++ cs).getLast?, isBlank c = false) (h : Ros2.isHeaderFinished cs = true) :
    StartsComment cs := by
  refine (isHeaderFinished_iff.1 h).resolve_left fun hall => ?_
  have hc := hlast (cs.getLast hne) (by rw [List.getLast?_append_of_ne_nil _ hne, List.getLast?_eq_getLast_of_ne_nil hne]; rfl)
  rw [hall _ (List.getLast_mem hne)] at hc
  cases hc

/-! ## Where the longest name ends -/

section Names

variable {front name rest : List Char}

/-- A comment that goes on to no longer name is one that the name before it stands apart from. -/
theorem standsApart_comment {comment : List Char} (hne : comment ≠ [])
    (hlongest : ∀ more after, '#' :: comment = more ++ after → more ≠ [] → ' ' ∉ more →
      Ros2.isHeaderFinished after ≠ true) : StandsApart ('#' :: comment) := by
  obtain ⟨word, after, rfl, hword, hstops⟩ : ∃ word after, Splits (· != ' ') comment word after :=
    ⟨_, _, splits_iff.2 ⟨rfl, rfl⟩⟩
  have hspace : ' ' ∉ word := fun hm => absurd (hword ' ' hm) (by decide)
  have hmore {more : List Char} (h : ' ' ∉ more) : ' ' ∉ '#' :: more :=
    List.not_mem_cons_of_ne_of_not_mem (by decide) h
  cases after with
  | nil => exact absurd rfl (hlongest ('#' :: word) [] (by simp) (by simp) (hmore hspace))
  | cons d rest =>
    obtain rfl : d = ' ' := by simpa using hstops d rfl
    refine .comment hspace (fun hmark => ?_) fun hsecond => ?_
    · obtain ⟨front, back, rfl⟩ := List.append_of_mem hmark
      have hcomment : StartsComment ('#' :: (back ++ ' ' :: rest)) := startsComment_mark.2 (by simp)
      exact hlongest ('#' :: front) _ (by simp) (by simp)
        (hmore fun hm => hspace (List.mem_append_left _ hm)) (isHeaderFinished_iff.2 (.inr hcomment))
    · have hcomment : StartsComment (' ' :: rest) :=
        (startsComment_cons (by decide)).2 hsecond
      exact hlongest ('#' :: word) _ rfl (by simp) (hmore hspace) (isHeaderFinished_iff.2 (.inr hcomment))

/-- After a name that is its longest one, a trimmed line has nothing, a space or a comment apart. -/
theorem standsApart_of_longestName? (hlast : ∀ c ∈ (front ++ rest).getLast?, isBlank c = false)
    (hfinished : Ros2.isHeaderFinished rest = true) (hnone : Ros2.longestName? rest = none) :
    StandsApart rest := by
  -- no front without a space finishes the header
  have hlongest (more after : List Char) (heq : rest = more ++ after) (hne : more ≠ []) (hspace : ' ' ∉ more) :
      Ros2.isHeaderFinished after ≠ true :=
    fun h => Ros2.EndsHeader.longestName?_ne_none ⟨heq, hne, hspace, h⟩ hnone
  cases rest with
  | nil => exact .nothing
  | cons c tail =>
    by_cases hc : c = ' '
    · subst hc
      exact .space tail
    obtain ⟨comment, hcomment, hne⟩ := startsComment_of_isHeaderFinished (List.cons_ne_nil c tail) hlast hfinished
    cases hblank : isBlank c with
    | true =>
      have htail : StartsComment tail := by
        rw [← startsComment_cons hblank]
        exact ⟨comment, hcomment, hne⟩
      exact absurd (isHeaderFinished_iff.2 (.inr htail)) (hlongest [c] tail rfl (by simp) (by simpa using Ne.symm hc))
    | false =>
      rw [trimLeft_of_head (by simpa using hblank)] at hcomment
      obtain ⟨rfl, rfl⟩ := List.cons.inj hcomment
      exact standsApart_comment hne hlongest

/-- What is left of a header is more than its name if the header is finished before that. -/
theorem exists_append_of_isHeaderFinished {longer after : List Char} (heq : name ++ rest = longer ++ after)
    (hname : ∀ c ∈ name, isNameChar c = true) (hfinished : Ros2.isHeaderFinished after = true) :
    ∃ more, longer = name ++ more ∧ rest = more ++ after := by
  rcases List.append_eq_append_iff.1 heq with ⟨more, hlonger, hrest⟩ | ⟨more, rfl, rfl⟩
  · exact ⟨more, hlonger, hrest⟩
  · cases more with
    | nil => exact ⟨[], by simp, rfl⟩
    | cons c more =>
      have hnot : Ros2.isHeaderFinished (c :: (more ++ rest)) = false :=
        isHeaderFinished_of_isNameChar (hname c (by simp))
      rw [← List.cons_append, hfinished] at hnot
      cases hnot

/-- Where a name stands apart, no header is finished before the end of more than the name. -/
theorem eq_nil_of_standsApart {more after : List Char} (happart : StandsApart rest) (hrest : rest = more ++ after)
    (hspace : ' ' ∉ more) (hlast : ∀ c ∈ (front ++ after).getLast?, isBlank c = false)
    (hfinished : Ros2.isHeaderFinished after = true) : more = [] := by
  cases more with
  | nil => rfl
  | cons c more =>
    exfalso
    obtain ⟨hc, hmore⟩ := List.ne_and_not_mem_of_not_mem_cons hspace
    cases happart with
    | nothing => cases hrest
    | space rest => exact hc (List.cons.inj hrest).1
    | @comment word rest space mark single =>
      obtain ⟨between, rfl, hbetween⟩ : ∃ between, after = between ++ ' ' :: rest ∧ '#' ∉ between := by
        rcases List.append_eq_append_iff.1 (List.cons.inj hrest).2 with ⟨between, rfl, heq⟩ | ⟨between, rfl, heq⟩
        · cases between with
          | nil => exact ⟨[], heq.symm, List.not_mem_nil⟩
          | cons d between =>
            rw [← (List.cons.inj heq).1] at hmore
            exact absurd (List.mem_append_right _ List.mem_cons_self) hmore
        · exact ⟨between, heq, fun hm => mark (List.mem_append_right _ hm)⟩
      have hcomment := startsComment_of_isHeaderFinished (by simp) hlast hfinished
      have hsecond : StartsComment (' ' :: rest) := startsComment_of_append hbetween hcomment
      exact single ((startsComment_cons (by decide)).1 hsecond)

/-- Both names start where the blanks after the mark of headers end. -/
theorem append_eq_of_header {blanks other after : List Char}
    (h : headerLine (other ++ after) = headerMark ++ (blanks ++ (name ++ rest)))
    (hblanks : ∀ c ∈ blanks, isBlank c = true) (hne : name ≠ []) (hname : ∀ c ∈ name, isBlank c = false ∧ c ≠ '#')
    (hne' : other ≠ []) (hother : ∀ c ∈ other, isBlank c = false ∧ c ≠ '#') : name ++ rest = other ++ after := by
  have hstops {word back : List Char} (hword : word ≠ []) (hclean : ∀ c ∈ word, isBlank c = false ∧ c ≠ '#') :
      ∀ c ∈ (word ++ back).head?, isBlank c = false := by
    rw [List.head?_append_of_ne_nil _ hword]
    exact fun c hc => (hclean c (List.mem_of_mem_head? hc)).1
  have hline : headerMark ++ ' ' :: (other ++ after) = headerMark ++ (blanks ++ (name ++ rest)) := h
  have heq := List.append_cancel_left hline
  have hsplits : Splits isBlank (blanks ++ (name ++ rest)) blanks (name ++ rest) :=
    ⟨rfl, hblanks, hstops hne hname⟩
  have hsplits' : Splits isBlank (blanks ++ (name ++ rest)) [' '] (other ++ after) :=
    ⟨heq.symm, by simp; decide, hstops hne' hother⟩
  exact (hsplits.unique hsplits').2

end Names

/-- The grammars take the same name from a header exactly if the name stands apart from what follows it. The
name is then one without blanks and marks of comments, which one of the grammars always takes. -/
theorem header?_names {line : List Char} (hline : Trimmed line) {a b : String}
    (h₁ : Ros1.header? line = some (some a)) (h₂ : Ros2.header? line = some (some b)) :
    (∀ c ∈ a.toList, isBlank c = false ∧ c ≠ '#') ∧
    (a = b ↔ ∀ c ∈ b.toList, isBlank c = false ∧ c ≠ '#') ∧
    (a = b ↔ ∃ rest, line = headerLine (a.toList ++ rest) ∧ StandsApart rest) := by
  obtain ⟨blanks, rest, hfirst, hblanks, hword, hstops⟩ := Ros1.header?_eq_some.1 h₁
  obtain ⟨cs, after, rfl, ⟨rfl, hne, hspace, hfinished⟩, hnone⟩ := Ros2.header?_eq_some.1 h₂
  have hclean : ∀ c ∈ a.toList, isBlank c = false ∧ c ≠ '#' := fun c hc => isNameChar_eq_true.1 (hword.all c hc)
  have hlast : ∀ c ∈ (headerLine b.toList ++ after).getLast?, isBlank c = false := by
    rw [headerLine, List.append_assoc]
    exact hline.last
  refine ⟨hclean, ⟨fun hab => hab ▸ hclean, fun hb => ?_⟩, ⟨fun hab => ?_, ?_⟩⟩
  · have hcs := append_eq_of_header hfirst hblanks hword.ne_nil hclean hne hb
    obtain ⟨more, hlonger, hrest⟩ := exists_append_of_isHeaderFinished hcs hword.all hfinished
    cases more with
    | nil =>
      rw [List.append_nil] at hlonger
      exact (String.toList_inj.1 hlonger).symm
    | cons c more =>
      have hc : isNameChar c = true := isNameChar_eq_true.2 (hb c (by simp [hlonger]))
      have hstop := hstops c (by rw [hrest]; rfl)
      rw [hc] at hstop
      cases hstop
  · exact ⟨after, by rw [hab], standsApart_of_longestName? hlast hfinished hnone⟩
  · rintro ⟨rest, heq, happart⟩
    have hcs : a.toList ++ rest = b.toList ++ after := (List.append_cancel_left heq).symm
    obtain ⟨more, hlonger, hrest⟩ := exists_append_of_isHeaderFinished hcs hword.all hfinished
    have hmore : ' ' ∉ more := fun hm => hspace (by rw [hlonger]; exact List.mem_append_right _ hm)
    obtain rfl := eq_nil_of_standsApart happart hrest hmore hlast hfinished
    rw [List.append_nil] at hlonger
    exact (String.toList_inj.1 hlonger).symm

/-- After the first space of a comment, a second mark inside of a word does not matter. -/
theorem header?_names_of_attached : Trimmed "MSG: a/B#see c#d".toList ∧
    Ros1.header? "MSG: a/B#see c#d".toList = some (some "a/B") ∧
    Ros2.header? "MSG: a/B#see c#d".toList = some (some "a/B") ∧ StandsApart "#see c#d".toList := by
  have hline : Trimmed "MSG: a/B#see c#d".toList := by
    constructor <;>
    · rintro c ⟨⟩
      decide
  have h₁ : Ros1.header? "MSG: a/B#see c#d".toList = some (some "a/B") := by decide +kernel
  have h₂ : Ros2.header? "MSG: a/B#see c#d".toList = some (some "a/B") := by decide +kernel
  obtain ⟨rest, heq, happart⟩ := (header?_names hline h₁ h₂).2.2.1 rfl
  have hsame : "MSG: a/B".toList ++ "#see c#d".toList = "MSG: a/B".toList ++ rest := heq
  obtain rfl := List.append_cancel_left hsame
  exact ⟨hline, h₁, h₂, happart⟩

/-- A comment that is one word with its mark is taken as a part of the name. -/
theorem not_header?_names_of_word : Trimmed "MSG: a/B#c".toList ∧
    Ros1.header? "MSG: a/B#c".toList = some (some "a/B") ∧
    Ros2.header? "MSG: a/B#c".toList = some (some "a/B#c") ∧ '#' ∈ "a/B#c".toList ∧ "a/B" ≠ "a/B#c" := by
  have hline : Trimmed "MSG: a/B#c".toList := by
    constructor <;>
    · rintro c ⟨⟩
      decide
  exact ⟨hline, by decide +kernel, by decide +kernel, by decide, by decide⟩

end RosSchema.Line

import RosSchema.Line.Ros2
import RosSchema.Proofs.Text.Reading
import RosSchema.Proofs.Text.Trim

/-!
# Written declarations

A declaration is its type, the marks after it, a gap, its name and its ending, one after the other.
`declaration_eq_some` says that the grammar reads a line as a declaration exactly when the line is
written that way.
-/

namespace RosSchema.Line.Ros2

open RosSchema.Text (isBlank)
open Reader

def boundText : Option (List Char) → List Char
  | none => []
  | some digits => '<' :: '=' :: digits

def markText : Option (ArrayMark (List Char)) → List Char
  | none => []
  | some .any => ['[', ']']
  | some (.exactly digits) => '[' :: digits ++ [']']
  | some (.atMost digits) => '[' :: '<' :: '=' :: digits ++ [']']

def MarkDigits : Option (ArrayMark (List Char)) → Prop
  | none | some .any => True
  | some (.exactly digits) | some (.atMost digits) => Word Char.isDigit digits

/-- A line is written as a declaration, with a gap before the name and a text after it. -/
structure Declaration.Written (d : Declaration) (gap tail line : List Char) : Prop where
  eq : line = d.type ++ (boundText d.bound ++ (markText d.array ++ (gap ++ (d.name ++ tail))))
  type : Word isTypePart d.type
  bound : ∀ digits ∈ d.bound, Word Char.isDigit digits
  array : MarkDigits d.array
  gap : Word isBlank gap
  name : Word isNamePart d.name
  stops : ∀ c ∈ tail.head?, isNamePart c = false
  ending : Ending.read? tail = some d.ending

/-! ## Character classes -/

/-- The characters that can follow a type, a bound or an array mark are in no word. -/
theorem isTypePart_eq_false_of_isBlank {c : Char} (h : isBlank c = true) : isTypePart c = false := by
  by_contra hc
  simp only [Bool.not_eq_false] at hc
  have hn : 0x2F ≤ c.toNat ∧ c.toNat ≤ 0x7A := by
    simp only [isTypePart, isNamePart, Char.isAlphanum, Char.isAlpha, Char.isUpper, Char.isLower,
      Char.isDigit, Bool.or_eq_true, Bool.and_eq_true, decide_eq_true_eq, beq_iff_eq,
      UInt32.le_iff_toNat_le] at hc
    change ((((_ ≤ c.toNat ∧ c.toNat ≤ _) ∨ (_ ≤ c.toNat ∧ c.toNat ≤ _)) ∨
      (_ ≤ c.toNat ∧ c.toNat ≤ _)) ∨ _) ∨ _ at hc
    rcases hc with (((⟨h1, h2⟩ | ⟨h1, h2⟩) | ⟨h1, h2⟩) | rfl) | rfl
    · exact ⟨le_trans (by decide) h1, le_trans h2 (by decide)⟩
    · exact ⟨le_trans (by decide) h1, le_trans h2 (by decide)⟩
    · exact ⟨le_trans (by decide) h1, le_trans h2 (by decide)⟩
    · decide
    · decide
  simp only [isBlank, RosSchema.Text.blankRanges, List.any_cons, List.any_nil, Bool.or_false,
    Bool.or_eq_true, Bool.and_eq_true, decide_eq_true_eq] at h
  omega

theorem isTypePart_of_isNamePart {c : Char} (h : isNamePart c = true) : isTypePart c = true := by
  simp [isTypePart, h]

theorem isNamePart_eq_false_of_isTypePart {c : Char} (h : isTypePart c = false) : isNamePart c = false :=
  (Bool.or_eq_false_iff.1 h).1

theorem isBlank_eq_false_of_isTypePart {c : Char} (h : isTypePart c = true) : isBlank c = false := by
  by_contra hc
  have hf := isTypePart_eq_false_of_isBlank (Bool.not_eq_false _ ▸ hc)
  simp [h] at hf

theorem isBlank_eq_false_of_isNamePart {c : Char} (h : isNamePart c = true) : isBlank c = false :=
  isBlank_eq_false_of_isTypePart (isTypePart_of_isNamePart h)

theorem isNamePart_of_isDigit {c : Char} (h : c.isDigit = true) : isNamePart c = true := by
  simp [isNamePart, Char.isAlphanum, h]

theorem isDigit_eq_false_of_isBlank {c : Char} (h : isBlank c = true) : c.isDigit = false := by
  by_contra hc
  have hn := isBlank_eq_false_of_isNamePart (isNamePart_of_isDigit (Bool.not_eq_false _ ▸ hc))
  simp [h] at hn

/-! ## The readers of a declaration -/

theorem upperBound_eq_some {cs digits rest : List Char} :
    upperBound cs = some (digits, rest) ↔ Word Char.isDigit digits ∧
      cs = boundText (some digits) ++ rest ∧ ∀ c ∈ rest.head?, c.isDigit = false := by
  change ((token "<=") >>= fun _ => run1 Char.isDigit) cs = _ ↔ _
  rw [bind_eq_some]
  constructor
  · rintro ⟨_, mid, htoken, hrun⟩
    obtain rfl := token_eq_some.1 htoken
    obtain ⟨hw, rfl, hstops⟩ := run1_eq_some.1 hrun
    exact ⟨hw, rfl, hstops⟩
  · rintro ⟨hw, rfl, hstops⟩
    exact ⟨(), digits ++ rest, token_eq_some.2 rfl, run1_eq_some.2 ⟨hw, rfl, hstops⟩⟩

theorem upperBound_eq_none {c : Char} {cs : List Char} (h : c ≠ '<') : upperBound (c :: cs) = none := by
  rw [Option.eq_none_iff_forall_ne_some]
  rintro ⟨digits, rest⟩ hread
  exact h (List.cons.inj (upperBound_eq_some.1 hread).2.1).1

/-- A mark is read where what stands between its brackets is. -/
theorem arrayMark_of_inside (count : Option (ArrayMark (List Char))) (inside : List Char) {rest : List Char}
    (h : ((some <$> (ArrayMark.exactly <$> run1 Char.isDigit <|> ArrayMark.atMost <$> upperBound)) <|> pure none :
      Reader (Option (ArrayMark (List Char)))) (inside ++ ']' :: rest) = some (count, ']' :: rest)) :
    arrayMark ('[' :: (inside ++ ']' :: rest)) = some (count.getD .any, rest) := by
  rw [arrayMark, bind_of_eq_some (mark_cons _ _), bind_of_eq_some h, bind_of_eq_some (mark_cons _ _)]
  rfl

/-- A mark is read with the digits between its brackets. -/
theorem arrayMark_append {m : ArrayMark (List Char)} (hdigits : MarkDigits (some m)) (rest : List Char) :
    arrayMark (markText (some m) ++ rest) = some (m, rest) := by
  have hend : ∀ c ∈ (']' :: rest).head?, c.isDigit = false := by simp
  cases m with
  | any =>
    refine arrayMark_of_inside none [] ?_
    rw [orElse_apply, map_apply, orElse_apply, map_apply, map_apply, List.nil_append,
      run1_eq_none (by decide), upperBound_eq_none (by decide)]
    rfl
  | exactly digits =>
    have htext : markText (some (.exactly digits)) ++ rest = '[' :: (digits ++ ']' :: rest) := by
      simp [markText]
    rw [htext]
    refine arrayMark_of_inside (some (.exactly digits)) digits ?_
    rw [orElse_apply, map_apply, orElse_apply, map_apply, run1_append hdigits hend]
    rfl
  | atMost digits =>
    have htext : markText (some (.atMost digits)) ++ rest = '[' :: ('<' :: '=' :: digits ++ ']' :: rest) := by
      simp [markText]
    have hbound : upperBound ('<' :: '=' :: digits ++ ']' :: rest) = some (digits, ']' :: rest) :=
      upperBound_eq_some.2 ⟨hdigits, rfl, hend⟩
    rw [htext]
    refine arrayMark_of_inside (some (.atMost digits)) ('<' :: '=' :: digits) ?_
    rw [orElse_apply, map_apply, orElse_apply, map_apply, map_apply, hbound, List.cons_append,
      run1_eq_none (by decide)]
    rfl

/-- Brackets are read with the digits between them, and nothing else may stand there. -/
theorem arrayMark_eq_some {cs rest : List Char} {m : ArrayMark (List Char)} :
    arrayMark cs = some (m, rest) ↔ cs = markText (some m) ++ rest ∧ MarkDigits (some m) := by
  constructor
  · rw [arrayMark, bind_eq_some]
    rintro ⟨_, mid, hopen, h⟩
    obtain rfl := mark_eq_some.1 hopen
    obtain ⟨count, left, hcount, h⟩ := bind_eq_some.1 h
    obtain ⟨_, end', hclose, h⟩ := bind_eq_some.1 h
    obtain rfl := mark_eq_some.1 hclose
    obtain ⟨rfl, rfl⟩ := pure_eq_some.1 h
    rcases orElse_eq_some.1 hcount with hcount | ⟨-, hcount⟩
    · obtain ⟨mark', hmark, rfl⟩ := map_eq_some.1 hcount
      rcases orElse_eq_some.1 hmark with hmark | ⟨-, hmark⟩
      · obtain ⟨digits, hdigits, rfl⟩ := map_eq_some.1 hmark
        obtain ⟨hw, rfl, -⟩ := run1_eq_some.1 hdigits
        exact ⟨by simp [markText], hw⟩
      · obtain ⟨digits, hdigits, rfl⟩ := map_eq_some.1 hmark
        obtain ⟨hw, rfl, -⟩ := upperBound_eq_some.1 hdigits
        exact ⟨by simp [markText, boundText], hw⟩
    · obtain ⟨rfl, rfl⟩ := pure_eq_some.1 hcount
      exact ⟨rfl, trivial⟩
  · rintro ⟨rfl, hdigits⟩
    exact arrayMark_append hdigits rest

theorem arrayMark_eq_none {c : Char} {cs : List Char} (h : c ≠ '[') : arrayMark (c :: cs) = none := by
  rw [Option.eq_none_iff_forall_ne_some]
  rintro ⟨m, rest⟩ hread
  have hcs := (arrayMark_eq_some.1 hread).1
  cases m <;> exact h (List.cons.inj hcs).1

theorem head?_markText_append (m : Option (ArrayMark (List Char))) (g : Char) (rest : List Char) :
    ∀ c ∈ (markText m ++ g :: rest).head?, c = '[' ∨ c = g := by
  rcases m with _ | (_ | _ | _)
  · rintro c ⟨⟩
    exact .inr rfl
  all_goals
    rintro c ⟨⟩
    exact .inl rfl

/-- Before a blank an array mark is read, or that there is none. -/
theorem optional_arrayMark_append {array : Option (ArrayMark (List Char))} (ha : MarkDigits array) {g : Char}
    (hg : isBlank g = true) (rest : List Char) :
    optional arrayMark (markText array ++ g :: rest) = some (array, g :: rest) := by
  cases array with
  | none =>
    refine optional_eq_some.2 (.inr ⟨arrayMark_eq_none ?_, rfl, rfl⟩)
    rintro rfl
    exact absurd hg (by decide)
  | some m => exact optional_eq_some.2 (.inl ⟨m, rfl, arrayMark_append ha _⟩)

/-- Before an array mark or a blank a bound is read, or that there is none. -/
theorem optional_upperBound_append {bound : Option (List Char)}
    (hb : ∀ digits ∈ bound, Word Char.isDigit digits) {after : List Char}
    (hafter : ∀ c ∈ after.head?, c = '[' ∨ isBlank c = true) :
    optional upperBound (boundText bound ++ after) = some (bound, after) := by
  cases bound with
  | none =>
    refine optional_eq_some.2 (.inr ⟨?_, rfl, rfl⟩)
    cases after with
    | nil => rfl
    | cons c after =>
      refine upperBound_eq_none ?_
      rintro rfl
      exact absurd (hafter '<' rfl) (by decide)
  | some digits =>
    refine optional_eq_some.2 (.inl ⟨digits, rfl, upperBound_eq_some.2 ⟨hb digits rfl, rfl, ?_⟩⟩)
    intro c hc
    rcases hafter c hc with rfl | hc
    · decide
    · exact isDigit_eq_false_of_isBlank hc

/-- A type ends before a bound, an array mark or a blank. -/
theorem stops_boundText (bound : Option (List Char)) {after : List Char}
    (hafter : ∀ c ∈ after.head?, c = '[' ∨ isBlank c = true) :
    ∀ c ∈ (boundText bound ++ after).head?, isTypePart c = false := by
  cases bound with
  | none =>
    intro c hc
    rcases hafter c hc with rfl | hc
    · decide
    · exact isTypePart_eq_false_of_isBlank hc
  | some digits =>
    rintro c ⟨⟩
    decide

/-- With its parts written one after the other, a line is read as a declaration as far as its ending
is. -/
theorem declaration_append {type : List Char} {bound : Option (List Char)}
    {array : Option (ArrayMark (List Char))} {gap name tail : List Char} (htype : Word isTypePart type)
    (hb : ∀ digits ∈ bound, Word Char.isDigit digits) (ha : MarkDigits array) (hgap : Word isBlank gap)
    (hname : Word isNamePart name) (hstops : ∀ c ∈ tail.head?, isNamePart c = false) :
    whole? declaration (type ++ (boundText bound ++ (markText array ++ (gap ++ (name ++ tail))))) =
      (Ending.read? tail).map fun ending => ⟨type, bound, array, name, ending⟩ := by
  obtain ⟨g, gs, rfl, hg⟩ := hgap.exists_cons
  obtain ⟨n, ns, rfl, hn⟩ := hname.exists_cons
  have hafter : ∀ c ∈ (markText array ++ (g :: gs ++ (n :: ns ++ tail))).head?,
      c = '[' ∨ isBlank c = true := by
    intro c hc
    rcases head?_markText_append array g _ c hc with h | rfl
    · exact .inl h
    · exact .inr hg
  have htypeRead := run1_append htype (stops_boundText bound hafter)
  have hboundRead := optional_upperBound_append hb hafter
  have hmarkRead := optional_arrayMark_append ha hg (gs ++ (n :: ns ++ tail))
  have hgapRead : run1 isBlank (g :: gs ++ (n :: ns ++ tail)) = some (g :: gs, n :: ns ++ tail) :=
    run1_append hgap (by simpa using isBlank_eq_false_of_isNamePart hn)
  have hnameRead : run1 isNamePart (n :: ns ++ tail) = some (n :: ns, tail) :=
    run1_append hname hstops
  have hrest : rest tail = some (tail, []) := rfl
  rw [whole?, declaration, bind_of_eq_some htypeRead, bind_of_eq_some hboundRead, List.cons_append,
    bind_of_eq_some hmarkRead, ← List.cons_append, bind_of_eq_some hgapRead, bind_of_eq_some hnameRead,
    bind_of_eq_some hrest]
  cases Ending.read? tail <;> rfl

/-- The grammar reads a line as a declaration exactly when it is written that way. -/
theorem declaration_eq_some {line : List Char} {d : Declaration} :
    whole? declaration line = some d ↔ ∃ gap tail, d.Written gap tail line := by
  constructor
  · rw [whole?_eq_some, declaration, bind_eq_some]
    rintro ⟨type, r₁, htype, h₁⟩
    obtain ⟨bound, r₂, hbound, h₂⟩ := bind_eq_some.1 h₁
    obtain ⟨array, r₃, harray, h₃⟩ := bind_eq_some.1 h₂
    obtain ⟨gap, r₄, hgap, h₄⟩ := bind_eq_some.1 h₃
    obtain ⟨name, r₅, hname, h₅⟩ := bind_eq_some.1 h₄
    obtain ⟨tail, r₆, htail, h₆⟩ := bind_eq_some.1 h₅
    obtain ⟨ending, r₇, hending, h₇⟩ := bind_eq_some.1 h₆
    obtain ⟨wtype, rfl, -⟩ := run1_eq_some.1 htype
    obtain ⟨wgap, rfl, -⟩ := run1_eq_some.1 hgap
    obtain ⟨wname, rfl, hstops⟩ := run1_eq_some.1 hname
    obtain ⟨rfl, rfl⟩ := rest_eq_some.1 htail
    obtain ⟨hread, rfl⟩ := given_eq_some.1 hending
    obtain ⟨rfl, -⟩ := pure_eq_some.1 h₇
    have hb : r₁ = boundText bound ++ r₂ ∧ ∀ digits ∈ bound, Word Char.isDigit digits := by
      rcases optional_eq_some.1 hbound with ⟨digits, rfl, hread⟩ | ⟨-, rfl, rfl⟩
      · obtain ⟨hw, rfl, -⟩ := upperBound_eq_some.1 hread
        exact ⟨rfl, by simpa using hw⟩
      · exact ⟨rfl, by simp⟩
    have ha : r₂ = markText array ++ (gap ++ (name ++ r₅)) ∧ MarkDigits array := by
      rcases optional_eq_some.1 harray with ⟨m, rfl, hread⟩ | ⟨-, rfl, rfl⟩
      · exact arrayMark_eq_some.1 hread
      · exact ⟨rfl, trivial⟩
    obtain ⟨rfl, hb⟩ := hb
    obtain ⟨rfl, ha⟩ := ha
    exact ⟨gap, r₅, rfl, wtype, hb, ha, wgap, wname, hstops, hread⟩
  · rintro ⟨gap, tail, w⟩
    rw [w.eq, declaration_append w.type w.bound w.array w.gap w.name w.stops, w.ending]
    rfl

end RosSchema.Line.Ros2

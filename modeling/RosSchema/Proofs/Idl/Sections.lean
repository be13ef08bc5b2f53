import RosSchema.Idl.Flatten
import RosSchema.Proofs.Idl.Comments
import RosSchema.Proofs.Text.Trim

/-!
# Sections one by one

The definitions of a text are those of its sections, one after the other: `linesOutcome` computes them
from the lines, and it goes over the separators. What a section defines depends on its lines only up to
the gaps at their end.
-/

namespace RosSchema.Idl

open RosSchema.Text (trim trimLeft trimRight)

/-! ## Lines -/

def lineText (lines : List (List Char)) : List Char := lines.flatMap (· ++ ['\n'])

def isBlankLine (line : List Char) : Bool := (trim line).isEmpty

def isHeader (line : List Char) : Bool := ("IDL:".toList.isPrefixOf? (trim line)).isSome

def content (lines : List (List Char)) : List (List Char) :=
  match lines.dropWhile isBlankLine with
  | [] => []
  | first :: rest => if isHeader first then rest else first :: rest

@[simp] theorem lineText_nil : lineText [] = [] := rfl

@[simp] theorem lineText_cons (line : List Char) (lines : List (List Char)) :
    lineText (line :: lines) = line ++ '\n' :: lineText lines := by
  simp [lineText]

@[simp] theorem lineText_append (xs ys : List (List Char)) : lineText (xs ++ ys) = lineText xs ++ lineText ys := by
  simp [lineText]

theorem lineText_eq {lines : List (List Char)} (h : lines ≠ []) : lineText lines = joinLines lines ++ ['\n'] := by
  induction lines with
  | nil => exact absurd rfl h
  | cons line lines ih =>
    cases lines with
    | nil => simp [joinLines]
    | cons other lines =>
      rw [lineText_cons, ih (List.cons_ne_nil other lines)]
      simp [joinLines, List.intercalate]

/-- The content of a section whose first lines are blank is that of the rest. -/
theorem content_append (xs ys : List (List Char)) :
    content (xs ++ ys) = if xs.all isBlankLine then content ys else content xs ++ ys := by
  induction xs with
  | nil => rfl
  | cons x xs ih =>
    by_cases hx : isBlankLine x = true
    · have hcons (zs : List (List Char)) : content (x :: zs) = content zs := by
        rw [content, List.dropWhile_cons_of_pos hx]
        rfl
      rw [List.cons_append, hcons, hcons, ih, List.all_cons, hx, Bool.true_and]
    · have hcons (zs : List (List Char)) : content (x :: zs) = if isHeader x then zs else x :: zs := by
        rw [content, List.dropWhile_cons_of_neg hx]
      rw [List.cons_append, hcons, hcons, List.all_cons, Bool.eq_false_iff.2 hx, Bool.false_and]
      split <;> rfl

theorem trim_dropReturn (line : List Char) : trim (dropReturn line) = trim line := by
  unfold dropReturn
  split
  · next h =>
    obtain ⟨front, rfl⟩ := List.getLast?_eq_some_iff.1 h
    have hreturn : Text.isBlank '\r' = true := by decide
    rw [List.dropLast_concat, trim, trim, trimLeft, trimLeft, List.dropWhile_append]
    split
    · next hfront => rw [List.isEmpty_iff.1 hfront, List.dropWhile_cons_of_pos hreturn]; rfl
    · rw [Text.trimRight_concat, if_pos hreturn]
  · rfl

/-! ## One section -/

def outcome (lines : List (List Char)) : Option (List Definition) :=
  (nodes (lineText (content lines)) >>= resolve).toOption

theorem toOption_bind {α β : Type} (x : Except Error α) (f : α → Except Error β) :
    (x >>= f).toOption = x.toOption.bind fun a => (f a).toOption := by
  cases x <;> rfl

theorem toOption_mapError {α : Type} (f : Error → Error) (x : Except Error α) :
    (x.mapError f).toOption = x.toOption := by
  cases x <;> rfl

theorem nodes_append_gaps (cs : List Char) {gaps gaps' : List Char} (h : ∀ c ∈ gaps, isGap c = true)
    (h' : ∀ c ∈ gaps', isGap c = true) : (nodes (cs ++ gaps)).toOption = (nodes (cs ++ gaps')).toOption :=
  toOption_nodes_eq ((endsAlike_strip .code cs h h').dropWhile isGap)

theorem outcome_of_none {lines : List (List Char)} (h : Section.ofLines? lines = none) :
    outcome lines = some [] := by
  have hcontent : content lines = [] := by
    unfold Section.ofLines? at h
    unfold content
    split at h
    · next hdrop =>
      have hdrop' : lines.dropWhile isBlankLine = [] := hdrop
      rw [hdrop']
    · split at h <;> cases h
  rw [outcome, hcontent]
  rfl

/-- The path of a section does not say what it defines. -/
theorem outcome_of_some {lines : List (List Char)} {part : Section} (h : Section.ofLines? lines = some part) :
    outcome lines = part.definitions.toOption := by
  have hbody : part.body = joinLines (content lines) := by
    unfold Section.ofLines? at h
    unfold content isHeader
    split at h
    · cases h
    · next first rest hdrop =>
      have hdrop' : lines.dropWhile isBlankLine = first :: rest := hdrop
      rw [hdrop']
      split at h <;> next hheader => cases h; simp only [hheader]; rfl
  have hnodes : (nodes (lineText (content lines))).toOption = (nodes part.body).toOption := by
    rw [hbody]
    cases hcontent : content lines with
    | nil => rfl
    | cons line rest =>
      have hgap : ∀ c ∈ ['\n'], isGap c = true := by simp [isGap]
      have hgaps := nodes_append_gaps (joinLines (line :: rest)) hgap (List.forall_mem_nil _)
      rw [lineText_eq (List.cons_ne_nil line rest), hgaps, List.append_nil]
  rw [outcome, toOption_bind, hnodes, ← toOption_bind, Section.definitions, toOption_mapError]

/-! ## Many sections -/

def together (a b : Option (List Definition)) : Option (List Definition) := do
  return (← a) ++ (← b)

def linesOutcome (lines : List (List Char)) : Option (List Definition) :=
  ((lines.splitOnP isSeparator).mapM outcome).map List.flatten

theorem toOption_mapM {α β : Type} (f : α → Except Error β) (xs : List α) :
    (xs.mapM f).toOption = xs.mapM fun x => (f x).toOption := by
  induction xs with
  | nil => rfl
  | cons x xs ih =>
    rw [List.mapM_cons, List.mapM_cons, toOption_bind]
    refine congrArg _ (funext fun a => ?_)
    rw [toOption_bind, ih]
    rfl

theorem flatten_mapM_append {α : Type} (f : α → Option (List Definition)) (xs ys : List α) :
    ((xs ++ ys).mapM f).map List.flatten =
      together ((xs.mapM f).map List.flatten) ((ys.mapM f).map List.flatten) := by
  rw [List.mapM_append]
  cases xs.mapM f with
  | none => rfl
  | some as => cases ys.mapM f <;> simp [together]

theorem flatten_mapM_singleton {α : Type} (f : α → Option (List Definition)) (x : α) :
    ([x].mapM f).map List.flatten = f x := by
  cases h : f x <;> simp [h]

theorem toOption_definitions (text : String) :
    (definitions text).toOption = linesOutcome (textLines text.toList) := by
  have hparts : (definitions text).toOption =
      ((sections text).mapM fun part : Section => part.definitions.toOption).map List.flatten := by
    rw [definitions, toOption_bind, toOption_mapM, Option.map_eq_bind]
    rfl
  rw [hparts, sections, linesOutcome]
  induction (textLines text.toList).splitOnP isSeparator with
  | nil => rfl
  | cons group groups ih =>
    rw [← List.singleton_append, flatten_mapM_append, flatten_mapM_singleton, ← ih, List.filterMap_append,
      flatten_mapM_append]
    congr 1
    cases hgroup : Section.ofLines? group with
    | none => simp [hgroup, outcome_of_none hgroup]
    | some part => rw [List.filterMap_cons_some hgroup, outcome_of_some hgroup, List.filterMap_nil,
        flatten_mapM_singleton]

theorem linesOutcome_of_forall {lines : List (List Char)} (h : ∀ line ∈ lines, isSeparator line = false) :
    linesOutcome lines = outcome lines := by
  rw [linesOutcome, List.splitOnP_eq_singleton h, flatten_mapM_singleton]

/-- A separator keeps the definitions before it and after it apart. -/
theorem linesOutcome_append {xs ys : List (List Char)} {separator : List Char} (h : isSeparator separator = true) :
    linesOutcome (xs ++ separator :: ys) = together (linesOutcome xs) (linesOutcome ys) := by
  rw [linesOutcome, List.splitOnP_append_cons xs ys h, flatten_mapM_append]
  rfl

/-- Induction along the places where a list is split. -/
@[elab_as_elim]
theorem split_induction {α : Type} (p : α → Bool) {motive : List α → Prop}
    (single : ∀ part, (∀ x ∈ part, p x = false) → motive part)
    (append : ∀ part separator rest, (∀ x ∈ part, p x = false) → p separator = true → motive rest →
      motive (part ++ separator :: rest))
    (xs : List α) : motive xs := by
  suffices hall : ∀ front, (∀ x ∈ front, p x = false) → motive (front ++ xs) from hall [] (by simp)
  induction xs with
  | nil =>
    intro front hfront
    rw [List.append_nil]
    exact single front hfront
  | cons x xs ih =>
    intro front hfront
    cases hx : p x with
    | true => exact append front x xs hfront hx (ih [] (by simp))
    | false =>
      rw [List.append_cons]
      refine ih (front ++ [x]) fun y hy => ?_
      rcases List.mem_append.1 hy with hy | hy
      · exact hfront y hy
      · rw [List.mem_singleton.1 hy, hx]

/-! ## The last lines -/

/-- Lines whose texts differ at most in the gaps at their ends. -/
def LinesAlike (xs ys : List (List Char)) : Prop :=
  ∃ cs gaps gaps', (∀ c ∈ gaps, isGap c = true) ∧ (∀ c ∈ gaps', isGap c = true) ∧
    lineText xs = cs ++ gaps ∧ lineText ys = cs ++ gaps'

theorem LinesAlike.refl (lines : List (List Char)) : LinesAlike lines lines :=
  ⟨lineText lines, [], [], by simp, by simp, by simp, by simp⟩

/-- The last line can be empty or not be there. -/
theorem linesAlike_empty : LinesAlike [[]] [] :=
  ⟨[], ['\n'], [], by simp [isGap], by simp, rfl, rfl⟩

/-- The last line can end with a carriage return or not. -/
theorem linesAlike_dropReturn (line : List Char) : LinesAlike [line] [dropReturn line] := by
  unfold dropReturn
  split
  · next h =>
    obtain ⟨front, rfl⟩ := List.getLast?_eq_some_iff.1 h
    exact ⟨front, ['\r', '\n'], ['\n'], by simp [isGap], by simp [isGap], by simp, by simp⟩
  · exact .refl [line]

theorem content_dropReturn (line : List Char) :
    content [line] = [] ∧ content [dropReturn line] = [] ∨
      content [line] = [line] ∧ content [dropReturn line] = [dropReturn line] := by
  have hcontent (line : List Char) :
      content [line] = if isBlankLine line || isHeader line then [] else [line] := by
    cases hblank : isBlankLine line <;> cases hheader : isHeader line <;> simp [content, hblank, hheader]
  have hblank : isBlankLine (dropReturn line) = isBlankLine line := by rw [isBlankLine, trim_dropReturn, isBlankLine]
  have hheader : isHeader (dropReturn line) = isHeader line := by rw [isHeader, trim_dropReturn, isHeader]
  rw [hcontent, hcontent, hblank, hheader]
  split
  · exact .inl ⟨rfl, rfl⟩
  · exact .inr ⟨rfl, rfl⟩

theorem outcome_append_eq {ys ys' : List (List Char)} (h : LinesAlike ys ys')
    (hcontent : LinesAlike (content ys) (content ys')) (xs : List (List Char)) :
    outcome (xs ++ ys) = outcome (xs ++ ys') := by
  have hnodes {zs zs' : List (List Char)} (h : LinesAlike zs zs') (front : List Char) :
      (nodes (front ++ lineText zs)).toOption = (nodes (front ++ lineText zs')).toOption := by
    obtain ⟨cs, gaps, gaps', hgaps, hgaps', hzs, hzs'⟩ := h
    rw [hzs, hzs', ← List.append_assoc, ← List.append_assoc]
    exact nodes_append_gaps (front ++ cs) hgaps hgaps'
  rw [outcome, outcome, toOption_bind, toOption_bind, content_append, content_append]
  split
  · exact congrArg (Option.bind · _) (hnodes hcontent [])
  · rw [lineText_append, lineText_append, hnodes h]

theorem linesOutcome_append_eq {ys ys' : List (List Char)} (h : LinesAlike ys ys')
    (hcontent : LinesAlike (content ys) (content ys')) (hys : ∀ line ∈ ys, isSeparator line = false)
    (hys' : ∀ line ∈ ys', isSeparator line = false) (xs : List (List Char)) :
    linesOutcome (xs ++ ys) = linesOutcome (xs ++ ys') := by
  induction xs using split_induction isSeparator with
  | single lines hlines =>
    rw [linesOutcome_of_forall, linesOutcome_of_forall]
    · exact outcome_append_eq h hcontent lines
    · exact fun line hline => (List.mem_append.1 hline).elim (hlines line) (hys' line)
    · exact fun line hline => (List.mem_append.1 hline).elim (hlines line) (hys line)
  | append lines separator rest _ hseparator ih =>
    rw [List.append_assoc, List.append_assoc, List.cons_append, List.cons_append,
      linesOutcome_append hseparator, linesOutcome_append hseparator, ih]

/-- An empty line at the end of a text defines nothing. -/
theorem linesOutcome_append_empty (lines : List (List Char)) :
    linesOutcome (lines ++ [[]]) = linesOutcome lines := by
  have h := linesOutcome_append_eq linesAlike_empty (.refl []) (by simp [isSeparator]) (by simp) lines
  rw [h, List.append_nil]

/-- The last line is read alike with and without a carriage return at its end. -/
theorem linesOutcome_append_dropReturn (lines : List (List Char)) (line : List Char) :
    linesOutcome (lines ++ [dropReturn line]) = linesOutcome (lines ++ [line]) := by
  have hseparator : isSeparator (dropReturn line) = isSeparator line := by
    rw [isSeparator, trim_dropReturn, isSeparator]
  cases hline : isSeparator line with
  | true => rw [linesOutcome_append (hseparator.trans hline), linesOutcome_append hline]
  | false =>
    symm
    apply linesOutcome_append_eq (linesAlike_dropReturn line)
    · rcases content_dropReturn line with ⟨hcontent, hcontent'⟩ | ⟨hcontent, hcontent'⟩
      · rw [hcontent, hcontent']
        exact .refl []
      · rw [hcontent, hcontent']
        exact linesAlike_dropReturn line
    · simpa using hline
    · simpa using hseparator.trans hline

/-! ## The lines of a text -/

theorem textLines_append (as bs : List Char) :
    textLines (as ++ '\n' :: bs) = (as.splitOn '\n').map dropReturn ++ textLines bs := by
  have hne := List.splitOn_ne_nil '\n' bs
  rw [textLines, List.splitOn_append_cons_self, List.dropLast_append_of_ne_nil hne,
    List.getLast?_append_of_ne_nil _ hne, List.map_append, List.append_assoc]
  rfl

/-- A line break after the last line does not count. -/
theorem linesOutcome_splitOn (cs : List Char) :
    linesOutcome ((cs.splitOn '\n').map dropReturn) = linesOutcome (textLines cs) := by
  unfold textLines
  dsimp only
  obtain ⟨front, last, hpieces⟩ := (List.eq_nil_or_concat _).resolve_left (List.splitOn_ne_nil '\n' cs)
  rw [hpieces, List.concat_eq_append, List.map_append, List.dropLast_concat, List.getLast?_concat]
  cases last with
  | nil =>
    change linesOutcome (front.map dropReturn ++ [[]]) = linesOutcome (front.map dropReturn ++ [])
    rw [List.append_nil]
    exact linesOutcome_append_empty (front.map dropReturn)
  | cons c line => exact linesOutcome_append_dropReturn (front.map dropReturn) (c :: line)

/-- A line that starts neither with a blank nor like a separator or a header is a document. -/
theorem toOption_definitions_of_line {c : Char} {tail : List Char} (hline : '\n' ∉ c :: tail)
    (hblank : Text.isBlank c = false) (hseparator : c ≠ '=') (hheader : c ≠ 'I') :
    (definitions (String.ofList (c :: tail))).toOption = (nodes (c :: tail) >>= resolve).toOption := by
  have hlines : textLines (c :: tail) = [c :: tail] := by
    rw [textLines, List.splitOn_eq_singleton hline]
    rfl
  have htrim : trim (c :: tail) = c :: Text.trimRight tail := by
    rw [trim, Text.trimLeft_of_head (by rintro d ⟨⟩; exact hblank)]
    exact Text.trimRight_append_cons hblank [] tail
  have hcontent : content [c :: tail] = [c :: tail] := by
    have hplain : isBlankLine (c :: tail) = false ∧ isHeader (c :: tail) = false := by
      simp [isBlankLine, isHeader, htrim, List.isPrefixOf?, hheader.symm]
    rw [content, List.dropWhile_cons_of_neg (by simp [hplain.1])]
    simp [hplain.2]
  have hnodes := nodes_append_gaps (c :: tail) (by simp [isGap] : ∀ c ∈ ['\n'], isGap c = true)
    (List.forall_mem_nil _)
  rw [List.append_nil] at hnodes
  rw [toOption_definitions, String.toList_ofList, hlines,
    linesOutcome_of_forall (by simp [isSeparator, htrim, hseparator]), outcome, hcontent, lineText_cons,
    lineText_nil, toOption_bind, hnodes, ← toOption_bind]

/-- Texts with a line of equality signs between them define what they define one after the other. -/
theorem toOption_definitions_joined {text first second : String} {separator : List Char}
    (h : isSeparator separator = true) (hline : '\n' ∉ separator)
    (htext : text.toList = first.toList ++ '\n' :: separator ++ '\n' :: second.toList) :
    (definitions text).toOption = together (definitions first).toOption (definitions second).toOption := by
  have hseparator : isSeparator (dropReturn separator) = true := by
    rwa [isSeparator, trim_dropReturn]
  rw [toOption_definitions, toOption_definitions, toOption_definitions, htext, List.append_assoc,
    List.cons_append, textLines_append, textLines_append, List.splitOn_eq_singleton hline, List.map_singleton,
    List.singleton_append, linesOutcome_append hseparator, linesOutcome_splitOn]

end RosSchema.Idl

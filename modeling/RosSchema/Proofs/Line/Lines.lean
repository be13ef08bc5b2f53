import RosSchema.Line.Block
import RosSchema.Proofs.Text.Trim

/-!
# Lines and blocks of joined texts

`lines` are the lines of a text that count. They are read off piece by piece where texts are joined by
line ends, and so are the blocks where the pieces are joined by dividers.
-/

namespace RosSchema.Line

open RosSchema.Text

def writtenLines (cs : List Char) : List (List Char) := (cs.splitOn '\n').filter (!·.isEmpty)

/-- The lines of a text that count, without the blanks around them. -/
def lines (cs : List Char) : List (List Char) := ((cs.splitOn '\n').map trim).filter isMeaningful

theorem blocks_eq (text : String) : blocks text = (lines text.toList).splitOnP isDivider := rfl

/-- The lines that count are among those that are not empty. -/
theorem lines_eq (cs : List Char) : lines cs = ((writtenLines cs).map trim).filter isMeaningful := by
  have hempty : ∀ line : List Char, isMeaningful (trim line) = true → (!line.isEmpty) = true := by
    intro line hline
    cases line with
    | nil => exact absurd hline (by decide)
    | cons c line => rfl
  rw [lines, writtenLines, List.filter_map, List.filter_map, List.filter_filter]
  refine congrArg (List.map trim) (List.filter_congr fun line _ => ?_)
  rw [Bool.eq_iff_iff, Bool.and_eq_true]
  exact ⟨fun h => ⟨h, hempty line h⟩, And.left⟩

@[simp] theorem lines_nil : lines [] = [] := by decide

/-- The lines of two texts with a line end between them. -/
theorem writtenLines_append (as bs : List Char) :
    writtenLines (as ++ '\n' :: bs) = writtenLines as ++ writtenLines bs := by
  rw [writtenLines, List.splitOn_append_cons_self, List.filter_append]
  rfl

theorem lines_append (as bs : List Char) : lines (as ++ '\n' :: bs) = lines as ++ lines bs := by
  rw [lines_eq, writtenLines_append, List.map_append, List.filter_append, ← lines_eq, ← lines_eq]

/-- A text without a line end is one line, if it counts. -/
theorem lines_of_not_mem {cs : List Char} (h : '\n' ∉ cs) :
    lines cs = if isMeaningful (trim cs) then [trim cs] else [] := by
  rw [lines, List.splitOn_eq_singleton h]
  simp only [List.map_cons, List.map_nil, List.filter_cons, List.filter_nil]

section Ends

variable {pieces : List Char → List (List Char)}
  (happend : ∀ as bs, pieces (as ++ '\n' :: bs) = pieces as ++ pieces bs)
include happend

/-- A text of lines with their ends has the lines of each of them. -/
theorem pieces_flatMap {α : Type} (f : α → List Char) (xs : List α) (cs : List Char) :
    pieces (xs.flatMap (fun x => f x ++ ['\n']) ++ cs) = xs.flatMap (pieces ∘ f) ++ pieces cs := by
  induction xs with
  | nil => rfl
  | cons x xs ih =>
    rw [List.flatMap_cons, List.flatMap_cons, List.append_assoc, List.append_assoc, List.append_assoc,
      ← ih, List.singleton_append, happend]
    rfl

end Ends

theorem trimmed_of_mem_lines {cs line : List Char} (h : line ∈ lines cs) : Trimmed line := by
  obtain ⟨raw, -, rfl⟩ := List.mem_map.1 (List.mem_filter.1 h).1
  exact trimmed_trim raw

theorem not_mem_of_mem_splitOn {cs piece : List Char} {c : Char} (h : piece ∈ cs.splitOn c) :
    c ∉ piece := by
  rw [List.splitOn_eq_splitOnP] at h
  induction cs generalizing piece with
  | nil => simp_all
  | cons d cs ih =>
    rw [List.splitOnP_cons_eq_if_modifyHead] at h
    split at h
    · rcases List.mem_cons.1 h with rfl | h
      · simp
      · exact ih h
    · next hd =>
      cases hs : cs.splitOnP (· == c) with
      | nil => exact (List.splitOnP_ne_nil _ _ hs).elim
      | cons first others =>
        rw [hs, List.modifyHead_cons] at h
        rcases List.mem_cons.1 h with rfl | h
        · intro hmem
          rcases List.mem_cons.1 hmem with rfl | hmem
          · simp at hd
          · exact ih (hs ▸ List.mem_cons_self) hmem
        · exact ih (hs ▸ List.mem_cons_of_mem _ h)

theorem newline_not_mem_of_mem_lines {cs line : List Char} (h : line ∈ lines cs) : '\n' ∉ line := by
  obtain ⟨raw, hraw, rfl⟩ := List.mem_map.1 (List.mem_filter.1 h).1
  exact fun hmem => not_mem_of_mem_splitOn hraw (trim_subset raw hmem)

/-! ## Blocks -/

section Blocks

variable {p : List Char → Bool}

/-- Blocks without bars, each after one, follow the blocks before them. -/
theorem splitOnP_append_flatMap {α : Type} {bar : List Char} (hbar : p bar = true)
    (f : α → List (List Char)) (first : List (List Char)) (xs : List α)
    (h : ∀ x ∈ xs, ∀ line ∈ f x, p line = false) :
    (first ++ xs.flatMap (fun x => bar :: f x)).splitOnP p = first.splitOnP p ++ xs.map f := by
  induction xs generalizing first with
  | nil => simp
  | cons x xs ih =>
    have hx : (f x).splitOnP p = [f x] := List.splitOnP_eq_singleton (h x List.mem_cons_self)
    have hxs := ih (f x) fun y hy => h y (List.mem_cons_of_mem _ hy)
    rw [List.flatMap_cons, List.cons_append, List.splitOnP_append_cons _ _ hbar, hxs, hx]
    simp

/-- All blocks of a list together have what is no bar. -/
theorem flatten_splitOnP (xs : List (List Char)) : (xs.splitOnP p).flatten = xs.filter (!p ·) := by
  induction xs with
  | nil => simp
  | cons x xs ih =>
    rw [List.splitOnP_cons_eq_if_modifyHead]
    split
    · next hx =>
      rw [List.filter_cons_of_neg (by simp [hx]), ← ih]
      rfl
    · next hx =>
      cases hs : xs.splitOnP p with
      | nil => exact (List.splitOnP_ne_nil _ _ hs).elim
      | cons first others =>
        rw [List.filter_cons_of_pos (by simpa using hx), ← ih, hs]
        rfl

/-- The lines of a block are lines of the whole. -/
theorem mem_of_mem_splitOnP {xs block : List (List Char)} {line : List Char}
    (hblock : block ∈ xs.splitOnP p) (h : line ∈ block) : line ∈ xs := by
  have hmem : line ∈ (xs.splitOnP p).flatten := List.mem_flatten_of_mem hblock h
  rw [flatten_splitOnP] at hmem
  exact (List.mem_filter.1 hmem).1

end Blocks

end RosSchema.Line

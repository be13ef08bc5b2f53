import RosSchema.Proofs.Bundle.Gather
import RosSchema.Proofs.Line.Header
import RosSchema.Proofs.Resolution

/-!
# What bundles are made of

Full names are words, so the header of every text in a bundle is a line that gives its name. The blocks
of a bundle are those of its root and one for each text that was found.
-/

namespace RosSchema

open Line (Grammar headerMark headerLine lines blocks isDivider)
open Line.Ros2 (isTypePart)
open Reader (Word)

/-! ## Full names -/

def keepingOf (d : Dialect) : Options := { Options.ofDialect d with keepTypes := true }

/-- A written type refers to the full name that any package gives to it. -/
theorem refersTo_qualify (d : Dialect) (package type : String) :
    refersTo type (qualify d package type) = true := by
  unfold qualify
  split
  · exact refersTo_self type
  · split
    · next h =>
      simp only [Bool.and_eq_true, beq_iff_eq] at h
      rw [h.1]
      decide
    · exact refersTo_iff.2 (.inr ⟨package.toList, by simp [toString]⟩)

theorem word_qualify {package type : String} (d : Dialect)
    (hpackage : ∀ c ∈ package.toList, isTypePart c = true) (htype : Word isTypePart type.toList) :
    Word isTypePart (qualify d package type).toList := by
  unfold qualify
  split
  · exact htype
  · split
    · exact Reader.word_of_all (by decide) (by decide)
    · have heq : (s!"{package}/{type}").toList = package.toList ++ '/' :: type.toList := by
        simp [toString]
      rw [heq]
      refine ⟨by simp, ?_⟩
      intro c hc
      rcases List.mem_append.1 hc with hc | hc
      · exact hpackage c hc
      · rcases List.mem_cons.1 hc with rfl | hc
        · decide
        · exact htype.all c hc

theorem isTypePart_of_mem_packageOf {name : String} (h : Word isTypePart name.toList) :
    ∀ c ∈ (packageOf name).toList, isTypePart c = true := by
  intro c hc
  rw [packageOf, String.toList_ofList] at hc
  exact h.all c (List.IsPrefix.subset (List.takeWhile_prefix _) hc)

/-! ## Texts in lines -/

theorem exists_grammar {d : Dialect} (h : d.isLineOriented = true) :
    ∃ g : Grammar, g.Sound ∧ ∀ text, parseLines text d = g.definitions text := by
  cases d with
  | ros1 => exact ⟨Line.ros1, Line.sound_ros1, fun _ => rfl⟩
  | ros2 => exact ⟨Line.ros2, Line.sound_ros2, fun _ => rfl⟩
  | idl => cases h

theorem parse_keepingOf {d : Dialect} (h : d.isLineOriented = true) (text : String) :
    parse text (keepingOf d) = parseLines text d := by
  cases d with
  | ros1 => exact bind_pure _
  | ros2 => exact bind_pure _
  | idl => cases h

theorem parse_ofDialect {d : Dialect} (h : d.isLineOriented = true) (text : String) :
    parse text (Options.ofDialect d) = parseLines text d >>= resolveReferences := by
  cases d with
  | ros1 => rfl
  | ros2 => rfl
  | idl => cases h

/-- The definitions of a text have words for the types of their fields and primitive constants. -/
theorem field_of_definitions {g : Grammar} (s : g.Sound) {text : String} {defs : List Definition}
    (h : g.definitions text = .ok defs) {e : Definition} (he : e ∈ defs) {f : Field}
    (hf : f ∈ e.fields) :
    Word isTypePart f.type.toList ∧ (f.isConstant = true → f.isComplex = false) := by
  obtain ⟨block, -, hblock⟩ := Steps.exists_of_mem_right (Steps.mapM_eq_ok_iff.1 h) he
  obtain ⟨line, -, hline⟩ :=
    Steps.exists_of_mem_right (Line.Grammar.definition_eq_ok.1 hblock).2 hf
  exact ⟨s.typed hline, s.primitive hline⟩

theorem mem_referencedTypes {defs : List Definition} {type : String} :
    type ∈ referencedTypes defs ↔ ∃ e ∈ defs, ∃ f ∈ e.fields,
      f.isConstant = false ∧ f.isComplex = true ∧ f.type = type := by
  simp only [referencedTypes, List.mem_eraseDups, List.mem_map, List.mem_flatMap, List.mem_filter,
    Definition.variableFields, Bool.not_eq_true']
  constructor
  · rintro ⟨f, ⟨e, he, ⟨hf, hv⟩, hc⟩, rfl⟩
    exact ⟨e, he, f, hf, hv, hc, rfl⟩
  · rintro ⟨e, he, f, hf, hv, hc, rfl⟩
    exact ⟨f, ⟨e, he, ⟨hf, hv⟩, hc⟩, rfl⟩

/-- The names that a text needs are the full names of its references, which are words. -/
theorem neededTypes_eq_ok {d : Dialect} (hd : d.isLineOriented = true) {package text : String}
    {needed : List String} (h : neededTypes d package text = .ok needed) :
    ∃ defs, parse text (keepingOf d) = .ok defs ∧
      (∀ e ∈ defs, ∀ f ∈ e.fields, f.isComplex = true → qualify d package f.type ∈ needed) ∧
      ((∀ c ∈ package.toList, isTypePart c = true) →
        ∀ name ∈ needed, Word isTypePart name.toList) := by
  obtain ⟨defs, hdefs, hneeded⟩ := Steps.bind_eq_ok.1 h
  cases hneeded
  obtain ⟨g, s, hg⟩ := exists_grammar hd
  have hread : g.definitions text = .ok defs := by
    rw [← hg, ← parse_keepingOf hd]
    exact hdefs
  refine ⟨defs, hdefs, ?_, ?_⟩
  · intro e he f hf hc
    have hv : f.isConstant = false := by
      by_contra hv
      have := (field_of_definitions s hread he hf).2 (by simpa using hv)
      simp [this] at hc
    exact List.mem_map_of_mem (mem_referencedTypes.2 ⟨e, he, f, hf, hv, hc, rfl⟩)
  · intro hpackage name hname
    obtain ⟨type, htype, rfl⟩ := List.mem_map.1 hname
    obtain ⟨e, he, f, hf, -, -, rfl⟩ := mem_referencedTypes.1 htype
    exact word_qualify d hpackage (field_of_definitions s hread he hf).1

/-! ## The text of a bundle -/

/-- A text without dividers and without header lines. -/
def IsPlain (text : String) : Prop :=
  ∀ line ∈ lines text.toList, isDivider line = false ∧ ¬ headerMark <+: line

instance (text : String) : Decidable (IsPlain text) :=
  inferInstanceAs (Decidable (∀ line ∈ lines text.toList, _))

theorem blocks_of_isPlain {text : String} (h : IsPlain text) : blocks text = [lines text.toList] :=
  List.splitOnP_eq_singleton fun line hline => (h line hline).1

/-- A plain text is one definition. -/
theorem exists_definition_of_isPlain {g : Grammar} {text : String} (hplain : IsPlain text)
    {defs : List Definition} (h : g.definitions text = .ok defs) :
    ∃ e, defs = [e] ∧ g.definition (lines text.toList) = .ok e := by
  rw [Grammar.definitions, blocks_of_isPlain hplain, Steps.mapM_eq_ok_iff] at h
  obtain ⟨e, others, he, hnil, rfl⟩ := List.forall₂_cons_left_iff.1 h
  obtain rfl := List.forall₂_nil_left_iff.1 hnil
  exact ⟨e, rfl, he⟩

theorem isDivider_divider : isDivider divider = true := by decide

theorem lines_divider : lines divider = [divider] := by decide

theorem lines_headerLine {name : List Char} (h : Word isTypePart name) :
    lines (headerLine name) = [headerLine name] := by
  have hall : ∀ c ∈ name, Text.isBlank c = false := fun c hc =>
    Line.Ros2.isBlank_eq_false_of_isTypePart (h.all c hc)
  have hnewline : '\n' ∉ headerLine name := by
    intro hm
    rcases List.mem_append.1 hm with hm | hm
    · revert hm
      decide
    · exact absurd (h.all _ hm) (by decide)
  have htrim : Text.trim (headerLine name) = headerLine name := by
    refine Text.Trimmed.trim_eq ⟨by simp [headerLine]; decide, ?_⟩
    intro c hc
    rw [headerLine, List.getLast?_append_of_ne_nil _ h.ne_nil] at hc
    exact hall c (List.mem_of_getLast? hc)
  rw [Line.lines_of_not_mem hnewline, htrim]
  rfl

theorem lines_bundleText {root : String} {texts : List (String × String)}
    (hname : ∀ entry ∈ texts, Word isTypePart entry.1.toList) :
    lines (bundleText root texts).toList = lines root.toList ++
      texts.flatMap fun entry => divider :: headerLine entry.1.toList :: lines entry.2.toList := by
  rw [bundleText, String.toList_ofList, Line.lines_append]
  congr 1
  rw [← List.append_nil (texts.flatMap _), Line.pieces_flatMap Line.lines_append, Line.lines_nil, List.append_nil]
  refine List.flatMap_congr fun entry hentry => ?_
  have happend : divider ++ '\n' :: "MSG: ".toList ++ entry.1.toList ++ '\n' :: entry.2.toList =
      divider ++ '\n' :: (headerLine entry.1.toList ++ '\n' :: entry.2.toList) := by
    simp [headerLine]
  rw [Function.comp_apply, happend, Line.lines_append, Line.lines_append, lines_divider,
    lines_headerLine (hname entry hentry)]
  rfl

/-- Every text of a bundle but the root is a block under a header with its name. -/
theorem blocks_bundleText {root : String} {texts : List (String × String)}
    (hname : ∀ entry ∈ texts, Word isTypePart entry.1.toList)
    (hplain : ∀ entry ∈ texts, IsPlain entry.2) :
    blocks (bundleText root texts) =
      blocks root ++ texts.map fun entry => headerLine entry.1.toList :: lines entry.2.toList := by
  rw [Line.blocks_eq, lines_bundleText hname, Line.splitOnP_append_flatMap isDivider_divider]
  · rfl
  · intro entry hentry line hline
    rcases List.mem_cons.1 hline with rfl | hline
    · rfl
    · exact (hplain entry hentry line hline).1

end RosSchema

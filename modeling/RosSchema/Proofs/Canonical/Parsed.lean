import RosSchema.Proofs.Canonical.Reading
import RosSchema.Proofs.Line.CanonicalLine
import RosSchema.Proofs.Line.Derived
import RosSchema.Schema

/-!
# Definitions parsed from lines

Whatever the options, the definitions that are parsed from a text in lines have fields that the grammar
of the dialect derives and names that its headers give. Resolution keeps both.
-/

namespace RosSchema

open Line (Grammar OneWord TypeName headerMark)
open Text (trim isBlank)

/-! ## Parsing and resolution -/

/-- A text in lines is read line by line, and its references are resolved unless types are kept. -/
theorem parse_eq_ok {o : Options} (ho : o.dialect.isLineOriented = true) {text : String}
    {defs : List Definition} : parse text o = .ok defs ↔ ∃ raw, parseLines text o.dialect = .ok raw ∧
      if o.keepTypes then defs = raw else resolveReferences raw = .ok defs := by
  rw [parse, if_pos ho, Steps.bind_eq_ok]
  refine exists_congr fun raw => and_congr_right fun _ => ?_
  split
  · exact ⟨fun h => (Except.ok.inj h).symm, fun h => congrArg _ h.symm⟩
  · rfl

/-- A text in lines has at least one definition. -/
theorem exists_first_of_parse {o : Options} (ho : o.dialect.isLineOriented = true) {text : String}
    {defs : List Definition} (h : parse text o = .ok defs) : ∃ first others, defs = first :: others := by
  obtain ⟨raw, hraw, hdefs⟩ := (parse_eq_ok ho).1 h
  have hg : ∃ g : Grammar, g.definitions text = .ok raw := by
    cases hd : o.dialect with
    | ros1 => exact ⟨Line.ros1, by rwa [hd] at hraw⟩
    | ros2 => exact ⟨Line.ros2, by rwa [hd] at hraw⟩
    | idl =>
      rw [hd] at ho
      cases ho
  obtain ⟨g, hg⟩ := hg
  have hblocks : (Line.blocks text).length = raw.length := (Steps.mapM_eq_ok_iff.1 hg).length_eq
  have hraw_ne : raw ≠ [] := by
    rintro rfl
    exact List.splitOnP_ne_nil _ _ (List.length_eq_zero_iff.1 hblocks)
  have hlength : defs.length = raw.length := by
    split at hdefs
    · rw [hdefs]
    · exact (resolveReferences_eq_ok.1 hdefs).length_eq.symm
  cases defs with
  | nil => exact absurd (List.length_eq_zero_iff.1 hlength.symm) hraw_ne
  | cons first others => exact ⟨first, others, rfl⟩

/-- What resolution keeps of every field and every name holds of what is parsed. -/
theorem forall_of_parse {o : Options} (ho : o.dialect.isLineOriented = true) (field : Field → Prop)
    (name : String → Prop) (hresolve : ∀ names f g, (∀ n ∈ names, n = "" ∨ name n) → field f →
      f.resolve names = .ok g → field g)
    (hlines : ∀ text raw, parseLines text o.dialect = .ok raw →
      ∀ d ∈ raw, (∀ f ∈ d.fields, field f) ∧ ∀ n ∈ d.name, name n)
    {text : String} {defs : List Definition} (h : parse text o = .ok defs) :
    ∀ d ∈ defs, (∀ f ∈ d.fields, field f) ∧ ∀ n ∈ d.name, name n := by
  obtain ⟨raw, hraw, h⟩ := (parse_eq_ok ho).1 h
  have hd := hlines text raw hraw
  split at h
  · subst h
    exact hd
  · have hnames : ∀ n ∈ referenceNames raw, n = "" ∨ name n := by
      intro n hn
      obtain ⟨d, hmem, rfl⟩ := List.mem_map.1 hn
      cases hname : d.name with
      | none => exact .inl rfl
      | some n => exact .inr ((hd d hmem).2 n hname)
    intro e he
    obtain ⟨d, hmem, hde⟩ := Steps.exists_of_mem_right (resolveReferences_eq_ok.1 h) he
    obtain ⟨hname, hfields⟩ := Definition.resolve_eq_ok.1 hde
    refine ⟨fun g hg => ?_, fun n hn => (hd d hmem).2 n (hname ▸ hn)⟩
    obtain ⟨f, hf, hfg⟩ := Steps.exists_of_mem_right hfields hg
    exact hresolve _ f g hnames ((hd d hmem).1 f hf) hfg

/-! ## Headers of ROS 1 -/

namespace Line.Ros1

structure IsName (name : String) : Prop where
  ne_empty : name ≠ ""
  newline : '\n' ∉ name.toList
  noBlank : NoBlank name.toList
  mark : '#' ∉ name.toList

theorem IsName.oneWord {name : String} (h : IsName name) : OneWord name.toList :=
  ⟨fun hm => absurd (h.noBlank _ hm) (by decide), h.newline⟩

theorem isName_of_header? {line : List Char} {name : String} (hline : '\n' ∉ line)
    (h : header? line = some (some name)) : IsName name := by
  obtain ⟨blanks, rest, rfl, -, hword, -⟩ := header?_eq_some.1 h
  refine ⟨fun hempty => hword.ne_nil (by rw [hempty]; rfl), fun hm => hline ?_, fun c hc => ?_, fun hm => ?_⟩
  · simp [hm]
  · exact (isNameChar_eq_true.1 (hword.all c hc)).1
  · exact (isNameChar_eq_true.1 (hword.all _ hm)).2 rfl

/-- The header of a definition gives its name, or takes it away if it has none. -/
theorem header?_trim_headerRow {d : Definition} (h : ∀ name ∈ d.name, IsName name) :
    header? (trim d.headerRow) = some d.name := by
  cases hname : d.name with
  | none =>
    have hrow : trim d.headerRow = headerMark := by
      rw [Definition.headerRow, hname]
      decide
    rw [hrow]
    rfl
  | some name =>
    have hn := h name hname
    obtain ⟨c, cs, hcs⟩ := List.exists_cons_of_ne_nil (l := name.toList) fun hnil =>
      hn.ne_empty (String.toList_inj.1 hnil)
    have hblank : ∀ e ∈ c :: cs, isBlank e = false := fun e he => hn.noBlank e (hcs ▸ he)
    have hrow : trim d.headerRow = headerMark ++ ' ' :: name.toList := by
      rw [Definition.headerRow, hname, Option.getD_some, Ros2.trim_headerLine, hcs]
      congr 1
      refine Text.trimRight_of_last fun e he => ?_
      rw [List.getLast?_cons_cons] at he
      exact hblank e (List.mem_of_getLast? he)
    have hword : Reader.Word isNameChar name.toList := ⟨by rw [hcs]; exact List.cons_ne_nil c cs, fun e he =>
      isNameChar_eq_true.2 ⟨hn.noBlank e he, fun hmark => hn.mark (hmark ▸ he)⟩⟩
    refine header?_eq_some.2 ⟨[' '], [], ?_, by simp; decide, hword, by simp⟩
    rw [hrow, List.append_nil]
    rfl

structure IsDerived (d : Definition) : Prop where
  field : ∀ f ∈ d.fields, Derived f
  name : ∀ name ∈ d.name, IsName name

theorem IsDerived.inLines {d : Definition} (h : IsDerived d) : d.InLines Derived.readText :=
  ⟨fun f hf => (h.field f hf).inLine, fun name hname =>
    ⟨(h.name name hname).ne_empty, (h.name name hname).oneWord⟩⟩

theorem isDerived_of_definitions {text : String} {defs : List Definition}
    (h : ros1.definitions text = .ok defs) :
    ∀ d ∈ defs, IsDerived d ∧ ∀ f ∈ d.fields, IsWord f.type.toList := by
  intro d hd
  obtain ⟨hfields, hnames⟩ := Grammar.exists_line_of_definitions h hd
  have hderived (f : Field) (hf : f ∈ d.fields) : Derived f ∧ IsWord f.type.toList := by
    obtain ⟨line, htrim, hline, hread⟩ := hfields f hf
    exact derived_of_field htrim hline hread
  refine ⟨⟨fun f hf => (hderived f hf).1, fun name hname => ?_⟩, fun f hf => (hderived f hf).2⟩
  obtain ⟨line, hline, hheader⟩ := hnames name hname
  exact isName_of_header? hline hheader

theorem isDerived_of_parse {o : Options} (ho : o.dialect = .ros1) {text : String} {defs : List Definition}
    (h : parse text o = .ok defs) : ∀ d ∈ defs, IsDerived d := by
  have hall := forall_of_parse (by rw [ho]; rfl) Derived IsName ?_ ?_ h
  · exact fun d hd => ⟨(hall d hd).1, (hall d hd).2⟩
  · intro names f g hnames hf hfg
    refine hf.resolve (fun name hname => ?_) hfg
    rcases hnames name hname with rfl | hn
    · exact ⟨⟨by decide, by decide⟩, fun c hc => by cases hc⟩
    · exact ⟨hn.oneWord, hn.noBlank⟩
  · intro text raw hraw d hd
    rw [ho] at hraw
    obtain ⟨hderived, -⟩ := isDerived_of_definitions hraw d hd
    exact ⟨hderived.field, hderived.name⟩

end Line.Ros1

/-! ## Definitions of ROS 2 -/

namespace Line.Ros2

def IsDeclared (f : Field) : Prop :=
  (∃ d bound array, Declared d bound array f) ∧ TypeName f.type.toList

theorem IsDeclared.inLine {f : Field} (h : IsDeclared f) : f.InLine Declared.readString := by
  obtain ⟨⟨d, bound, array, hdeclared⟩, htype⟩ := h
  exact hdeclared.inLine htype

def IsName (name : String) : Prop := name ≠ "" ∧ OneWord name.toList

theorem isDeclared_of_parse {o : Options} (ho : o.dialect = .ros2) {text : String} {defs : List Definition}
    (h : parse text o = .ok defs) :
    ∀ d ∈ defs, (∀ f ∈ d.fields, IsDeclared f) ∧ ∀ name ∈ d.name, IsName name := by
  refine forall_of_parse (by rw [ho]; rfl) IsDeclared IsName ?_ ?_ h
  · rintro names f g hnames hf hfg
    have hwords : ∀ name ∈ names, OneWord name.toList := by
      intro name hname
      rcases hnames name hname with rfl | hn
      · exact ⟨by decide, by decide⟩
      · exact hn.2
    obtain ⟨d, bound, array, hdeclared⟩ := hf.1
    obtain ⟨d', hdeclared'⟩ := hdeclared.resolve hfg
    exact ⟨⟨d', bound, array, hdeclared'⟩, (hf.inLine.resolve hwords hfg).typeName⟩
  · intro text raw hraw d hd
    rw [ho] at hraw
    obtain ⟨hfields, hnames⟩ := Grammar.exists_line_of_definitions (g := ros2) hraw hd
    refine ⟨fun f hf => ?_, fun name hname => ?_⟩
    · obtain ⟨line, -, hline, hread⟩ := hfields f hf
      exact ⟨exists_declared_of_field hline hread, Line.typeName_of_word (word_type_of_field hread)⟩
    · obtain ⟨line, hline, hheader⟩ := hnames name hname
      obtain ⟨cs, rest, rfl, hends, -⟩ := header?_eq_some.1 hheader
      refine ⟨fun hempty => hends.ne_nil (by rw [hempty]; rfl), hends.space, fun hm => hline ?_⟩
      rw [hends.eq, headerLine]
      simp [hm]

theorem inLines_of_parse {o : Options} (ho : o.dialect = .ros2) {text : String} {defs : List Definition}
    (h : parse text o = .ok defs) : ∀ d ∈ defs, d.InLines Declared.readString := by
  intro d hd
  obtain ⟨hfields, hnames⟩ := isDeclared_of_parse ho h d hd
  exact ⟨fun f hf => (hfields f hf).inLine, hnames⟩

end Line.Ros2

/-- The definitions of a text in lines are in lines, whatever the options. -/
theorem exists_inLines {o : Options} (ho : o.dialect.isLineOriented = true) :
    ∃ read, ∀ (o' : Options) (text : String) (defs : List Definition), o'.dialect = o.dialect →
      parse text o' = .ok defs → ∀ d ∈ defs, d.InLines read := by
  cases hd : o.dialect with
  | ros1 =>
    exact ⟨Line.Ros1.Derived.readText, fun o' text defs ho' h d hmem =>
      (Line.Ros1.isDerived_of_parse ho' h d hmem).inLines⟩
  | ros2 =>
    exact ⟨Line.Ros2.Declared.readString, fun o' text defs ho' h => Line.Ros2.inLines_of_parse ho' h⟩
  | idl =>
    rw [hd] at ho
    cases ho

end RosSchema

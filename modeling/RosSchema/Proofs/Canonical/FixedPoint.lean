import RosSchema.Proofs.Bundle.Contents
import RosSchema.Proofs.Canonical.Returned

/-!
# Fixed points

The checksum of a type is stable when its canonical text is a fixed point: when it is parsed, and what is
parsed has the same canonical text. Each dialect has canonical texts that are not. A canonical text is a
fixed point exactly when every header gives its name again and every field returns, so the conditions on
it are conditions on its lines. Under them the text is parsed to the normal form of its definitions, and
every reference is resolved to the same name again.
-/

namespace RosSchema

open Line (Grammar)
open Literal (IsFinite)
open Reader (Word)
open Text (trim trimRight isBlank)

/-- A text that is parsed to definitions of which it is the canonical text. -/
def IsFixedPoint (o : Options) (text : String) : Prop :=
  ∃ defs, parse text o = .ok defs ∧ canonical defs = text

/-- A dialect in lines with its grammar: what is parsed is in lines, and the grammar keeps its fields. -/
structure Line.Grammar.IsOf (g : Grammar) (d : Dialect) (read : List Char → Option String) : Prop where
  lineOriented : d.isLineOriented = true
  parseLines : ∀ text, parseLines text d = g.definitions text
  separates : g.Separates
  inLines : ∀ {text : String} {defs : List Definition}, parse text (Options.ofDialect d) = .ok defs →
    ∀ e ∈ defs, e.InLines read
  keeps : ∀ {text : String} {defs : List Definition}, parse text (Options.ofDialect d) = .ok defs →
    ∀ e ∈ defs, ∀ f ∈ e.fields, g.Keeps f

/-! ## What a fixed point tells -/

section

variable {read : List Char → Option String} {first first' : Definition} {others others' : List Definition}

/-- Equal canonical texts have as many fields. -/
theorem length_fields_of_canonical_eq (h : ∀ d ∈ first :: others, d.InLines read)
    (h' : ∀ d ∈ first' :: others', d.InLines read)
    (heq : canonical (first :: others) = canonical (first' :: others')) :
    ((first :: others).flatMap (·.fields)).length = ((first' :: others').flatMap (·.fields)).length := by
  obtain ⟨hfirst, hothers⟩ := rows_eq_of_canonical_eq h h' heq
  have hlength (d e : Definition) (hrows : d.rows = e.rows) : d.fields.length = e.fields.length := by
    rw [← d.length_rows, hrows, e.length_rows]
  have hall : List.Forall₂ (fun d e => d.fields.length = e.fields.length) (first :: others)
      (first' :: others') :=
    .cons (hlength _ _ hfirst) (hothers.imp fun d e hde => hlength d e hde.2)
  rw [List.length_flatMap, List.length_flatMap]
  exact congrArg List.sum (Steps.map_eq_map_iff.2 hall)

/-- Resolution keeps the fields. -/
theorem length_fields_of_resolve {defs resolved : List Definition}
    (h : resolveReferences defs = .ok resolved) :
    (defs.flatMap (·.fields)).length = (resolved.flatMap (·.fields)).length := by
  have hlength := (resolveReferences_eq_ok.1 h).imp fun _ _ hde => (Definition.resolve_eq_ok.1 hde).2.length_eq
  rw [List.length_flatMap, List.length_flatMap, Steps.map_eq_map_iff.2 hlength]

variable {g : Grammar} {d : Dialect} {text : String}

/-- A fixed point is read with as many fields as it was written for. -/
theorem exists_read_of_isFixedPoint (hg : g.IsOf d read)
    (h : parse text (Options.ofDialect d) = .ok (first :: others))
    (hfixed : IsFixedPoint (Options.ofDialect d) (canonical (first :: others))) :
    ∃ raw first' others', g.definitions (canonical (first :: others)) = .ok raw ∧
      resolveReferences raw = .ok (first' :: others') ∧ (∀ e ∈ first' :: others', e.InLines read) ∧
      canonical (first :: others) = canonical (first' :: others') ∧
      (raw.flatMap (·.fields)).length = ((first :: others).flatMap (·.fields)).length := by
  obtain ⟨again, hagain, heq⟩ := hfixed
  have hline : (Options.ofDialect d).dialect.isLineOriented = true := by
    rw [Options.ofDialect, Options.dialect_withDialect, hg.lineOriented]
  obtain ⟨first', others', rfl⟩ := exists_first_of_parse hline hagain
  have hinLines := hg.inLines hagain
  rw [parse_ofDialect hg.lineOriented, hg.parseLines] at hagain
  obtain ⟨raw, hraw, hresolve⟩ := Steps.bind_eq_ok.1 hagain
  refine ⟨raw, first', others', hraw, hresolve, hinLines, heq.symm, ?_⟩
  rw [length_fields_of_resolve hresolve, length_fields_of_canonical_eq hinLines (hg.inLines h) heq]

/-- In a fixed point every header gives its name again and every field returns. -/
theorem returns_of_isFixedPoint (hg : g.IsOf d read)
    (h : parse text (Options.ofDialect d) = .ok (first :: others))
    (hfixed : IsFixedPoint (Options.ofDialect d) (canonical (first :: others))) :
    (∀ e ∈ others, g.header? (trim e.headerRow) = some e.name) ∧
      ∀ e ∈ first :: others, ∀ f ∈ e.fields, g.Returns ("" :: referenceNames others) f := by
  obtain ⟨raw, first', others', hraw, hresolve, hinLines', heq, hlength⟩ :=
    exists_read_of_isFixedPoint hg h hfixed
  have hinLines := hg.inLines h
  have hrows := isFieldLine_of_length hg.separates hinLines hraw hlength
  obtain ⟨first'', others'', rfl, ⟨hname, hreads⟩, hread⟩ :=
    (definitions_canonical_eq_ok hg.separates hinLines hrows).1 hraw
  obtain ⟨hresolveFirst, hresolveOthers⟩ := List.forall₂_cons.1 (resolveReferences_eq_ok.1 hresolve)
  obtain ⟨hrowsFirst, hrowsOthers⟩ := rows_eq_of_canonical_eq hinLines hinLines' heq
  -- both texts have the same names but for that of the first definition
  have hnames : referenceNames (first'' :: others'') = "" :: referenceNames others := by
    have hlost : first'.name = none := (Definition.resolve_eq_ok.1 hresolveFirst).1.trans hname
    have hsame : referenceNames others = referenceNames others' :=
      Steps.map_eq_map_iff.2 (hrowsOthers.imp fun _ _ hde => hde.1)
    rw [← referenceNames_of_resolve hresolve, hsame, referenceNames, List.map_cons, hlost]
    rfl
  rw [hnames] at hresolveFirst hresolveOthers
  have hall : ∀ e ∈ others, g.header? (trim e.headerRow) = some e.name ∧
      ∀ f ∈ e.fields, g.Returns ("" :: referenceNames others) f := by
    have hboth := Steps.forall₂_comp hread hresolveOthers
    have hjoined := List.Forall₂.mp (fun _ _ hde hrow => And.intro hde hrow) hboth hrowsOthers
    intro e he
    obtain ⟨e', he', ⟨e'', ⟨hheader, hreads⟩, hresolve⟩, hsame, hrows⟩ :=
      Steps.exists_of_mem_left hjoined he
    have hd := hinLines e (List.mem_cons_of_mem _ he)
    have hd' := hinLines' e' (List.mem_cons_of_mem _ he')
    refine ⟨?_, returns_of_rows_eq hd hd' (hg.keeps h e (List.mem_cons_of_mem _ he)) hreads hresolve hrows⟩
    rw [hheader, ← (Definition.resolve_eq_ok.1 hresolve).1, Definition.name_eq_of_getD_eq hd hd' hsame]
  refine ⟨fun e he => (hall e he).1, List.forall_mem_cons.2 ⟨?_, fun e he => (hall e he).2⟩⟩
  exact returns_of_rows_eq (hinLines first List.mem_cons_self) (hinLines' first' List.mem_cons_self)
    (hg.keeps h first List.mem_cons_self) hreads hresolveFirst hrowsFirst

/-- A text with such headers and such fields is parsed to the normal form of its definitions. -/
theorem parse_canonical_of_returns (hg : g.IsOf d read)
    (h : parse text (Options.ofDialect d) = .ok (first :: others))
    (hheaders : ∀ e ∈ others, g.header? (trim e.headerRow) = some e.name)
    (hreturns : ∀ e ∈ first :: others, ∀ f ∈ e.fields, g.Returns ("" :: referenceNames others) f) :
    parse (canonical (first :: others)) (Options.ofDialect d) = .ok (normalForm (first :: others)) := by
  have hrows : ∀ e ∈ first :: others, ∀ row ∈ e.rows, g.isFieldLine (trim row) = true := by
    intro e he row hrow
    obtain ⟨f, hf, rfl⟩ := List.mem_map.1 hrow
    obtain ⟨f', hf', -⟩ := hreturns e he f (Definition.mem_constantFields_append.1 hf)
    exact hg.separates.field hf'
  obtain ⟨first', hname, hreads, hresolve⟩ :=
    (exists_reads_iff none).2 (hreturns first List.mem_cons_self)
  obtain ⟨others', hothers⟩ := Steps.exists_forall₂ fun e (he : e ∈ others) =>
    (exists_reads_iff e.name).2 (hreturns e (List.mem_cons_of_mem _ he))
  have hnames : referenceNames (first' :: others') = "" :: referenceNames others := by
    have hsame : referenceNames others = referenceNames others' :=
      Steps.map_eq_map_iff.2 (hothers.imp fun _ _ he => congrArg (·.getD "") he.1.symm)
    rw [hsame, referenceNames, List.map_cons, hname]
    rfl
  have hread : g.definitions (canonical (first :: others)) = .ok (first' :: others') := by
    refine (definitions_canonical_eq_ok hg.separates (hg.inLines h) hrows).2
      ⟨first', others', rfl, ⟨hname, hreads⟩, ?_⟩
    refine List.forall₂_iff_zip.2 ⟨hothers.length_eq, fun {e e'} hmem => ?_⟩
    obtain ⟨hname, hreads, -⟩ := List.forall₂_zip hothers hmem
    exact ⟨by rw [hheaders e (List.of_mem_zip hmem).1, hname], hreads⟩
  rw [parse_ofDialect hg.lineOriented, hg.parseLines, hread, Steps.bind_eq_ok]
  refine ⟨_, rfl, resolveReferences_eq_ok.2 ?_⟩
  rw [hnames, normalForm_cons]
  refine .cons hresolve ?_
  rw [List.forall₂_map_right_iff]
  exact (hothers.imp fun _ _ he => he.2.2).flip

/-- A field whose line is read as its normal form or not at all returns exactly when the line is read and
the field does not refer to the first definition, of which the canonical text loses the name. -/
theorem returns_iff (hg : g.IsOf d read) (h : parse text (Options.ofDialect d) = .ok (first :: others))
    {e : Definition} (he : e ∈ first :: others) {f : Field} (hf : f ∈ e.fields) {readable : Prop}
    (hread : ∀ f', g.field (trim f.line) = .ok f' ↔ readable ∧ f' = f.normal) :
    g.Returns ("" :: referenceNames others) f ↔
      readable ∧ (f.isComplex = true → first.name ≠ some f.type) := by
  have hne : f.type ≠ "" := fun hempty =>
    ((hg.inLines h e he).field f hf).typeName.ne_nil (by rw [hempty]; rfl)
  rw [parse_ofDialect hg.lineOriented] at h
  obtain ⟨raw, -, hresolve⟩ := Steps.bind_eq_ok.1 h
  have hnormal := Field.resolve_normal hresolve he hf hne f.normal
  constructor
  · rintro ⟨f', hf', hresolved⟩
    obtain ⟨hr, rfl⟩ := (hread f').1 hf'
    exact ⟨hr, (hnormal.1 hresolved).1⟩
  · rintro ⟨hr, hroot⟩
    exact ⟨f.normal, (hread _).2 ⟨hr, rfl⟩, hnormal.2 ⟨hroot, rfl⟩⟩

/-- **Fixed points in lines.** A canonical text is a fixed point exactly when every header but the first
gives its name again and every field returns. It is then parsed to the normal form of its definitions. -/
theorem isFixedPoint_iff_returns (hg : g.IsOf d read)
    (h : parse text (Options.ofDialect d) = .ok (first :: others)) :
    (IsFixedPoint (Options.ofDialect d) (canonical (first :: others)) ↔
      (∀ e ∈ others, g.header? (trim e.headerRow) = some e.name) ∧
        ∀ e ∈ first :: others, ∀ f ∈ e.fields, g.Returns ("" :: referenceNames others) f) ∧
    (IsFixedPoint (Options.ofDialect d) (canonical (first :: others)) →
      parse (canonical (first :: others)) (Options.ofDialect d) = .ok (normalForm (first :: others))) := by
  have hneeds := returns_of_isFixedPoint hg h
  constructor
  · refine ⟨hneeds, fun ⟨hheaders, hreturns⟩ => ⟨normalForm (first :: others), ?_, canonical_normalForm _⟩⟩
    exact parse_canonical_of_returns hg h hheaders hreturns
  · intro hfixed
    obtain ⟨hheaders, hreturns⟩ := hneeds hfixed
    exact parse_canonical_of_returns hg h hheaders hreturns

end

/-! ## ROS 1 -/

namespace Line.Ros1

/-- A field that is parsed again from its canonical line, in a text whose first definition had a name. Its
type is a word of the grammar, its value has a literal, and it does not refer to that definition. -/
structure Stable (root : Option String) (f : Field) : Prop where
  word : IsWord f.type.toList
  finite : ∀ v ∈ f.value, IsFinite v
  not_root : f.isComplex = true → root ≠ some f.type

theorem isOf_ros1 : ros1.IsOf .ros1 Derived.readText where
  lineOriented := rfl
  parseLines _ := rfl
  separates := separates_ros1
  inLines h e he := (isDerived_of_parse rfl h e he).inLines
  keeps h e he f hf := ((isDerived_of_parse rfl h e he).field f hf).keeps

end Line.Ros1

/-- **Fixed points of ROS 1.** A canonical text is a fixed point exactly when the type of every field is
a word, every constant is finite and no field refers to the first definition. It is then parsed to the
normal form of its definitions. -/
theorem isFixedPoint_ros1_iff {text : String} {first : Definition} {others : List Definition}
    (h : parse text (Options.ofDialect .ros1) = .ok (first :: others)) :
    (IsFixedPoint (Options.ofDialect .ros1) (canonical (first :: others)) ↔
      ∀ d ∈ first :: others, ∀ f ∈ d.fields, Line.Ros1.Stable first.name f) ∧
    (IsFixedPoint (Options.ofDialect .ros1) (canonical (first :: others)) →
      parse (canonical (first :: others)) (Options.ofDialect .ros1) =
        .ok (normalForm (first :: others))) := by
  have hderived := Line.Ros1.isDerived_of_parse rfl h
  have hreturns : ∀ d ∈ first :: others, ∀ f ∈ d.fields,
      Line.ros1.Returns ("" :: referenceNames others) f ↔ Line.Ros1.Stable first.name f := by
    intro d hd f hf
    rw [returns_iff Line.Ros1.isOf_ros1 h hd hf fun e =>
      (((hderived d hd).field f hf).field_eq_ok_iff (g := e)).trans and_assoc.symm]
    exact ⟨fun ⟨⟨hword, hfinite⟩, hroot⟩ => ⟨hword, hfinite, hroot⟩,
      fun hs => ⟨⟨hs.word, hs.finite⟩, hs.not_root⟩⟩
  obtain ⟨hiff, hnormal⟩ := isFixedPoint_iff_returns Line.Ros1.isOf_ros1 h
  refine ⟨hiff.trans ⟨fun hall d hd f hf => (hreturns d hd f hf).1 (hall.2 d hd f hf), fun hall =>
    ⟨fun d hd => ?_, fun d hd f hf => (hreturns d hd f hf).2 (hall d hd f hf)⟩⟩, hnormal⟩
  exact Line.Ros1.header?_trim_headerRow (hderived d (List.mem_cons_of_mem _ hd)).name

def useOf (name : String) : List Definition :=
  [⟨none, [.variableOf name "p"]⟩, ⟨some name, [.variableOf "int8" "x"]⟩]

theorem isFixedPoint_ros1_of_point :
    parse "Point p\n===\nMSG: geometry_msgs/Point\nint8 x" (Options.ofDialect .ros1) =
      .ok (useOf "geometry_msgs/Point") ∧
    (∀ d ∈ useOf "geometry_msgs/Point", ∀ f ∈ d.fields, Line.Ros1.Stable none f) ∧
    IsFixedPoint (Options.ofDialect .ros1) (canonical (useOf "geometry_msgs/Point")) ∧
    parse (canonical (useOf "geometry_msgs/Point")) (Options.ofDialect .ros1) =
      .ok (normalForm (useOf "geometry_msgs/Point")) := by
  have hparse : parse "Point p\n===\nMSG: geometry_msgs/Point\nint8 x" (Options.ofDialect .ros1) =
    .ok (useOf "geometry_msgs/Point") := by decide +kernel
  have hfields : ∀ d ∈ useOf "geometry_msgs/Point", ∀ f ∈ d.fields,
      Line.Ros1.word f.type.toList = some (f.type.toList, []) ∧ f.value = none := by decide +kernel
  have hstable : ∀ d ∈ useOf "geometry_msgs/Point", ∀ f ∈ d.fields, Line.Ros1.Stable none f := by
    intro d hd f hf
    obtain ⟨hword, hvalue⟩ := hfields d hd f hf
    exact ⟨(Line.Ros1.word_eq_some hword).1, by simp [hvalue], fun _ => (Option.some_ne_none _).symm⟩
  obtain ⟨hiff, hnormal⟩ := isFixedPoint_ros1_iff hparse
  have hfixed := hiff.2 hstable
  exact ⟨hparse, hstable, hfixed, hnormal hfixed⟩

/-- A name with two slashes is no word, so the canonical text that refers to it is not parsed. -/
theorem not_isFixedPoint_ros1_of_nested :
    parse "Point p\n===\nMSG: geometry_msgs/msg/Point\nint8 x" (Options.ofDialect .ros1) =
      .ok (useOf "geometry_msgs/msg/Point") ∧
    ¬ IsFixedPoint (Options.ofDialect .ros1) (canonical (useOf "geometry_msgs/msg/Point")) := by
  refine ⟨by decide +kernel, ?_⟩
  rintro ⟨again, hagain, -⟩
  have herror : parse (canonical (useOf "geometry_msgs/msg/Point")) (Options.ofDialect .ros1) =
    .error (.malformed "line" "geometry_msgs/msg/Point p") := by decide +kernel
  rw [herror] at hagain
  cases hagain

/-! ## ROS 2 -/

namespace Line.Ros2

structure Stable (root : Option String) (f : Field) : Prop where
  survives : f.Survives
  not_root : f.isComplex = true → root ≠ some f.type

/-- A definition whose header gives its name again: it has one, with no blank at its end. -/
def IsHeaded (d : Definition) : Prop := ∃ name ∈ d.name, ∀ c ∈ name.toList.getLast?, isBlank c = false

theorem header?_trim_headerRow {d : Definition} (h : ∀ name ∈ d.name, IsName name) (hd : IsHeaded d) :
    header? (trim d.headerRow) = some d.name := by
  obtain ⟨name, hname, hlast⟩ := hd
  obtain ⟨hne, hword⟩ := h name hname
  rw [Option.mem_def] at hname
  have htrim : trimRight name.toList = name.toList := Text.trimRight_of_last hlast
  have hnil : name.toList ≠ [] := fun hnil => hne (String.toList_inj.1 hnil)
  rw [Definition.headerRow, hname, Option.getD_some, header?_trim_headerLine hword.1, htrim, if_neg hnil,
    String.ofList_toList]

/-- Only the header of a name without blanks at its end gives that name. -/
theorem isHeaded_of_header? {d : Definition} (h : ∀ name ∈ d.name, IsName name)
    (hheader : header? (trim d.headerRow) = some d.name) : IsHeaded d := by
  have hword : Line.OneWord (d.name.getD "").toList := by
    cases hname : d.name with
    | none => exact ⟨by decide, by decide⟩
    | some name => exact (h name hname).2
  rw [Definition.headerRow, header?_trim_headerLine hword.1] at hheader
  split at hheader
  · cases hheader
  · have hname := (Option.some.inj hheader).symm
    refine ⟨_, hname, fun c hc => ?_⟩
    rw [String.toList_ofList] at hc
    exact Text.last_trimRight c hc

theorem isOf_ros2 : ros2.IsOf .ros2 Declared.readString where
  lineOriented := rfl
  parseLines _ := rfl
  separates := separates_ros2
  inLines h := inLines_of_parse rfl h
  keeps h e he f hf := ((isDeclared_of_parse rfl h e he).1 f hf).keeps

end Line.Ros2

/-- **Fixed points of ROS 2.** A canonical text is a fixed point exactly when every definition but the
first has a name that its header keeps and every field returns. It is then parsed to the normal form of
its definitions. -/
theorem isFixedPoint_ros2_iff_returns {text : String} {first : Definition} {others : List Definition}
    (h : parse text (Options.ofDialect .ros2) = .ok (first :: others)) :
    (IsFixedPoint (Options.ofDialect .ros2) (canonical (first :: others)) ↔
      (∀ d ∈ others, Line.Ros2.IsHeaded d) ∧
        ∀ d ∈ first :: others, ∀ f ∈ d.fields, Line.ros2.Returns ("" :: referenceNames others) f) ∧
    (IsFixedPoint (Options.ofDialect .ros2) (canonical (first :: others)) →
      parse (canonical (first :: others)) (Options.ofDialect .ros2) =
        .ok (normalForm (first :: others))) := by
  have hnames := fun d hd => (Line.Ros2.isDeclared_of_parse rfl h d (List.mem_cons_of_mem _ hd)).2
  obtain ⟨hiff, hnormal⟩ := isFixedPoint_iff_returns Line.Ros2.isOf_ros2 h
  refine ⟨hiff.trans (and_congr_left fun _ => forall₂_congr fun d hd => ?_), hnormal⟩
  exact ⟨Line.Ros2.isHeaded_of_header? (hnames d hd), Line.Ros2.header?_trim_headerRow (hnames d hd)⟩

/-- A field whose type is a word of the grammar returns exactly when its values survive and it does not
refer to the first definition. -/
theorem Line.Ros2.returns_iff_stable {text : String} {first : Definition} {others : List Definition}
    (h : parse text (Options.ofDialect .ros2) = .ok (first :: others)) {d : Definition}
    (hd : d ∈ first :: others) {f : Field} (hf : f ∈ d.fields) (hword : Word isTypePart f.type.toList) :
    ros2.Returns ("" :: referenceNames others) f ↔ Stable first.name f := by
  obtain ⟨⟨decl, bound, array, hdeclared⟩, -⟩ := (isDeclared_of_parse rfl h d hd).1 f hf
  rw [returns_iff isOf_ros2 h hd hf fun e => hdeclared.field_eq_ok_iff_survives hword]
  exact ⟨fun ⟨hsurvives, hroot⟩ => ⟨hsurvives, hroot⟩, fun hs => ⟨hs.survives, hs.not_root⟩⟩

/-- **Fixed points of ROS 2 with words as types.** A canonical text whose types are words of the grammar
is a fixed point exactly when every definition but the first has a name that its header keeps, every value
survives and no field refers to the first definition. -/
theorem isFixedPoint_ros2_iff {text : String} {first : Definition} {others : List Definition}
    (h : parse text (Options.ofDialect .ros2) = .ok (first :: others))
    (hword : ∀ d ∈ first :: others, ∀ f ∈ d.fields, Word Line.Ros2.isTypePart f.type.toList) :
    (IsFixedPoint (Options.ofDialect .ros2) (canonical (first :: others)) ↔
      (∀ d ∈ others, Line.Ros2.IsHeaded d) ∧
        ∀ d ∈ first :: others, ∀ f ∈ d.fields, Line.Ros2.Stable first.name f) ∧
    (IsFixedPoint (Options.ofDialect .ros2) (canonical (first :: others)) →
      parse (canonical (first :: others)) (Options.ofDialect .ros2) =
        .ok (normalForm (first :: others))) := by
  obtain ⟨hiff, hnormal⟩ := isFixedPoint_ros2_iff_returns h
  refine ⟨hiff.trans (and_congr_right fun _ => forall₄_congr fun d hd f hf => ?_), hnormal⟩
  exact Line.Ros2.returns_iff_stable h hd hf (hword d hd f hf)

theorem isFixedPoint_ros2_of_point :
    parse "Point p\n===\nMSG: geometry_msgs/msg/Point\nint8 x" (Options.ofDialect .ros2) =
      .ok (useOf "geometry_msgs/msg/Point") ∧
    ((∀ d ∈ (useOf "geometry_msgs/msg/Point").tail, Line.Ros2.IsHeaded d) ∧
      ∀ d ∈ useOf "geometry_msgs/msg/Point", ∀ f ∈ d.fields, Line.Ros2.Stable none f) ∧
    IsFixedPoint (Options.ofDialect .ros2) (canonical (useOf "geometry_msgs/msg/Point")) ∧
    parse (canonical (useOf "geometry_msgs/msg/Point")) (Options.ofDialect .ros2) =
      .ok (normalForm (useOf "geometry_msgs/msg/Point")) := by
  have hparse : parse "Point p\n===\nMSG: geometry_msgs/msg/Point\nint8 x" (Options.ofDialect .ros2) =
    .ok (useOf "geometry_msgs/msg/Point") := by decide +kernel
  have hfields : ∀ d ∈ useOf "geometry_msgs/msg/Point", ∀ f ∈ d.fields,
      (f.type.toList ≠ [] ∧ f.type.toList.all Line.Ros2.isTypePart = true) ∧
        f.value = none ∧ f.defaultValue = none := by decide
  have hwords : ∀ d ∈ useOf "geometry_msgs/msg/Point", ∀ f ∈ d.fields,
      Word Line.Ros2.isTypePart f.type.toList := fun d hd f hf =>
    Reader.word_of_all (hfields d hd f hf).1.1 (hfields d hd f hf).1.2
  have hheaded : ∀ d ∈ (useOf "geometry_msgs/msg/Point").tail, Line.Ros2.IsHeaded d := by
    rw [useOf, List.tail_cons, List.forall_mem_singleton]
    exact ⟨_, rfl, by rintro c ⟨⟩; decide⟩
  have hstable : ∀ d ∈ useOf "geometry_msgs/msg/Point", ∀ f ∈ d.fields, Line.Ros2.Stable none f := by
    intro d hd f hf
    obtain ⟨-, hvalue, hdefault⟩ := hfields d hd f hf
    exact ⟨by simp [Field.Survives, hvalue, hdefault], fun _ => (Option.some_ne_none _).symm⟩
  obtain ⟨hiff, hnormal⟩ := isFixedPoint_ros2_iff hparse hwords
  have hfixed := hiff.2 ⟨hheaded, hstable⟩
  exact ⟨hparse, ⟨hheaded, hstable⟩, hfixed, hnormal hfixed⟩

/-- Where no type has a comment mark, the types of a fixed point are words. -/
theorem isFixedPoint_ros2_iff_of_noMark {text : String} {first : Definition} {others : List Definition}
    (h : parse text (Options.ofDialect .ros2) = .ok (first :: others))
    (hmark : ∀ d ∈ first :: others, ∀ f ∈ d.fields, '#' ∉ f.type.toList) :
    IsFixedPoint (Options.ofDialect .ros2) (canonical (first :: others)) ↔
      (∀ d ∈ others, Line.Ros2.IsHeaded d) ∧ ∀ d ∈ first :: others, ∀ f ∈ d.fields,
        Word Line.Ros2.isTypePart f.type.toList ∧ Line.Ros2.Stable first.name f := by
  refine (isFixedPoint_ros2_iff_returns h).1.trans
    (and_congr_right fun _ => forall₄_congr fun d hd f hf => ?_)
  have hdeclared := (Line.Ros2.isDeclared_of_parse rfl h d hd).1 f hf
  constructor
  · intro hreturns
    have hword : Word Line.Ros2.isTypePart f.type.toList := by
      by_contra hword
      exact hmark d hd f hf (Line.Ros2.mark_mem_of_returns hdeclared hreturns hword)
    exact ⟨hword, (Line.Ros2.returns_iff_stable h hd hf hword).1 hreturns⟩
  · rintro ⟨hword, hstable⟩
    exact (Line.Ros2.returns_iff_stable h hd hf hword).2 hstable

/-- A name with a hyphen is no word, so the canonical text that refers to it is not parsed. -/
theorem not_isFixedPoint_ros2_of_hyphen :
    parse "Point p\n===\nMSG: my-pkg/Point\nint8 x" (Options.ofDialect .ros2) =
      .ok (useOf "my-pkg/Point") ∧
    ¬ IsFixedPoint (Options.ofDialect .ros2) (canonical (useOf "my-pkg/Point")) := by
  have hparse : parse "Point p\n===\nMSG: my-pkg/Point\nint8 x" (Options.ofDialect .ros2) =
    .ok (useOf "my-pkg/Point") := by decide +kernel
  refine ⟨hparse, fun hfixed => ?_⟩
  have hwords := ((isFixedPoint_ros2_iff_of_noMark hparse (by decide)).1 hfixed).2
  have hword := (hwords _ List.mem_cons_self _ List.mem_cons_self).1
  exact absurd (hword.all '-' (by decide)) (by decide)

/-- A name that is itself a line with a comment is no word either, and returns. -/
example : parse (canonical (useOf "B\tp#/B")) (Options.ofDialect .ros2) = .ok (useOf "B\tp#/B") := by
  decide +kernel

/-- A definition without a name has a header in its canonical text that is none. -/
theorem not_isFixedPoint_ros2_of_unnamed :
    parse "int8 x\n===\nint8 y" (Options.ofDialect .ros2) =
      .ok [⟨none, [.variableOf "int8" "x"]⟩, ⟨none, [.variableOf "int8" "y"]⟩] ∧
    ¬ IsFixedPoint (Options.ofDialect .ros2)
      (canonical [⟨none, [.variableOf "int8" "x"]⟩, ⟨none, [.variableOf "int8" "y"]⟩]) := by
  refine ⟨by decide +kernel, ?_⟩
  rintro ⟨again, hagain, -⟩
  have herror : parse (canonical [⟨none, [.variableOf "int8" "x"]⟩, ⟨none, [.variableOf "int8" "y"]⟩])
    (Options.ofDialect .ros2) = .error (.malformed "line" "MSG:") := by decide +kernel
  rw [herror] at hagain
  cases hagain

end RosSchema

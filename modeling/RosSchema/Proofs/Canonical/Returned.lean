import RosSchema.Proofs.Canonical.Identity
import RosSchema.Proofs.Canonical.Inverse
import RosSchema.Proofs.Canonical.Resolved

/-!
# Fields that return

A field returns if its canonical line is read as a field that is resolved to its normal form. When the
rows of a definition are read and resolved to a definition with the same rows, every field of it has
returned, and in the order of the rows.
-/

namespace RosSchema

open Line (Grammar)
open Reader (Word isNamePart)
open Text (trim isBlank)

namespace Line.Grammar

/-- A field that is read from its canonical line, and resolved among some names to its normal form. -/
def Returns (g : Grammar) (names : List String) (f : Field) : Prop :=
  ∃ e, g.field (trim f.line) = .ok e ∧ e.resolve names = .ok f.normal

/-- Whatever else the canonical line of a field is read as, it is no variable in place of a constant, and
it is not resolved to a field with the same line that is not in normal form. -/
structure Keeps (g : Grammar) (f : Field) : Prop where
  constant : f.isConstant = true → ∀ e, g.field (trim f.line) = .ok e → e.isConstant = true
  normal : ∀ e, g.field (trim f.line) = .ok e → ∀ names e', e.resolve names = .ok e' →
    e'.normal = f.normal → e' = f.normal

end Line.Grammar

/-! ## Fields -/

section

variable {g : Grammar} {names : List String} {f e : Field}

theorem Field.isConstant_of_resolve (h : f.resolve names = .ok e) : e.isConstant = f.isConstant := by
  rw [resolve_eq_ok] at h
  split at h
  · obtain ⟨type, -, rfl⟩ := h
    rfl
  · rw [h]

/-- A field that is resolved to another type ends with its own after a slash. -/
theorem Field.exists_front_of_resolve (h : f.resolve names = .ok e) (hne : e.type ≠ f.type) :
    e = { f with type := e.type } ∧ ∃ front, e.type.toList = front ++ '/' :: f.type.toList := by
  rw [resolve_eq_ok] at h
  split at h
  · obtain ⟨type, htype, rfl⟩ := h
    have hmem : type ∈ names.filter (refersTo f.type) := by
      rw [resolveType_eq_ok.1 htype]
      exact List.mem_singleton_self type
    exact ⟨rfl, (refersTo_iff.1 (List.mem_filter.1 hmem).2).resolve_left hne⟩
  · exact absurd (congrArg Field.type h) hne

/-- A line that is read as the normal form of its field, if at all. -/
theorem keeps_of_normal (h : ∀ e, g.field (trim f.line) = .ok e → e = f.normal) : g.Keeps f := by
  refine ⟨fun hconstant e he => ?_, fun e he names e' hresolve hnormal => ?_⟩
  · rw [h e he, Field.isConstant_normal, hconstant]
  · rw [h e he, Field.resolve_eq_ok] at hresolve
    split at hresolve
    · obtain ⟨type, -, rfl⟩ := hresolve
      have htype : type = f.type := by simpa only [Field.type_normal] using congrArg Field.type hnormal
      rw [htype, ← Field.type_normal f]
    · exact hresolve

end

/-! ## Definitions -/

section

variable {g : Grammar} {read : List Char → Option String} {names : List String} {d e e' : Definition}

/-- A list that starts with as many elements of a class as it has. -/
theorem filter_append_filter_of_front {α : Type} {p : α → Bool} {front back : List α}
    (h : ∀ a ∈ front, p a = true) (hlength : ((front ++ back).filter p).length = front.length) :
    (front ++ back).filter p ++ (front ++ back).filter (!p ·) = front ++ back := by
  have hfront : front.filter p = front := List.filter_eq_self.2 h
  have hnone : front.filter (!p ·) = [] := List.filter_eq_nil_iff.2 (by simpa using h)
  rw [List.filter_append, hfront, List.length_append, Nat.add_eq_left, List.length_eq_zero_iff] at hlength
  have hback : back.filter (!p ·) = back :=
    List.filter_eq_self.2 (by simpa using List.filter_eq_nil_iff.1 hlength)
  rw [List.filter_append, List.filter_append, hfront, hlength, hnone, hback, List.append_nil,
    List.nil_append]

/-- Where constants are read as constants, a definition with the rows that it was read from has its
constants first. -/
theorem constantFields_append_variableFields (hnormal : d.normal.fields = e.normal.fields)
    (h : List.Forall₂ (fun f f' => f.isConstant = true → f'.isConstant = true)
      (d.constantFields ++ d.variableFields) e.fields) :
    e.constantFields ++ e.variableFields = e.fields := by
  have hcount : e.constantFields.length = d.constantFields.length := by
    have hfilter := congrArg (fun fields => (fields.filter (·.isConstant)).length) hnormal
    change d.normal.constantFields.length = e.normal.constantFields.length at hfilter
    rw [Definition.constantFields_normal, Definition.constantFields_normal, List.length_map,
      List.length_map] at hfilter
    exact hfilter.symm
  have hlength : e.fields.length = d.constantFields.length + d.variableFields.length := by
    rw [← h.length_eq, List.length_append]
  have hfront := List.forall₂_take d.constantFields.length h
  rw [List.take_left] at hfront
  have hconstant : ∀ f' ∈ e.fields.take d.constantFields.length, f'.isConstant = true := by
    intro f' hf'
    obtain ⟨f, hf, hff'⟩ := Steps.exists_of_mem_right hfront hf'
    exact hff' (List.mem_filter.1 hf).2
  have hsplit := List.take_append_drop d.constantFields.length e.fields
  rw [Definition.constantFields, Definition.variableFields, ← hsplit]
  refine filter_append_filter_of_front hconstant ?_
  rw [hsplit, List.length_take_of_le (by omega)]
  exact hcount

/-- A definition that is read from the rows of another one and resolved to one with these rows is resolved
to its fields in normal form. -/
theorem fields_eq_of_rows_eq (hd : d.InLines read) (he' : e'.InLines read) (hkeeps : ∀ f ∈ d.fields, g.Keeps f)
    (hreads : g.Reads d e) (hresolve : e.resolve names = .ok e') (hrows : d.rows = e'.rows) :
    e'.fields = d.normal.fields := by
  have hboth := Steps.forall₂_comp hreads (Definition.resolve_eq_ok.1 hresolve).2
  have hkept : List.Forall₂ (fun f f' => (f.isConstant = true → f'.isConstant = true) ∧
      (f'.normal = f.normal → f' = f.normal)) (d.constantFields ++ d.variableFields) e'.fields := by
    refine List.forall₂_iff_zip.2 ⟨hboth.length_eq, fun {f f'} hff' => ?_⟩
    have hf := hkeeps f (Definition.mem_constantFields_append.1 (List.of_mem_zip hff').1)
    obtain ⟨m, hm, hresolved⟩ := List.forall₂_zip hboth hff'
    refine ⟨fun hconstant => ?_, hf.normal m hm names f' hresolved⟩
    rw [Field.isConstant_of_resolve hresolved]
    exact hf.constant hconstant m hm
  have hnormal := Definition.fields_normal_eq_of_rows_eq hd he' hrows
  have horder := constantFields_append_variableFields hnormal (hkept.imp fun _ _ hff' => hff'.1)
  rw [Definition.normal, Definition.normal, horder] at hnormal
  rw [Definition.normal]
  rw [Steps.map_eq_map_iff] at hnormal
  rw [← List.forall₂_eq_eq_eq, List.forall₂_map_right_iff]
  exact ((hkept.mp fun _ _ hff' heq => (hff'.2 heq.symm)) hnormal).flip

/-- The fields of a definition return exactly when its rows are read as a definition that is resolved to
their normal forms. -/
theorem exists_reads_iff (name : Option String) :
    (∃ e, e.name = name ∧ g.Reads d e ∧ e.resolve names = .ok ⟨name, d.normal.fields⟩) ↔
      ∀ f ∈ d.fields, g.Returns names f := by
  constructor
  · rintro ⟨e, -, hreads, hresolve⟩ f hf
    have hboth := Steps.forall₂_comp hreads (Definition.resolve_eq_ok.1 hresolve).2
    rw [Definition.normal, List.forall₂_map_right_iff, List.forall₂_same] at hboth
    exact hboth f (Definition.mem_constantFields_append.2 hf)
  · intro h
    obtain ⟨fields, hfields⟩ := Steps.exists_forall₂ fun f (hf : f ∈ d.constantFields ++ d.variableFields) =>
      h f (Definition.mem_constantFields_append.1 hf)
    refine ⟨⟨name, fields⟩, rfl, hfields.imp fun _ _ hf => hf.1, Definition.resolve_eq_ok.2 ⟨rfl, ?_⟩⟩
    rw [Definition.normal, List.forall₂_map_right_iff]
    exact (hfields.imp fun _ _ hf => hf.2).flip

/-- Every field of a definition returns when its rows are read and resolved to a definition with the same
rows. -/
theorem returns_of_rows_eq (hd : d.InLines read) (he' : e'.InLines read) (hkeeps : ∀ f ∈ d.fields, g.Keeps f)
    (hreads : g.Reads d e) (hresolve : e.resolve names = .ok e') (hrows : d.rows = e'.rows) :
    ∀ f ∈ d.fields, g.Returns names f := by
  have hfields := fields_eq_of_rows_eq hd he' hkeeps hreads hresolve hrows
  have hname := (Definition.resolve_eq_ok.1 hresolve).1
  refine (exists_reads_iff e.name).1 ⟨e, rfl, hreads, ?_⟩
  rw [hresolve, ← hfields, ← hname]

end

/-! ## Fields of ROS 1 -/

namespace Line.Ros1

/-- The line of a derived field is read as its normal form or not at all. -/
theorem Derived.keeps {f : Field} (h : Derived f) : ros1.Keeps f :=
  keeps_of_normal fun _ he => (h.field_eq_ok_iff.1 he).2.2

end Line.Ros1

/-! ## Fields of ROS 2 -/

namespace Line.Ros2

variable {names : List String} {f e : Field}

/-- A declared field of a type that is no word is a variable without a bound and without a default. -/
theorem IsDeclared.exists_plain (h : IsDeclared f) (hword : ¬ Word isTypePart f.type.toList) :
    ∃ name array, Word isNamePart name.toList ∧ f = Field.plain f.type name none array := by
  obtain ⟨⟨d, bound, array, hdeclared⟩, -⟩ := h
  have hcomplex : isComplexType f.type = true := by
    cases hp : Primitive.ofTag? f.type with
    | none => rw [isComplexType, hp]; rfl
    | some p =>
      have htag := Primitive.foldAlias_eq_tag hp
      rw [hdeclared.folded] at htag
      rw [htag] at hword
      cases p <;> exact absurd (Reader.word_of_all (by decide) (by decide)) hword
  obtain ⟨rfl, -, -, hf⟩ := hdeclared.plain_of_isComplexType hcomplex
  refine ⟨String.ofList d.name, array, by simpa using hdeclared.name, ?_⟩
  rw [hf, Declared.plainField_eq, (Field.plain_eq ..).1]

/-- A declared field whose line is read at all is kept. -/
theorem IsDeclared.keeps (h : IsDeclared f) : ros2.Keeps f := by
  by_cases hword : Word isTypePart f.type.toList
  · obtain ⟨⟨d, bound, array, hdeclared⟩, -⟩ := h
    exact keeps_of_normal fun e he => ((hdeclared.field_eq_ok_iff_survives hword).1 he).2
  · obtain ⟨name, array, -, hf⟩ := h.exists_plain hword
    have hplain := Field.plain_eq f.type name none array
    rw [← hf] at hplain
    obtain ⟨-, -, -, -, hconstant, -, -, hdefault⟩ := hplain
    refine ⟨fun htrue => absurd htrue (by simp [hconstant]), fun e _ names e' _ hnormal => ?_⟩
    -- the line has no default that could be read with the sign of a zero
    have hvariable : e'.isConstant = false := by
      rw [← Field.isConstant_normal, hnormal, Field.isConstant_normal, hconstant]
    have hnone := congrArg Field.defaultValue hnormal
    rw [Field.normal_of_isVariable hvariable, Field.normal_of_isVariable hconstant] at hnone
    simp only [hdefault, Option.map_none, Option.map_eq_none_iff] at hnone
    rw [← hnormal, Field.normal_of_isVariable hvariable, hnone, Option.map_none, ← hnone]

/-- Nothing but blanks is left of a finished line without a comment. -/
theorem isBlank_of_isFinished {cs : List Char} (h : isFinished cs = true) (hmark : '#' ∉ cs) :
    ∀ c ∈ cs, isBlank c = true := by
  obtain ⟨blanks, hcs, hblank⟩ := Text.exists_append_trimLeft cs
  unfold isFinished at h
  split at h
  · next hnil =>
    rw [hcs, hnil, List.append_nil]
    exact hblank
  · next c rest hcons =>
    rw [beq_iff_eq] at h
    rw [hcs, hcons, h] at hmark
    exact absurd (by simp) hmark

/-- Digits and the signs around them are all that stands in the marks after a type. -/
theorem mem_marks {bound : Option (List Char)} {array : Option (ArrayMark (List Char))}
    (hbound : ∀ digits ∈ bound, Word Char.isDigit digits) (harray : MarkDigits array) :
    ∀ c ∈ boundText bound ++ markText array, c.isDigit = true ∨ c ∈ ['<', '=', '[', ']'] := by
  intro c hc
  rcases List.mem_append.1 hc with hc | hc
  · cases bound with
    | none => cases hc
    | some digits =>
      have hdigits := (hbound digits rfl).all c
      simp only [boundText, List.mem_cons] at hc ⊢
      tauto
  · rcases array with _ | (_ | digits | digits)
    · cases hc
    · simp only [markText, List.mem_cons] at hc ⊢
      tauto
    all_goals
      have hdigits := harray.all c
      simp only [markText, List.mem_cons, List.mem_append, List.cons_append] at hc ⊢
      tauto

/-- Only in the type and in the ending of a written declaration can a slash stand. -/
theorem count_slash_of_written {d : Declaration} {gap tail line : List Char} (w : d.Written gap tail line) :
    line.count '/' = d.type.count '/' + tail.count '/' := by
  have hmarks : (boundText d.bound ++ markText d.array).count '/' = 0 :=
    List.count_eq_zero.2 fun hm => absurd (mem_marks w.bound w.array _ hm) (by decide)
  have hgap : gap.count '/' = 0 := List.count_eq_zero.2 fun hm => absurd (w.gap.all _ hm) (by decide)
  have hname : d.name.count '/' = 0 := List.count_eq_zero.2 fun hm => absurd (w.name.all _ hm) (by decide)
  rw [List.count_append] at hmarks
  rw [w.eq]
  simp only [List.count_append]
  omega

theorem count_slash_trim (cs : List Char) : (trim cs).count '/' = cs.count '/' := by
  obtain ⟨front, back, hcs, hfront, hback⟩ := Text.exists_append_trim_append cs
  have hblank {blanks : List Char} (h : ∀ c ∈ blanks, isBlank c = true) : blanks.count '/' = 0 :=
    List.count_eq_zero.2 fun hm => absurd (h _ hm) (by decide)
  conv_rhs => rw [hcs, List.count_append, List.count_append, hblank hfront, hblank hback]
  omega

theorem count_slash_foldAlias (type : String) : (foldAlias type).toList.count '/' = type.toList.count '/' := by
  unfold foldAlias
  split
  · decide
  · decide
  · rfl

/-- Only a plain variable has neither a value nor a default. -/
theorem Declaration.Yields.ending_eq_nothing {d : Declaration} {bound : Option Nat}
    {array : Option (ArrayMark Nat)} (h : d.Yields bound array f) (hconstant : f.isConstant = false)
    (hdefault : f.defaultValue = none) : d.ending = .nothing ∧ f.type = d.fieldType := by
  cases h with
  | constant => cases hconstant
  | default => cases hdefault
  | plain ending => exact ⟨ending, (Field.plain_eq ..).1⟩

theorem isFinished_of_read? {cs : List Char} (h : Ending.read? cs = some .nothing) : isFinished cs = true := by
  unfold Ending.read? at h
  cases hassigned : assigned? cs with
  | some text =>
    rw [hassigned] at h
    cases h
  | none =>
    cases hdefault : default? cs with
    | some text =>
      rw [hassigned, hdefault] at h
      cases h
    | none =>
      rw [hassigned, hdefault] at h
      change (if isFinished cs then some Ending.nothing else none) = _ at h
      split at h
      · assumption
      · cases h

/-- A field that returns although its type is no word has a comment mark in its type: the type is itself
read as a line, with a comment after the name. -/
theorem mark_mem_of_returns (h : IsDeclared f) (hreturns : ros2.Returns names f)
    (hword : ¬ Word isTypePart f.type.toList) : '#' ∈ f.type.toList := by
  obtain ⟨name, array, hname, hf⟩ := h.exists_plain hword
  have hplain := Field.plain_eq f.type name none array
  rw [← hf] at hplain
  obtain ⟨-, -, -, -, hconstant, -, -, hdefault⟩ := hplain
  have hline : f.line = lineOf f.type.toList none array name.toList [] := by
    conv_lhs => rw [hf, ← Field.plain_eq_self, Field.line_variable]
    rfl
  have hself : f.normal = f := by
    rw [hf, Field.normal_of_isVariable (Field.plain_eq ..).2.2.2.2.1, (Field.plain_eq ..).2.2.2.2.2.2.2,
      Option.map_none, Field.plain_eq_self]
  obtain ⟨e, he, hresolve⟩ := hreturns
  rw [hself] at hresolve
  obtain ⟨hfe, front, hfront⟩ := Field.exists_front_of_resolve hresolve fun htype =>
    hword (htype ▸ word_type_of_field he)
  obtain ⟨d, hd, hfield⟩ := field_eq_ok.1 he
  obtain ⟨gap, tail, w⟩ := declaration_eq_some.1 hd
  obtain ⟨bound', -, array', -, -, hy⟩ := Declaration.field_eq_ok.1 hfield
  rw [hfe] at hconstant hdefault
  obtain ⟨hending, htype⟩ := hy.ending_eq_nothing hconstant hdefault
  have hfinished : isFinished tail = true := by
    have hread := w.ending
    rw [hending] at hread
    exact isFinished_of_read? hread
  by_contra hmark
  have hnot : '#' ∉ tail := by
    intro hm
    have hmem : '#' ∈ f.line := Text.trim_subset _ (by rw [w.eq]; simp [hm])
    rw [hline, lineOf, ← List.append_assoc (boundText _), List.mem_append, List.mem_append] at hmem
    rcases hmem with hm | hm | hm
    · exact hmark hm
    · exact absurd (mem_marks (by simp) (markDigits_digits array) _ hm) (by decide)
    · simp only [List.append_nil, List.singleton_append, List.mem_cons] at hm
      exact absurd (hname.all _ (hm.resolve_left (by decide))) (by decide)
  have htail : tail.count '/' = 0 :=
    List.count_eq_zero.2 fun hm => absurd (isBlank_of_isFinished hfinished hnot _ hm) (by decide)
  -- what is read has all slashes of the line in its type, and the type of the field has more
  have hread : (trim f.line).count '/' = e.type.toList.count '/' := by
    rw [count_slash_of_written w, htail, htype, Declaration.fieldType, count_slash_foldAlias,
      String.toList_ofList, Nat.add_zero]
  rw [count_slash_trim, hline, lineOf, List.count_append, hfront, List.count_append,
    List.count_cons_self] at hread
  omega

end Line.Ros2

end RosSchema

import RosSchema.Proofs.Canonical.Parsed
import RosSchema.Proofs.Validity.Documents

/-!
# Where canonical texts have line ends

In the dialects of lines no line of a canonical text has a line end inside. In documents it is only the
text of a string constant that can: a string between quotes may go on over several lines, and its text is
printed as it was written.
-/

namespace RosSchema

/-! ## Line ends inside lines -/

/-- The text that a string constant was written with stands on one line. -/
def Field.WrittenOnLine (f : Field) : Prop :=
  ∀ s text, f.value = some (.string s) → f.valueText = some text → '\n' ∉ text.toList

namespace Field

variable {f : Field}

theorem newline_not_mem_ofNat (n : Nat) : '\n' ∉ Numeral.ofNat n :=
  fun hm => absurd ((Numeral.word_ofNat n).all _ hm) (by decide)

theorem newline_not_mem_arrayMark (f : Field) : '\n' ∉ f.arrayMark := by
  unfold arrayMark
  split
  · split <;> simp [newline_not_mem_ofNat]
  · exact List.not_mem_nil

/-- The text of a constant has a line end if it is the one that a string was written with. -/
theorem newline_not_mem_constantText_iff (h : f.Valid) (hconst : f.isConstant = true) :
    '\n' ∉ f.constantText ↔ f.WrittenOnLine := by
  obtain ⟨v, hv⟩ := Option.isSome_iff_exists.1 (h.value.trans hconst)
  obtain ⟨-, -, p, -, hfits⟩ := h.constant v hv
  have hencode := Literal.newline_not_mem_encode hfits
  cases v with
  | string s =>
    cases htext : f.valueText with
    | none => simp [constantText, WrittenOnLine, hv, htext, hencode]
    | some text => simp [constantText, WrittenOnLine, hv, htext]
  | _ => simp [constantText, WrittenOnLine, hv, hencode]

theorem newline_not_mem_variableLine (h : f.Valid) (htype : '\n' ∉ f.type.toList)
    (hname : '\n' ∉ f.name.toList) : '\n' ∉ f.variableLine := by
  have hdefault : ∀ v ∈ f.defaultValue, '\n' ∉ v.encode := fun v hv => (h.default v hv).newline
  have hmark := newline_not_mem_arrayMark f
  cases hbound : f.stringBound <;> cases hvalue : f.defaultValue <;>
    simp_all [variableLine, newline_not_mem_ofNat]

/-- Only the text of a string constant can have a line end. -/
theorem newline_not_mem_line_iff (h : f.Valid) (htype : '\n' ∉ f.type.toList)
    (hname : '\n' ∉ f.name.toList) : '\n' ∉ f.line ↔ f.WrittenOnLine := by
  cases hconst : f.isConstant with
  | true =>
    rw [← newline_not_mem_constantText_iff h hconst, line, if_pos hconst]
    simp [constantLine, htype, hname]
  | false =>
    have hnone : f.value = none := by simpa [hconst] using h.value
    have hwritten : f.WrittenOnLine := fun s text hs => by simp [hnone] at hs
    rw [line, if_neg (by simp [hconst])]
    exact iff_of_true (newline_not_mem_variableLine h htype hname) hwritten

theorem InLine.writtenOnLine {read : List Char → Option String} (h : f.InLine read) : f.WrittenOnLine := by
  cases h with
  | constant type name value text bound p typeName word literal fits newline =>
    rintro s raw ⟨⟩ ⟨⟩
    rw [String.toList_ofList]
    exact newline
  | member type name bound array default =>
    intro s raw hs
    exact absurd ((plain_eq type name bound array).2.2.2.2.2.1.symm.trans hs) (by simp)

end Field

namespace Idl

theorem newline_not_mem_name {name : String} (h : name.toList.all Reader.isNamePart = true) :
    '\n' ∉ name.toList :=
  fun hm => absurd (List.all_eq_true.1 h _ hm) (by decide)

theorem newline_not_mem_joinPath {path : List String} (h : IsPath path) : '\n' ∉ (joinPath path).toList := by
  rw [joinPath, String.toList_intercalate]
  intro hm
  rcases Literal.mem_or_mem_of_mem_intercalate hm with hm | ⟨text, htext, hm⟩
  · exact absurd hm (by decide)
  · obtain ⟨name, hname, rfl⟩ := List.mem_map.1 htext
    exact newline_not_mem_name (h name hname) hm

end Idl

/-- **Line structure.** The canonical text of what is parsed is its printed lines if and only if every
string constant was written on one line, and so it always is in the dialects of lines. Of the printed
lines one is that of each field. -/
theorem isLineStructured_iff {o : Options} {text : String} {defs : List Definition}
    (h : parse text o = .ok defs) :
    (IsLineStructured defs ↔ ∀ d ∈ defs, ∀ f ∈ d.fields, f.WrittenOnLine) ∧
      (o.dialect.isLineOriented = true → IsLineStructured defs) ∧
      (printedLines defs).filterMap PrintedLine.field? =
        defs.flatMap fun d => d.constantFields ++ d.variableFields := by
  cases ho : o.dialect.isLineOriented with
  | true =>
    obtain ⟨read, hread⟩ := exists_inLines ho
    have hlines := hread o text defs rfl h
    have hstructured : IsLineStructured defs := isLineStructured_of_inLines hlines
    have hwritten : ∀ d ∈ defs, ∀ f ∈ d.fields, f.WrittenOnLine := fun d hd f hf =>
      ((hlines d hd).field f hf).writtenOnLine
    exact ⟨iff_of_true hstructured hwritten, fun _ => hstructured, filterMap_printedLines defs⟩
  | false =>
    have hlowered := Idl.isLowered_of_parse ho h
    have hname : ∀ d ∈ defs, '\n' ∉ (d.name.getD "").toList := by
      intro d hd
      obtain ⟨path, hpath, hname⟩ := (hlowered d hd).name
      rw [hname]
      exact Idl.newline_not_mem_joinPath hpath
    have hline : ∀ d ∈ defs, ∀ f ∈ d.fields, '\n' ∉ f.line ↔ f.WrittenOnLine := by
      intro d hd f hf
      have hfield := (hlowered d hd).field f hf
      exact Field.newline_not_mem_line_iff hfield.valid hfield.line (Idl.newline_not_mem_name hfield.name)
    refine ⟨?_, fun hfalse => absurd hfalse Bool.false_ne_true, filterMap_printedLines defs⟩
    rw [isLineStructured_of_name hname]
    exact forall₂_congr fun d hd => forall₂_congr fun f hf => hline d hd f hf

def labelText : String :=
  "module m \x7b module units \x7b const string METRE = \"m\"; \x7d;
  struct Label \x7b const string NONE = \"\" \"\"; string text; \x7d; \x7d;"

def labelDefinitions : List Definition := [
  ⟨some "m/units", [.constantOf "string" "METRE" (.string "m") (some "\"m\"")]⟩,
  ⟨some "m/Label", [.constantOf "string" "NONE" (.string "") none, .variableOf "string" "text"]⟩]

theorem isLineStructured_of_label :
    parse labelText (Options.ofDialect .idl) = .ok labelDefinitions ∧
    (IsLineStructured labelDefinitions ↔
      ∀ d ∈ labelDefinitions, ∀ f ∈ d.fields, f.WrittenOnLine) ∧ IsLineStructured labelDefinitions := by
  have hparse : parse labelText (Options.ofDialect .idl) = .ok labelDefinitions := by decide +kernel
  exact ⟨hparse, (isLineStructured_iff hparse).1, by decide +kernel⟩

def brokenText : String := "module m \x7b const string S = \"a\nb\"; \x7d;"

/-- Its one constant is printed on two lines. -/
theorem not_isLineStructured_of_brokenText :
    parse brokenText (Options.ofDialect .idl) =
      .ok [⟨some "m", [.constantOf "string" "S" (.string "a\nb") (some "\"a\nb\"")]⟩] ∧
    canonical [⟨some "m", [.constantOf "string" "S" (.string "a\nb") (some "\"a\nb\"")]⟩] =
      "string S = \"a\nb\"\n" ∧
    ¬ IsLineStructured [⟨some "m", [.constantOf "string" "S" (.string "a\nb") (some "\"a\nb\"")]⟩] := by
  refine ⟨?_, ?_, ?_⟩ <;> decide +kernel

end RosSchema

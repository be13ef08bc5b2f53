import RosSchema.Proofs.Canonical.NormalForm
import RosSchema.Proofs.Canonical.Parsed

/-!
# The canonical text identifies the type

The checksum of a type is taken of its canonical text. Two parsed lists of definitions have the same
canonical text exactly when they have the same normal form, so all that two texts with one checksum can
differ in is what the normal form leaves out.
-/

namespace RosSchema

/-! ## Definitions with the same rows -/

namespace Definition

variable {read : List Char → Option String} {d e : Definition}

/-- Constants and variables are told apart by their lines, and so is everything else about them. -/
theorem fields_normal_eq_of_rows_eq (hd : d.InLines read) (he : e.InLines read) (h : d.rows = e.rows) :
    d.normal.fields = e.normal.fields := by
  rw [rows, rows, Steps.map_eq_map_iff] at h
  rw [normal, normal, Steps.map_eq_map_iff]
  refine List.forall₂_iff_zip.2 ⟨h.length_eq, fun {f g} hfg => ?_⟩
  have hf := hd.field f (mem_constantFields_append.1 (List.of_mem_zip hfg).1)
  have hg := he.field g (mem_constantFields_append.1 (List.of_mem_zip hfg).2)
  exact hf.normal_eq hg (List.forall₂_zip h hfg)

/-- The name in a header tells whether there is one, since no name is empty. -/
theorem name_eq_of_getD_eq (hd : d.InLines read) (he : e.InLines read)
    (h : d.name.getD "" = e.name.getD "") : d.name = e.name := by
  cases hname : d.name with
  | none =>
    cases hname' : e.name with
    | none => rfl
    | some name' =>
      rw [hname, hname'] at h
      exact absurd h.symm (he.name name' hname').1
  | some name =>
    cases hname' : e.name with
    | none =>
      rw [hname, hname'] at h
      exact absurd h (hd.name name hname).1
    | some name' =>
      rw [hname, hname'] at h
      exact congrArg some h

end Definition

/-! ## Texts with the same canonical text -/

theorem normalForm_eq_of_canonical_eq {read : List Char → Option String} {first first' : Definition}
    {others others' : List Definition} (h : ∀ d ∈ first :: others, d.InLines read)
    (h' : ∀ d ∈ first' :: others', d.InLines read)
    (heq : canonical (first :: others) = canonical (first' :: others')) :
    normalForm (first :: others) = normalForm (first' :: others') := by
  obtain ⟨hfirst, hothers⟩ := rows_eq_of_canonical_eq h h' heq
  have hfields := Definition.fields_normal_eq_of_rows_eq (h first List.mem_cons_self)
    (h' first' List.mem_cons_self) hfirst
  have hrest : others.map Definition.normal = others'.map Definition.normal := by
    rw [Steps.map_eq_map_iff]
    refine List.forall₂_iff_zip.2 ⟨hothers.length_eq, fun {d e} hde => ?_⟩
    have hd := h d (List.mem_cons_of_mem _ (List.of_mem_zip hde).1)
    have he := h' e (List.mem_cons_of_mem _ (List.of_mem_zip hde).2)
    obtain ⟨hname, hrows⟩ := List.forall₂_zip hothers hde
    have hname := Definition.name_eq_of_getD_eq hd he hname
    have hfields := Definition.fields_normal_eq_of_rows_eq hd he hrows
    exact (Definition.mk.injEq ..).mpr ⟨hname, hfields⟩
  rw [normalForm_cons, normalForm_cons, hrest, hfields]

/-- **The canonical text identifies the type.** Two texts of one dialect in lines, each with its
references resolved or not, have one canonical text exactly when their definitions are equal up to the
name of the first one, the places of constants among variables, the bounds of constants, the texts of
constants that are no strings and the signs of zeros. -/
theorem canonical_eq_canonical_iff {o o' : Options} (ho : o.dialect.isLineOriented = true)
    (ho' : o'.dialect = o.dialect) {text text' : String} {defs defs' : List Definition}
    (h : parse text o = .ok defs) (h' : parse text' o' = .ok defs') :
    canonical defs = canonical defs' ↔ normalForm defs = normalForm defs' := by
  constructor
  · intro heq
    obtain ⟨read, hread⟩ := exists_inLines ho
    obtain ⟨first, others, rfl⟩ := exists_first_of_parse ho h
    obtain ⟨first', others', rfl⟩ := exists_first_of_parse (ho' ▸ ho) h'
    exact normalForm_eq_of_canonical_eq (hread o text _ rfl h) (hread o' text' _ ho' h') heq
  · intro heq
    rw [← canonical_normalForm defs, heq, canonical_normalForm]

def zeroLimit (zero : Binary64) (text : String) : Field :=
  .constantOf "float32" "LIMIT" (.float zero) (some text)

theorem canonical_eq_canonical_of_zeroLimit :
    parse "float32 LIMIT=0 # none\nint8 x" (Options.ofDialect .ros2) =
      .ok [⟨none, [zeroLimit (.zero false) "0", .variableOf "int8" "x"]⟩] ∧
    parse "int8 x\nfloat32 LIMIT=-0.0" (Options.ofDialect .ros2) =
      .ok [⟨none, [.variableOf "int8" "x", zeroLimit (.zero true) "-0.0"]⟩] ∧
    (canonical [⟨none, [zeroLimit (.zero false) "0", .variableOf "int8" "x"]⟩] =
        canonical [⟨none, [.variableOf "int8" "x", zeroLimit (.zero true) "-0.0"]⟩] ↔
      normalForm [⟨none, [zeroLimit (.zero false) "0", .variableOf "int8" "x"]⟩] =
        normalForm [⟨none, [.variableOf "int8" "x", zeroLimit (.zero true) "-0.0"]⟩]) := by
  have hfirst : parse "float32 LIMIT=0 # none\nint8 x" (Options.ofDialect .ros2) =
      .ok [⟨none, [zeroLimit (.zero false) "0", .variableOf "int8" "x"]⟩] := by decide +kernel
  have hsecond : parse "int8 x\nfloat32 LIMIT=-0.0" (Options.ofDialect .ros2) =
      .ok [⟨none, [.variableOf "int8" "x", zeroLimit (.zero true) "-0.0"]⟩] := by decide +kernel
  exact ⟨hfirst, hsecond, canonical_eq_canonical_iff rfl rfl hfirst hsecond⟩

end RosSchema

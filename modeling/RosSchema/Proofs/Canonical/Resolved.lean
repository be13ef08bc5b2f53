import RosSchema.Proofs.Canonical.Parsed

/-!
# Resolved fields resolved again

A resolved type refers to the one name that it is. A canonical text has the names of its definitions but
for that of the first one, so the normal form of a resolved field is resolved to itself exactly when the
field does not refer to the first definition.
-/

namespace RosSchema

/-- Without the name of the first definition a resolved type still refers to its own name, unless that
was the name. -/
theorem filter_refersTo_without_first {type : String} (hne : type ≠ "") {first : Option String}
    {names : List String} (h : (first.getD "" :: names).filter (refersTo type) = [type]) :
    ("" :: names).filter (refersTo type) = if first = some type then [] else [type] := by
  have hempty : refersTo type "" = false := by
    by_contra hrefers
    rcases refersTo_iff.1 (Bool.not_eq_false _ ▸ hrefers) with heq | ⟨front, heq⟩
    · exact hne heq.symm
    · simp at heq
  rw [List.filter_cons_of_neg (by simp [hempty])]
  cases first with
  | none =>
    rw [Option.getD_none, List.filter_cons_of_neg (by simp [hempty])] at h
    simpa using h
  | some name =>
    rw [Option.getD_some] at h
    by_cases hname : name = type
    · rw [hname, List.filter_cons_of_pos (refersTo_self type)] at h
      rw [if_pos (congrArg some hname)]
      exact (List.cons.inj h).2
    · have hother : refersTo type name = false := by
        by_contra hrefers
        rw [List.filter_cons_of_pos (by simpa using hrefers)] at h
        exact hname (List.cons.inj h).1
      rw [List.filter_cons_of_neg (by simp [hother])] at h
      rw [if_neg (by simpa using hname), h]

/-- A resolved field of definitions that have lost the name of the first one. -/
theorem Field.resolve_normal {defs others : List Definition} {first : Definition}
    (h : resolveReferences defs = .ok (first :: others)) {d : Definition} (hd : d ∈ first :: others)
    {f : Field} (hf : f ∈ d.fields) (hne : f.type ≠ "") (g : Field) :
    f.normal.resolve ("" :: referenceNames others) = .ok g ↔
      (f.isComplex = true → first.name ≠ some f.type) ∧ g = f.normal := by
  have hsame : { f.normal with type := f.type } = f.normal := by rw [← type_normal]
  rw [Field.resolve_eq_ok]
  split
  · next hc =>
    rw [isComplex_normal] at hc
    have hfilter : ("" :: referenceNames others).filter (refersTo f.type) =
        if first.name = some f.type then [] else [f.type] :=
      filter_refersTo_without_first hne (filter_refersTo_of_resolve h hd hf hc)
    rw [type_normal]
    simp only [resolveType_eq_ok, hfilter]
    constructor
    · rintro ⟨type, htype, rfl⟩
      split at htype
      · cases htype
      · next hroot =>
        obtain rfl := (List.cons.inj htype).1
        exact ⟨fun _ => hroot, hsame⟩
    · rintro ⟨hroot, rfl⟩
      exact ⟨f.type, if_neg (hroot hc), hsame.symm⟩
  · next hc =>
    rw [isComplex_normal] at hc
    exact ⟨fun hg => ⟨fun htrue => absurd htrue hc, hg⟩, fun hg => hg.2⟩

end RosSchema

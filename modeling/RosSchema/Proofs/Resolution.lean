import RosSchema.Proofs.Steps
import RosSchema.Reference

/-!
# Resolved references

A written type resolves exactly when one of the names at hand is it or ends with it after a slash.
The relation of a written type to the names it refers to is transitive, so a full name refers to no
more names than the type that it was found for.
-/

namespace RosSchema

theorem refersTo_iff {type name : String} :
    refersTo type name = true ↔ name = type ∨ ∃ front, name.toList = front ++ '/' :: type.toList := by
  simp only [refersTo, Bool.or_eq_true, beq_iff_eq, List.isSuffixOf_iff_suffix]
  exact or_congr_right ⟨fun ⟨front, h⟩ => ⟨front, h.symm⟩, fun ⟨front, h⟩ => ⟨front, h.symm⟩⟩

@[simp] theorem refersTo_self (type : String) : refersTo type type = true :=
  refersTo_iff.2 (.inl rfl)

/-- Every name that a full name refers to is one that its written form refers to. -/
theorem refersTo_trans {type name other : String} (h₁ : refersTo type name = true)
    (h₂ : refersTo name other = true) : refersTo type other = true := by
  rcases refersTo_iff.1 h₂ with rfl | ⟨back, h₂⟩
  · exact h₁
  rcases refersTo_iff.1 h₁ with rfl | ⟨front, h₁⟩
  · exact refersTo_iff.2 (.inr ⟨back, h₂⟩)
  · exact refersTo_iff.2 (.inr ⟨back ++ '/' :: front, by rw [h₂, h₁]; simp⟩)

/-- A type resolves to the only name that it refers to. -/
theorem resolveType_eq_ok {names : List String} {type name : String} :
    resolveType names type = .ok name ↔ names.filter (refersTo type) = [name] := by
  unfold resolveType
  split
  · next h => simp [h]
  · next n h => simp [h]
  · next candidates h₁ h₂ => simpa using fun h => h₂ name h

theorem resolveType_of_two {names : List String} {type : String}
    (h : 2 ≤ names.countP (refersTo type)) :
    resolveType names type = .error (.ambiguousType type (names.filter (refersTo type))) := by
  rw [List.countP_eq_length_filter] at h
  unfold resolveType
  split
  · next hf => simp [hf] at h
  · next n hf => simp [hf] at h
  · rfl

/-- A name that is referred to and is the only one is what the type resolves to. -/
theorem filter_refersTo_eq_singleton {names : List String} {type name : String}
    (hmem : name ∈ names) (href : refersTo type name = true)
    (hone : names.countP (refersTo type) ≤ 1) : names.filter (refersTo type) = [name] := by
  have hin : name ∈ names.filter (refersTo type) := List.mem_filter.2 ⟨hmem, href⟩
  rw [List.countP_eq_length_filter] at hone
  match hf : names.filter (refersTo type), hin, hone with
  | [n], hin, _ => rw [List.mem_singleton.1 hin]

theorem Field.resolve_eq_ok {names : List String} {f g : Field} :
    f.resolve names = .ok g ↔ if f.isComplex then
      ∃ type, resolveType names f.type = .ok type ∧ g = { f with type } else g = f := by
  unfold Field.resolve
  split
  · rw [Steps.bind_eq_ok]
    exact exists_congr fun type => and_congr_right fun _ => ⟨fun h => by cases h; rfl, fun h => h ▸ rfl⟩
  · exact ⟨fun h => by cases h; rfl, fun h => h ▸ rfl⟩

theorem Definition.resolve_eq_ok {names : List String} {d e : Definition} :
    d.resolve names = .ok e ↔ e.name = d.name ∧
      List.Forall₂ (fun f g => f.resolve names = .ok g) d.fields e.fields := by
  rw [Definition.resolve, Steps.bind_eq_ok]
  constructor
  · rintro ⟨fields, h, ⟨⟩⟩
    exact ⟨rfl, Steps.mapM_eq_ok_iff.1 h⟩
  · rintro ⟨hname, hfields⟩
    exact ⟨e.fields, Steps.mapM_eq_ok_iff.2 hfields, by rw [← hname]; rfl⟩

/-- A type that refers to one of the names can only fail to resolve by referring to more of them. -/
theorem resolveType_eq_error {names : List String} {type name : String} {e : Error}
    (hmem : name ∈ names) (href : refersTo type name = true) (h : resolveType names type = .error e) :
    e = .ambiguousType type (names.filter (refersTo type)) := by
  by_cases hone : names.countP (refersTo type) ≤ 1
  · rw [resolveType_eq_ok.2 (filter_refersTo_eq_singleton hmem href hone)] at h
    cases h
  · rw [resolveType_of_two (by omega)] at h
    cases h
    rfl

theorem Field.resolve_eq_error {names : List String} {f : Field} {e : Error}
    (h : f.resolve names = .error e) : f.isComplex = true ∧ resolveType names f.type = .error e := by
  unfold Field.resolve at h
  split at h
  · next hc =>
    rcases Steps.bind_eq_error.1 h with h | ⟨type, -, h⟩
    · exact ⟨hc, h⟩
    · cases h
  · cases h

/-- Resolution fails with the error of one of the references. -/
theorem resolveReferences_eq_error {defs : List Definition} {e : Error}
    (h : resolveReferences defs = .error e) : ∃ d ∈ defs, ∃ f ∈ d.fields,
      f.isComplex = true ∧ resolveType (referenceNames defs) f.type = .error e := by
  obtain ⟨before, d, after, rfl, -, hd⟩ := Steps.mapM_eq_error_iff.1 h
  rcases Steps.bind_eq_error.1 hd with hd | ⟨fields, -, hd⟩
  · obtain ⟨front, f, back, hfields, -, hf⟩ := Steps.mapM_eq_error_iff.1 hd
    exact ⟨d, by simp, f, by simp [hfields], Field.resolve_eq_error hf⟩
  · cases hd

theorem resolveReferences_eq_ok {defs resolved : List Definition} :
    resolveReferences defs = .ok resolved ↔
      List.Forall₂ (fun d e => d.resolve (referenceNames defs) = .ok e) defs resolved :=
  Steps.mapM_eq_ok_iff

/-! ## Resolved definitions -/

theorem referenceNames_of_resolve {defs resolved : List Definition}
    (h : resolveReferences defs = .ok resolved) : referenceNames resolved = referenceNames defs := by
  have hnames := (resolveReferences_eq_ok.1 h).imp fun _ _ hde => (Definition.resolve_eq_ok.1 hde).1.symm
  exact (Steps.map_eq_map_iff.2 (hnames.imp fun _ _ hde => congrArg (·.getD "") hde)).symm

/-- A resolved type refers to itself and to no other name. -/
theorem filter_refersTo_of_resolve {defs resolved : List Definition}
    (h : resolveReferences defs = .ok resolved) {e : Definition} (he : e ∈ resolved) {g : Field}
    (hg : g ∈ e.fields) (hc : g.isComplex = true) :
    (referenceNames resolved).filter (refersTo g.type) = [g.type] := by
  obtain ⟨d, -, hde⟩ := Steps.exists_of_mem_right (resolveReferences_eq_ok.1 h) he
  obtain ⟨f, -, hfg⟩ := Steps.exists_of_mem_right (Definition.resolve_eq_ok.1 hde).2 hg
  rw [Field.resolve_eq_ok] at hfg
  split at hfg
  · next hcomplex =>
    obtain ⟨type, htype, rfl⟩ := hfg
    rw [resolveType_eq_ok] at htype
    have hmem : type ∈ (referenceNames defs).filter (refersTo f.type) := htype ▸ List.mem_singleton_self type
    obtain ⟨hname, hrefers⟩ := List.mem_filter.1 hmem
    rw [referenceNames_of_resolve h]
    refine filter_refersTo_eq_singleton hname (refersTo_self type) ?_
    have hle : (referenceNames defs).countP (refersTo type) ≤
        (referenceNames defs).countP (refersTo f.type) :=
      List.countP_mono_left fun name _ => refersTo_trans hrefers
    rw [List.countP_eq_length_filter (p := refersTo f.type), htype] at hle
    exact hle
  · next hcomplex =>
    rw [hfg] at hc
    exact absurd hc hcomplex

end RosSchema

import RosSchema.Proofs.Resolution

/-!
# One definition for each reference

Definitions resolve exactly when every complex field means one place of their list, and then nothing
but the types of those fields changes. The first field that means none or several gives the error. Names
stay as they are, and a full name means no more than what was written for it. So resolving again
changes nothing, and the order of the definitions does not matter.
-/

namespace RosSchema

/-! ## What a type means -/

/-- A type means a definition by its name or by the end of it after a slash. A definition without a name
has the empty one. -/
def Definition.IsMeantBy (d : Definition) (type : String) : Prop :=
  d.name.getD "" = type ∨ ∃ front, (d.name.getD "").toList = front ++ '/' :: type.toList

instance (d : Definition) (type : String) : Decidable (d.IsMeantBy type) :=
  decidable_of_iff _ refersTo_iff

def MeansOne (defs : List Definition) (type : String) : Prop :=
  ∃! i : Nat, ∃ d, defs[i]? = some d ∧ d.IsMeantBy type

def meantNames (defs : List Definition) (type : String) : List String :=
  (defs.filter (·.IsMeantBy type)).map (·.name.getD "")

def complexFields (defs : List Definition) : List Field := defs.flatMap (·.fields.filter (·.isComplex))

/-- A field whose type gives way to the name that it means, if it is complex. -/
def Field.Renamed (defs : List Definition) (f g : Field) : Prop :=
  if f.isComplex then ∃ d ∈ defs, d.IsMeantBy f.type ∧ g = { f with type := d.name.getD "" } else g = f

/-- A definition of which nothing but the types of complex fields changes. -/
structure Definition.Renamed (defs : List Definition) (d e : Definition) : Prop where
  name : e.name = d.name
  fields : List.Forall₂ (Field.Renamed defs) d.fields e.fields

inductive ReferenceError (defs : List Definition) (type : String) : Error → Prop where
  | unresolved (none : ∀ d ∈ defs, ¬ d.IsMeantBy type) : ReferenceError defs type (.unresolvedType type)
  | ambiguous (some : ∃ d ∈ defs, d.IsMeantBy type) (several : ¬ MeansOne defs type) :
      ReferenceError defs type (.ambiguousType type (meantNames defs type))

/-- One place of a list has a property exactly when filtering leaves one element. -/
theorem existsUnique_getElem?_iff {α : Type} {p : α → Prop} [DecidablePred p] {xs : List α} :
    (∃! i : Nat, ∃ x, xs[i]? = some x ∧ p x) ↔ ∃ x, xs.filter p = [x] := by
  constructor
  · rintro ⟨i, ⟨x, hx, hp⟩, hone⟩
    obtain ⟨hlt, rfl⟩ := List.getElem?_eq_some_iff.1 hx
    have hnot (j : Nat) (hj : j ≠ i) (y : α) (hy : xs[j]? = some y) : ¬ p y :=
      fun hpy => hj (hone j ⟨y, hy, hpy⟩)
    refine ⟨xs[i], List.filter_eq_cons_iff.2 ⟨xs.take i, xs.drop (i + 1), ?_, ?_, by simpa using hp, ?_⟩⟩
    · simp
    · intro y hy
      obtain ⟨j, hj⟩ := List.mem_iff_getElem?.1 hy
      rw [List.getElem?_take] at hj
      split at hj
      · next hji => simpa using hnot j (Nat.ne_of_lt hji) y hj
      · cases hj
    · refine List.filter_eq_nil_iff.2 fun y hy => ?_
      obtain ⟨j, hj⟩ := List.mem_iff_getElem?.1 hy
      rw [List.getElem?_drop] at hj
      simpa using hnot (i + 1 + j) (by omega) y hj
  · rintro ⟨x, hx⟩
    obtain ⟨before, after, rfl, hbefore, hp, hafter⟩ := List.filter_eq_cons_iff.1 hx
    refine ⟨before.length, ⟨x, by simp, by simpa using hp⟩, ?_⟩
    rintro j ⟨y, hy, hpy⟩
    rcases Nat.lt_trichotomy j before.length with hlt | rfl | hgt
    · rw [List.getElem?_append_left hlt] at hy
      exact absurd hpy (by simpa using hbefore y (List.mem_of_getElem? hy))
    · rfl
    · rw [List.getElem?_append_right hgt.le, List.getElem?_cons, if_neg (by omega)] at hy
      exact absurd hpy (by simpa using List.filter_eq_nil_iff.1 hafter y (List.mem_of_getElem? hy))

theorem filter_refersTo_eq (defs : List Definition) (type : String) :
    (referenceNames defs).filter (refersTo type) = meantNames defs type := by
  rw [referenceNames, List.filter_map, meantNames]
  refine congrArg _ (List.filter_congr fun d _ => ?_)
  rw [Bool.eq_iff_iff, decide_eq_true_iff]
  exact refersTo_iff

theorem meansOne_iff {defs : List Definition} {type : String} :
    MeansOne defs type ↔ ∃ name, meantNames defs type = [name] := by
  simp only [MeansOne, existsUnique_getElem?_iff, meantNames, List.map_eq_singleton_iff]
  exact ⟨fun ⟨d, hd⟩ => ⟨_, d, hd, rfl⟩, fun ⟨_, d, hd, _⟩ => ⟨d, hd⟩⟩

theorem mem_meantNames {defs : List Definition} {type name : String} :
    name ∈ meantNames defs type ↔ ∃ d ∈ defs, d.IsMeantBy type ∧ d.name.getD "" = name := by
  simp [meantNames, and_assoc]

/-- A type resolves when it means one place, to the name there. -/
theorem resolveType_eq_ok_iff {defs : List Definition} {type name : String} :
    resolveType (referenceNames defs) type = .ok name ↔
      MeansOne defs type ∧ ∃ d ∈ defs, d.IsMeantBy type ∧ d.name.getD "" = name := by
  rw [resolveType_eq_ok, filter_refersTo_eq, meansOne_iff, ← mem_meantNames]
  constructor
  · intro h
    exact ⟨⟨name, h⟩, h ▸ List.mem_singleton_self name⟩
  · rintro ⟨⟨other, hother⟩, hmem⟩
    rw [hother, List.mem_singleton] at hmem
    rw [hother, hmem]

theorem resolveType_eq_error_iff {defs : List Definition} {type : String} {e : Error} :
    resolveType (referenceNames defs) type = .error e ↔ ReferenceError defs type e := by
  have hnone : (∀ d ∈ defs, ¬ d.IsMeantBy type) ↔ meantNames defs type = [] := by
    simp [meantNames]
  rw [resolveType, filter_refersTo_eq]
  constructor
  · intro h
    split at h
    · next hnil =>
      cases h
      exact .unresolved (hnone.2 hnil)
    · cases h
    · next hnil hone =>
      cases h
      refine .ambiguous ?_ fun hmeans => ?_
      · by_contra hno
        exact hnil (hnone.1 fun d hd hmeant => hno ⟨d, hd, hmeant⟩)
      · obtain ⟨name, hname⟩ := meansOne_iff.1 hmeans
        exact hone name hname
  · intro h
    cases h with
    | unresolved none => rw [hnone.1 none]
    | ambiguous some several =>
      split
      · next hnil =>
        obtain ⟨d, hd, hmeant⟩ := some
        exact absurd hmeant (hnone.2 hnil d hd)
      · next name hname => exact absurd (meansOne_iff.2 ⟨name, hname⟩) several
      · rfl

/-! ## Resolution as a whole -/

theorem Field.resolve_iff {defs : List Definition} {f g : Field} :
    f.resolve (referenceNames defs) = .ok g ↔
      (f.isComplex = true → MeansOne defs f.type) ∧ f.Renamed defs g := by
  rw [Field.resolve_eq_ok, Field.Renamed]
  cases f.isComplex with
  | false => simp
  | true =>
    simp only [↓reduceIte, forall_const, resolveType_eq_ok_iff]
    constructor
    · rintro ⟨type, ⟨hone, d, hd, hmeant, rfl⟩, rfl⟩
      exact ⟨hone, d, hd, hmeant, rfl⟩
    · rintro ⟨hone, d, hd, hmeant, rfl⟩
      exact ⟨_, ⟨hone, d, hd, hmeant, rfl⟩, rfl⟩

theorem Definition.resolve_iff {defs : List Definition} {d e : Definition} :
    d.resolve (referenceNames defs) = .ok e ↔
      (∀ f ∈ d.fields, f.isComplex = true → MeansOne defs f.type) ∧ d.Renamed defs e := by
  simp only [Definition.resolve_eq_ok, Field.resolve_iff, List.forall₂_and_left]
  exact ⟨fun ⟨hname, hone, hfields⟩ => ⟨hone, hname, hfields⟩,
    fun ⟨hone, hname, hfields⟩ => ⟨hname, hone, hfields⟩⟩

theorem mem_complexFields {defs : List Definition} {f : Field} :
    f ∈ complexFields defs ↔ ∃ d ∈ defs, f ∈ d.fields ∧ f.isComplex = true := by
  simp [complexFields]

/-- A definition fails to resolve as the pass over its complex fields does. -/
theorem Definition.resolve_eq_error {names : List String} {d : Definition} {e : Error} :
    d.resolve names = .error e ↔
      (d.fields.filter (·.isComplex)).mapM (fun f => resolveType names f.type) = .error e := by
  have hfields : d.resolve names = .error e ↔ d.fields.mapM (Field.resolve names) = .error e := by
    rw [Definition.resolve, Steps.bind_eq_error]
    refine or_iff_left ?_
    rintro ⟨_, _, hpure⟩
    cases hpure
  have hone (f : Field) (e : Error) : f.resolve names = .error e ↔
      ([f].filter (·.isComplex)).mapM (fun f => resolveType names f.type) = .error e := by
    unfold Field.resolve
    cases hc : f.isComplex with
    | false => simp [hc, pure, Except.pure]
    | true => cases hr : resolveType names f.type <;> simp [hc, hr, bind, Except.bind, pure, Except.pure]
  rw [hfields, Steps.mapM_flatMap_eq_error hone, ← List.filter_flatMap]
  simp

/-- Definitions fail to resolve as the pass over all their complex fields does. -/
theorem resolveReferences_eq_error_iff {defs : List Definition} {e : Error} :
    resolveReferences defs = .error e ↔ ∃ before f after, complexFields defs = before ++ f :: after ∧
      (∀ g ∈ before, MeansOne defs g.type) ∧ ReferenceError defs f.type e := by
  rw [resolveReferences, Steps.mapM_flatMap_eq_error fun d e => Definition.resolve_eq_error,
    Steps.mapM_eq_error_iff]
  simp only [resolveType_eq_error_iff]
  refine exists_congr fun before => exists_congr fun f => exists_congr fun after =>
    and_congr_right fun _ => and_congr_left fun _ => forall₂_congr fun g _ => ?_
  simp only [resolveType_eq_ok_iff]
  constructor
  · rintro ⟨name, hone, -⟩
    exact hone
  · intro hone
    obtain ⟨name, hname⟩ := meansOne_iff.1 hone
    exact ⟨name, hone, mem_meantNames.1 (hname ▸ List.mem_singleton_self name)⟩

/-- **Exact resolution.** Definitions resolve exactly when every complex field means one place of their
list, to the same definitions with those types replaced by the names they mean. Otherwise the first
complex field that means none or several gives the error. -/
theorem resolveReferences_exact (defs : List Definition) :
    ((∃ resolved, resolveReferences defs = .ok resolved) ↔
      ∀ f ∈ complexFields defs, MeansOne defs f.type) ∧
    (∀ resolved, resolveReferences defs = .ok resolved ↔
      (∀ f ∈ complexFields defs, MeansOne defs f.type) ∧
        List.Forall₂ (Definition.Renamed defs) defs resolved) ∧
    ∀ e, resolveReferences defs = .error e ↔
      ∃ before f after, complexFields defs = before ++ f :: after ∧
        (∀ g ∈ before, MeansOne defs g.type) ∧ ReferenceError defs f.type e := by
  have hok (resolved : List Definition) : resolveReferences defs = .ok resolved ↔
      (∀ f ∈ complexFields defs, MeansOne defs f.type) ∧
        List.Forall₂ (Definition.Renamed defs) defs resolved := by
    rw [resolveReferences_eq_ok]
    simp only [Definition.resolve_iff, List.forall₂_and_left, mem_complexFields]
    refine and_congr_left fun _ => ?_
    constructor
    · rintro h f ⟨d, hd, hf, hc⟩
      exact h d hd f hf hc
    · exact fun h d hd f hf hc => h f ⟨d, hd, hf, hc⟩
  refine ⟨⟨fun ⟨resolved, hresolved⟩ => ((hok resolved).1 hresolved).1, fun h => ?_⟩, hok,
    fun e => resolveReferences_eq_error_iff⟩
  cases hr : resolveReferences defs with
  | ok resolved => exact ⟨resolved, rfl⟩
  | error e =>
    obtain ⟨before, f, after, hfields, -, hf⟩ := resolveReferences_eq_error_iff.1 hr
    have hone := h f (by simp [hfields])
    rw [← resolveType_eq_error_iff] at hf
    obtain ⟨name, hname⟩ := meansOne_iff.1 hone
    have hresolves : resolveType (referenceNames defs) f.type = .ok name :=
      resolveType_eq_ok_iff.2 ⟨hone, mem_meantNames.1 (hname ▸ List.mem_singleton_self name)⟩
    rw [hresolves] at hf
    cases hf

/-- A definition with just the name that is written does not win over one whose name ends with it. -/
example : resolveReferences
    [⟨none, [.variableOf "Point" "p"]⟩, ⟨some "Point", []⟩, ⟨some "geometry/Point", []⟩] =
      .error (.ambiguousType "Point" ["Point", "geometry/Point"]) := by
  decide +kernel

/-! ## Resolving again, and in another order -/

/-- The elements of a list at some places, in the order of the places. -/
def arrange {α : Type} (places : List Nat) (xs : List α) : List α := places.filterMap (xs[·]?)

theorem arrange_range {α : Type} (xs : List α) : arrange (List.range xs.length) xs = xs := by
  induction xs with
  | nil => rfl
  | cons x xs ih =>
    rw [arrange, List.length_cons, List.range_succ_eq_map, List.filterMap_cons_some (by rfl),
      List.filterMap_map]
    exact congrArg (x :: ·) ih

theorem arrange_perm {α : Type} {places : List Nat} {xs : List α}
    (h : places.Perm (List.range xs.length)) : (arrange places xs).Perm xs := by
  have hperm := h.filterMap (xs[·]?)
  rwa [← arrange, ← arrange, arrange_range] at hperm

theorem arrange_map {α β : Type} (places : List Nat) (f : α → β) (xs : List α) :
    (arrange places xs).map f = arrange places (xs.map f) := by
  rw [arrange, arrange, List.map_filterMap]
  simp only [List.getElem?_map]

theorem forall₂_arrange {α β : Type} {R : α → β → Prop} {xs : List α} {ys : List β}
    (h : List.Forall₂ R xs ys) (places : List Nat) :
    List.Forall₂ R (arrange places xs) (arrange places ys) := by
  have hplace (i : Nat) : Option.Rel R xs[i]? ys[i]? := by
    induction h generalizing i with
    | nil => exact .none
    | cons hxy _ ih =>
      cases i with
      | zero => exact .some hxy
      | succ i => exact ih i
  refine List.rel_filterMap ?_ (List.forall₂_same.2 fun i (_ : i ∈ places) => rfl)
  rintro i _ rfl
  exact hplace i

/-- A type resolves to one name whatever the order of the names. -/
theorem resolveType_perm {names names' : List String} (h : names'.Perm names) {type name : String}
    (hname : resolveType names type = .ok name) : resolveType names' type = .ok name := by
  rw [resolveType_eq_ok] at hname ⊢
  exact List.perm_singleton.1 (hname ▸ h.filter _)

theorem Definition.resolve_perm {names names' : List String} (h : names'.Perm names) {d e : Definition}
    (hd : d.resolve names = .ok e) : d.resolve names' = .ok e := by
  rw [Definition.resolve_eq_ok] at hd ⊢
  refine ⟨hd.1, hd.2.imp fun f g hf => ?_⟩
  rw [Field.resolve_eq_ok] at hf ⊢
  split at hf
  · next hc =>
    rw [if_pos hc]
    obtain ⟨type, htype, hg⟩ := hf
    exact ⟨type, resolveType_perm h htype, hg⟩
  · next hc => rwa [if_neg hc]

/-- Resolved definitions resolve to themselves. -/
theorem resolveReferences_resolved {defs resolved : List Definition}
    (h : resolveReferences defs = .ok resolved) : resolveReferences resolved = .ok resolved := by
  rw [resolveReferences_eq_ok, List.forall₂_same]
  intro e he
  refine Definition.resolve_eq_ok.2 ⟨rfl, List.forall₂_same.2 fun g hg => ?_⟩
  rw [Field.resolve_eq_ok]
  split
  · next hc => exact ⟨g.type, resolveType_eq_ok.2 (filter_refersTo_of_resolve h he hg hc), rfl⟩
  · rfl

/-- **Stable resolution.** Resolved definitions resolve to themselves, and in any other order the same
definitions resolve to the same results in that order. -/
theorem resolveReferences_stable {defs resolved : List Definition}
    (h : resolveReferences defs = .ok resolved) : resolveReferences resolved = .ok resolved ∧
      ∀ places : List Nat, places.Perm (List.range defs.length) →
        resolveReferences (arrange places defs) = .ok (arrange places resolved) := by
  refine ⟨resolveReferences_resolved h, fun places hplaces => ?_⟩
  have hnames : (referenceNames (arrange places defs)).Perm (referenceNames defs) := by
    rw [referenceNames, arrange_map]
    exact arrange_perm (by simpa [referenceNames] using hplaces)
  rw [resolveReferences_eq_ok]
  exact (forall₂_arrange (resolveReferences_eq_ok.1 h) places).imp fun d e hde =>
    Definition.resolve_perm hnames hde

/-- A definition without a name, two that are referred to in full or by the ends of their names, and one whose
name only ends in the same letters. -/
def linkedDefinitions : List Definition :=
  [⟨none, [.variableOf "Outer" "outer", .variableOf "bool" "flag"]⟩,
    ⟨some "pkg/Outer", [.variableOf "Inner" "inner", .variableOf "pkg/Outer" "next"]⟩,
    ⟨some "pkg/msg/Inner", [.variableOf "int8" "v"]⟩, ⟨some "pkg/MyInner", []⟩]

def linkedResolved : List Definition :=
  [⟨none, [.variableOf "pkg/Outer" "outer", .variableOf "bool" "flag"]⟩,
    ⟨some "pkg/Outer", [.variableOf "pkg/msg/Inner" "inner", .variableOf "pkg/Outer" "next"]⟩,
    ⟨some "pkg/msg/Inner", [.variableOf "int8" "v"]⟩, ⟨some "pkg/MyInner", []⟩]

theorem resolveReferences_stable_linkedDefinitions :
    resolveReferences linkedDefinitions = .ok linkedResolved ∧
    resolveReferences linkedResolved = .ok linkedResolved ∧
    ∀ places : List Nat, places.Perm (List.range linkedDefinitions.length) →
      resolveReferences (arrange places linkedDefinitions) = .ok (arrange places linkedResolved) :=
  have hresolved : resolveReferences linkedDefinitions = .ok linkedResolved := by decide +kernel
  ⟨hresolved, resolveReferences_stable hresolved⟩

end RosSchema

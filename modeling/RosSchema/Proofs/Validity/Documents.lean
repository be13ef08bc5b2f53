import RosSchema.Proofs.Idl.Flattening
import RosSchema.Proofs.Idl.Solution
import RosSchema.Proofs.Idl.Written
import RosSchema.Proofs.Literal.Coercion
import RosSchema.Proofs.Validity.Field
import RosSchema.Schema

/-!
# Valid fields of documents

What the grammar ensures of a member survives the typedefs that are inlined in it, and the constants of
a scope have values of their types, however they refer to each other. So every field of a document is
valid, has a type with slashes in the place of colons, and is named by an identifier.
-/

namespace RosSchema

/-! ## Values fitted to a type -/

namespace Literal

/-- A value that is fitted to a type or to an array of it is one of its defaults. -/
theorem FitsDefault.of_coerce {type : String} {isArray : Bool} {v w : Value} {q : Primitive}
    (hv : Fits q v) (h : coerce type isArray v = .ok w) : FitsDefault type isArray w := by
  cases isArray with
  | false =>
    obtain ⟨p, hp, hfits⟩ := fits_of_coerceScalar hv h
    exact .scalar p w hp hfits
  | true =>
    -- only a string stands for an array
    cases hv with
    | string s =>
      obtain ⟨p, items, hp, rfl, hfits⟩ := fits_of_decodeArray h
      exact .array p items hp hfits
    | _ => cases h

end Literal

namespace Idl

/-! ## Types of fields -/

theorem head_of_head_slashes {cs : List Char} (h : (slashes cs).head? = some ':') : cs.head? = some ':' := by
  unfold slashes at h
  split at h
  · cases h
  · cases h
  · cases h
    rfl

/-- No two colons are left of a name with slashes. -/
theorem not_infix_slashes (cs : List Char) : ¬ [':', ':'] <:+: slashes cs := by
  fun_induction slashes cs with
  | case1 => simp
  | case2 rest ih =>
    rw [List.infix_cons_iff]
    rintro (h | h)
    · exact absurd (List.prefix_cons_iff.1 h) (by simp)
    · exact ih h
  | case3 c rest hnot ih =>
    rw [List.infix_cons_iff]
    rintro (h | h)
    · obtain ⟨rfl, tail, htail⟩ := List.cons_prefix_cons.1 h
      have hhead : rest.head? = some ':' := head_of_head_slashes (by rw [← htail]; rfl)
      cases rest with
      | nil => cases hhead
      | cons d rest =>
        obtain rfl := Option.some.inj hhead
        exact hnot rest rfl rfl
    · exact ih h

theorem mem_slashes {c : Char} {cs : List Char} (h : c ∈ slashes cs) : c = '/' ∨ c ∈ cs := by
  fun_induction slashes cs with
  | case1 => cases h
  | case2 rest ih =>
    rcases List.mem_cons.1 h with rfl | h
    · exact .inl rfl
    · exact (ih h).imp_right fun h => List.mem_cons_of_mem _ (List.mem_cons_of_mem _ h)
  | case3 d rest _ ih =>
    rcases List.mem_cons.1 h with rfl | h
    · exact .inr List.mem_cons_self
    · exact (ih h).imp_right (List.mem_cons_of_mem _)

/-- What holds of the types that names are folded into, and of a name, holds of the folded name. -/
theorem foldInterface_of {P : String → Prop} (type : String) (h : P type) (htime : P "time")
    (hduration : P "duration") (hunsigned : P "uint8") (hsigned : P "int8") : P (foldInterface type) := by
  unfold foldInterface
  split
  · exact htime
  · exact htime
  · exact hduration
  · exact hduration
  · unfold foldAlias
    split
    · exact hunsigned
    · exact hsigned
    · exact h

theorem foldAlias_foldInterface (type : String) : foldAlias (foldInterface type) = foldInterface type := by
  unfold foldInterface
  split <;> first | rfl | exact foldAlias_foldAlias _

/-- The type of a field is folded, has no two colons, and stands on one line. -/
theorem Member.Written.fieldType {m : Member} (h : m.Written) :
    foldAlias (Scope.fieldType m) = Scope.fieldType m ∧
      ¬ "::".toList <:+: (Scope.fieldType m).toList ∧ '\n' ∉ (Scope.fieldType m).toList := by
  refine ⟨foldAlias_foldInterface _, ?_, ?_⟩
  · refine foldInterface_of (P := fun type => ¬ "::".toList <:+: type.toList) _ ?_ (by decide) (by decide)
      (by decide) (by decide)
    change ¬ [':', ':'] <:+: (String.ofList _).toList
    rw [String.toList_ofList]
    exact not_infix_slashes _
  · refine foldInterface_of (P := fun type => '\n' ∉ type.toList) _ ?_ (by decide) (by decide) (by decide)
      (by decide)
    rw [String.toList_ofList]
    intro hm
    rcases mem_slashes hm with h' | hm
    · exact absurd h' (by decide)
    · exact absurd (List.all_eq_true.1 h.type _ hm) (by decide)

/-! ## Members with typedefs inlined -/

/-- Inlining written typedefs in a written member leaves it written. -/
theorem Member.Written.inline {typedefs : Typedefs} (ht : ∀ entry ∈ typedefs, entry.2.Written) {m shape : Member}
    (h : m.Written) (hshape : typedefs.inline m = .ok shape) : shape.Written := by
  unfold Typedefs.inline at hshape
  split at hshape
  · cases hshape
    exact h
  · next known hknown =>
    have hmem : known.Written := by
      rcases lookup?_eq_some.1 hknown with hlook | ⟨-, hlook⟩
      · exact ht _ (mem_of_lookup hlook)
      · exact ht _ (mem_of_lookup hlook)
    split at hshape
    · cases hshape
    · cases hshape
      refine ⟨hmem.type, h.name, ?_, hmem.string, h.value, h.default⟩
      dsimp only
      split
      · exact h.count
      · exact hmem.count

theorem written_of_ofMembers {members : List Member} (h : ∀ m ∈ members, m.Written) {typedefs : Typedefs}
    (hof : Typedefs.ofMembers members = .ok typedefs) : ∀ entry ∈ typedefs, entry.2.Written := by
  have hfold : ∀ start : Typedefs, (∀ entry ∈ start, entry.2.Written) →
      members.foldlM (fun typedefs m => do return (m.name, ← typedefs.inline m) :: typedefs) start =
        .ok typedefs → ∀ entry ∈ typedefs, entry.2.Written := by
    clear hof
    induction members with
    | nil =>
      intro start hstart hfold
      cases hfold
      exact hstart
    | cons m members ih =>
      intro start hstart hfold
      obtain ⟨next, hnext, hfold⟩ := Steps.foldlM_cons_eq_ok.1 hfold
      obtain ⟨shape, hshape, hnext⟩ := Steps.bind_eq_ok.1 hnext
      cases hnext
      refine ih (fun other hother => h other (List.mem_cons_of_mem _ hother)) _ ?_ hfold
      exact List.forall_mem_cons.2 ⟨(h m List.mem_cons_self).inline hstart hshape, hstart⟩
  exact hfold [] (by simp) hof

/-! ## Fields -/

/-- A scope of written typedefs and of constants that have values of some primitive types. -/
structure Scope.Written (s : Scope) : Prop where
  typedefs : ∀ entry ∈ s.typedefs, entry.2.Written
  constants : ∀ entry ∈ s.constants, ∃ p, Literal.Fits p entry.2.value

structure Lowered (f : Field) : Prop where
  valid : f.Valid
  colons : ¬ "::".toList <:+: f.type.toList
  line : '\n' ∉ f.type.toList
  name : f.name.toList.all Reader.isNamePart = true

namespace Scope

variable {s : Scope}

/-- The value of a written literal is one of some primitive type. -/
theorem Written.fits (h : s.Written) {l : Literal} (hl : l.Written) {field parent : String}
    {v : ConstantValue} (hv : s.substitute l field parent = .ok v) : ∃ p, Literal.Fits p v.value := by
  cases l with
  | value w =>
    cases hv
    exact hl
  | constant name =>
    rcases lookup?_eq_some.1 (substitute_constant_eq_ok.1 hv) with hlook | ⟨-, hlook⟩
    · exact h.constants _ (mem_of_lookup hlook)
    · exact h.constants _ (mem_of_lookup hlook)

theorem count_none {m : Member} {parent : String} {n : Option Nat}
    (h : s.count none m parent = .ok n) : n = none := by
  cases h
  rfl

/-- The bound of a written member is that of a field of a string type. -/
theorem string_of_count {m : Member} (hm : m.Written) {parent : String} {bound : Option Nat}
    (h : s.count m.stringBound m parent = .ok bound) (hsome : bound.isSome) :
    fieldType m = "string" ∨ fieldType m = "wstring" := by
  have hwritten : m.stringBound.isSome := by
    cases hb : m.stringBound with
    | some l => rfl
    | none =>
      rw [hb] at h
      rw [count_none h] at hsome
      cases hsome
  rcases hm.string hwritten with htype | htype
  · rw [fieldType, htype]
    exact .inl (by decide)
  · rw [fieldType, htype]
    exact .inr (by decide)

theorem Written.constantField (h : s.Written) {declared : Member} (hm : declared.Written) {parent : String}
    {f : Field} (hf : s.constantField parent declared = .ok f) : Lowered f := by
  obtain ⟨m, hinline, bound, hbound, -, l, hl, v, hv, value, hvalue, rfl⟩ := constantField_eq_ok.1 hf
  have hshape := hm.inline h.typedefs hinline
  obtain ⟨hfold, hcolons, hline⟩ := hshape.fieldType
  obtain ⟨q, hq⟩ := h.fits (hshape.value l hl) hv
  obtain ⟨p, hp, hfits⟩ := Literal.fits_of_coerceScalar hq hvalue
  exact ⟨Field.valid_constant hfold hp hfits (string_of_count hshape hbound) _ _, hcolons, hline, hshape.name⟩

theorem Written.variableField (h : s.Written) {declared : Member} (hm : declared.Written) {parent : String}
    {f : Field} (hf : s.variableField parent declared = .ok f) : Lowered f := by
  obtain ⟨m, hinline, bound, hbound, length, hlength, most, hmost, default, hdefault, rfl⟩ :=
    variableField_eq_ok.1 hf
  have hshape := hm.inline h.typedefs hinline
  obtain ⟨hfold, hcolons, hline⟩ := hshape.fieldType
  have hcount : length = none ∨ most = none := by
    rcases hshape.count with hnone | hnone
    · rw [hnone] at hlength
      exact .inl (count_none hlength)
    · rw [hnone] at hmost
      exact .inr (count_none hmost)
  have hfits : ∀ v ∈ default, Literal.FitsDefault (fieldType m) m.isArray v := by
    intro v hv
    obtain rfl : default = some v := hv
    cases hl : m.defaultValue with
    | none =>
      rw [hl] at hdefault
      cases hdefault
    | some l =>
      rw [hl] at hdefault
      obtain ⟨w, hw, hsome⟩ := Steps.map_eq_ok.1 (show Except.map some _ = _ from hdefault)
      cases hsome
      obtain ⟨c, hc, hcoerce⟩ := Steps.bind_eq_ok.1 hw
      obtain ⟨q, hq⟩ := h.fits (hshape.default l hl) hc
      exact .of_coerce hq hcoerce
  have hbound' := string_of_count hshape hbound
  -- how the type was folded does not matter any more
  generalize fieldType m = type at hfold hcolons hline hfits hbound' ⊢
  cases harray : m.isArray with
  | false =>
    rw [harray] at hfits
    exact ⟨Field.valid_variable hfold (.inl rfl) (fun _ => ⟨rfl, rfl⟩) hbound' hfits _, hcolons, hline,
      hshape.name⟩
  | true =>
    rw [harray] at hfits
    exact ⟨Field.valid_variable hfold hcount (fun hfalse => by cases hfalse) hbound' hfits _, hcolons,
      hline, hshape.name⟩

end Scope

/-! ## Scopes -/

/-- Every state of a walk has constants with values of their types. -/
theorem Constants.Built.fits {c : Constants} (ht : ∀ entry ∈ c.typedefs, entry.2.Written)
    (hd : ∀ d ∈ c.declared, d.member.Written) {done : Settled} (h : c.Built done) :
    ∀ entry ∈ done.values, ∃ p, Literal.Fits p entry.2.value := by
  induction h with
  | start => simp
  | @add done place d shape f v _ _ found _ _ field value ih =>
    have hlowered := Scope.Written.constantField ⟨ht, ih⟩ (hd d (List.mem_of_getElem? found)) field
    obtain ⟨-, -, p, -, hfits⟩ := hlowered.valid.constant v value
    exact List.forall_mem_cons.2 ⟨⟨p, hfits⟩, ih⟩

theorem Scope.written_of_ofNode {root : Node} (h : root.Written) {s : Scope} (hs : Scope.ofNode root = .ok s) :
    s.Written := by
  obtain ⟨htypedefs, hconstants⟩ := Scope.ofNode_eq_ok.1 hs
  have ht := written_of_ofMembers h.typedefs htypedefs
  obtain ⟨done, hbuilt, -, hvalues⟩ := Constants.built_of_values hconstants
  refine ⟨ht, ?_⟩
  rw [hvalues]
  exact hbuilt.fits ht (h.constants [])

/-! ## Definitions -/

def IsPath (path : List String) : Prop := ∀ name ∈ path, name.toList.all Reader.isNamePart = true

theorem IsPath.append {path : List String} (h : IsPath path) {name : String}
    (hname : name.toList.all Reader.isNamePart = true) : IsPath (path ++ [name]) := by
  intro other hother
  rcases List.mem_append.1 hother with hother | hother
  · exact h other hother
  · obtain rfl := List.mem_singleton.1 hother
    exact hname

theorem exists_of_mem_groupsIn {path : List String} {nodes : List Node} {group : List String × List Node}
    (h : group ∈ groupsIn path nodes) : ∃ node ∈ nodes, group ∈ node.groups path := by
  induction nodes with
  | nil => simp [groupsIn] at h
  | cons node nodes ih =>
    rw [groupsIn] at h
    rcases List.mem_append.1 h with h | h
    · exact ⟨node, List.mem_cons_self, h⟩
    · obtain ⟨other, hother, h⟩ := ih h
      exact ⟨other, List.mem_cons_of_mem _ hother, h⟩

/-- The groups of a written tree have written nodes and paths of identifiers. -/
theorem Node.Written.groups {node : Node} (h : node.Written) :
    ∀ path, IsPath path → ∀ group ∈ node.groups path,
      IsPath group.1 ∧ ∀ child ∈ group.2, child.Written := by
  induction h with
  | @module name children word inner ih =>
    intro path hpath group hgroup
    rw [Node.groups] at hgroup
    rcases List.mem_append.1 hgroup with hgroup | hgroup
    · obtain ⟨child, hchild, hgroup⟩ := exists_of_mem_groupsIn hgroup
      exact ih child hchild _ (hpath.append word) group hgroup
    · split at hgroup
      · obtain rfl := List.mem_singleton.1 hgroup
        exact ⟨hpath.append word, inner⟩
      · cases hgroup
  | @struct name children word inner ih =>
    intro path hpath group hgroup
    rw [Node.groups] at hgroup
    rcases List.mem_append.1 hgroup with hgroup | hgroup
    · obtain ⟨child, hchild, hgroup⟩ := exists_of_mem_groupsIn hgroup
      exact ih child hchild _ (hpath.append word) group hgroup
    · obtain rfl := List.mem_singleton.1 hgroup
      exact ⟨hpath.append word, inner⟩
  | typedef => intro path _ group hgroup; cases hgroup
  | field => intro path _ group hgroup; cases hgroup
  | constant => intro path _ group hgroup; cases hgroup

/-- A definition whose name is a path of identifiers and whose fields are those of a document. -/
structure IsLowered (d : Definition) : Prop where
  name : ∃ path, IsPath path ∧ d.name = some (joinPath path)
  field : ∀ f ∈ d.fields, Lowered f

theorem Scope.Written.definition {s : Scope} (h : s.Written) {group : List String × List Node}
    (hpath : IsPath group.1) (hgroup : ∀ child ∈ group.2, child.Written) {d : Definition}
    (hd : s.groupDefinition group = .ok d) : IsLowered d := by
  obtain ⟨hname, hfields⟩ := Scope.groupDefinition_eq_ok.1 hd
  refine ⟨⟨group.1, hpath, hname⟩, fun f hf => ?_⟩
  obtain ⟨r, hr, hrf⟩ := Steps.exists_of_mem_right hfields hf
  obtain ⟨node, hnode, hfield⟩ := List.mem_filterMap.1 hr
  subst hrf
  cases hgroup node hnode with
  | field member => exact h.variableField member (Option.some.inj hfield)
  | constant member => exact h.constantField member (Option.some.inj hfield)
  | module => cases hfield
  | struct => cases hfield
  | typedef => cases hfield

/-- **Documents.** Every definition of a document that is accepted is named by a path of identifiers and
has valid fields. -/
theorem isLowered_of_definitions {text : String} {defs : List Definition} (h : definitions text = .ok defs) :
    ∀ d ∈ defs, IsLowered d := by
  obtain ⟨all, hall, hflat⟩ := Steps.bind_eq_ok.1 h
  cases hflat
  intro d hd
  obtain ⟨own, hown, hd⟩ := List.mem_flatten.1 hd
  obtain ⟨part, -, hpart⟩ := Steps.exists_of_mem_right (Steps.mapM_eq_ok_iff.1 hall) hown
  obtain ⟨roots, hroots, hresolve⟩ := Steps.bind_eq_ok.1 (Steps.mapError_eq_ok.1 hpart)
  obtain ⟨parts, hparts, hflat⟩ := Steps.bind_eq_ok.1 hresolve
  cases hflat
  obtain ⟨tree, htree, hd⟩ := List.mem_flatten.1 hd
  obtain ⟨root, hroot, hdefs⟩ := Steps.exists_of_mem_right (Steps.mapM_eq_ok_iff.1 hparts) htree
  obtain ⟨s, hs, hflatten⟩ := Steps.bind_eq_ok.1 hdefs
  have hwritten := written_of_nodes hroots root hroot
  rw [Scope.flatten_eq] at hflatten
  obtain ⟨group, hgroup, hdefinition⟩ :=
    Steps.exists_of_mem_right (Steps.mapM_eq_ok_iff.1 hflatten) hd
  obtain ⟨hpath, hnodes⟩ := hwritten.groups [] (by simp [IsPath]) group hgroup
  exact (Scope.written_of_ofNode hwritten hs).definition hpath hnodes hdefinition

theorem isLowered_of_parse {o : Options} (ho : o.dialect.isLineOriented = false) {text : String}
    {defs : List Definition} (h : parse text o = .ok defs) : ∀ d ∈ defs, IsLowered d := by
  rw [parse, if_neg (by simp [ho])] at h
  exact isLowered_of_definitions h

end Idl

end RosSchema

import RosSchema.Proofs.Idl.Dependencies
import RosSchema.Proofs.Idl.Postorder
import RosSchema.Proofs.Validity.Documents

/-!
# Chains of typedefs

A typedef can be declared by another one. Where each refers to earlier ones only, the typedefs between a
member and the type behind them form a chain. Inlining takes the type and the string bound from the end of
the chain and the array from wherever it stands along it, and fails where there are two.
-/

namespace RosSchema.Idl

open Reader (isNamePart)

/-! ## Chains -/

/-- Typedefs that refer to earlier ones only, and have names of their own. -/
structure Layered (typedefs : List Member) : Prop where
  nodup : (typedefs.map (·.name)).Nodup
  untagged : ∀ t ∈ typedefs, ∀ p : Primitive, t.name ≠ p.tag
  earlier : ∀ i, ∀ h : i < typedefs.length, (∃ u ∈ typedefs.take i, Names typedefs[i].type u.name) ∨
    ∀ u ∈ typedefs, ¬ Names typedefs[i].type u.name

/-- The typedefs that the type of a member leads to, one after the other. -/
inductive Chain (typedefs : List Member) : Member → List Member → Prop where
  | plain (m : Member) (unnamed : ∀ t ∈ typedefs, ¬ Names m.type t.name) : Chain typedefs m []
  | link (m t : Member) (rest : List Member) (mem : t ∈ typedefs) (named : Names m.type t.name)
      (more : Chain typedefs t rest) : Chain typedefs m (t :: rest)

namespace Member

def arrays (m : Member) (chain : List Member) : List Member := (m :: chain).filter (·.isArray)

theorem arrays_cons (m t : Member) (rest : List Member) :
    m.arrays (t :: rest) = if m.isArray then m :: t.arrays rest else t.arrays rest := by
  rw [arrays, List.filter_cons]
  rfl

def last (m : Member) : List Member → Member
  | [] => m
  | t :: rest => t.last rest

/-- A member with the type and the string bound at the end of a chain, and the first array along it. -/
def along (m : Member) (chain : List Member) : Member :=
  let array := (m.arrays chain).headD (m.last chain)
  { m with
    type := (m.last chain).type
    isArray := array.isArray
    arrayLength := array.arrayLength
    arrayBound := array.arrayBound
    stringBound := (m.last chain).stringBound }

theorem along_nil (m : Member) : m.along [] = m := by
  have harray : (m.arrays []).headD m = m := by cases hm : m.isArray <;> simp [arrays, hm]
  simp only [along, last, harray]

/-- Inlining one typedef after those behind it. -/
theorem along_cons (m t : Member) (rest : List Member) : m.along (t :: rest) =
    { m with
      type := (t.along rest).type
      isArray := (if m.isArray then m else t.along rest).isArray
      arrayLength := (if m.isArray then m else t.along rest).arrayLength
      arrayBound := (if m.isArray then m else t.along rest).arrayBound
      stringBound := (t.along rest).stringBound } := by
  cases hm : m.isArray <;> simp [along, last, arrays_cons, hm]

theorem isArray_along (m : Member) (chain : List Member) :
    (m.along chain).isArray = !(m.arrays chain).isEmpty := by
  induction chain generalizing m with
  | nil => cases hm : m.isArray <;> simp [along_nil, arrays, hm]
  | cons t rest ih => cases hm : m.isArray <;> simp [along_cons, arrays_cons, hm, ih]

end Member

theorem Chain.unnamed_last {typedefs : List Member} {m : Member} {chain : List Member}
    (h : Chain typedefs m chain) : ∀ t ∈ typedefs, ¬ Names (m.last chain).type t.name := by
  induction h with
  | plain m unnamed => exact unnamed
  | link m t rest _ _ _ ih => exact ih

/-- Every member has a chain. -/
theorem Layered.exists_chain {typedefs : List Member} (h : Layered typedefs) (m : Member) :
    ∃ chain, Chain typedefs m chain := by
  have htypedef (i : Nat) (hi : i < typedefs.length) : ∃ chain, Chain typedefs typedefs[i] chain := by
    induction i using Nat.strongRecOn with
    | ind i ih =>
      rcases h.earlier i hi with ⟨u, hu, hnamed⟩ | hunnamed
      · obtain ⟨j, hj, rfl⟩ := List.mem_take_iff_getElem.1 hu
        obtain ⟨rest, hrest⟩ := ih j (by omega) (by omega)
        exact ⟨_, .link _ _ rest (List.getElem_mem _) hnamed hrest⟩
      · exact ⟨[], .plain _ hunnamed⟩
  by_cases hnamed : ∃ t ∈ typedefs, Names m.type t.name
  · obtain ⟨t, ht, hname⟩ := hnamed
    obtain ⟨i, hi, rfl⟩ := List.getElem_of_mem ht
    obtain ⟨rest, hrest⟩ := htypedef i hi
    exact ⟨_, .link m _ rest ht hname hrest⟩
  · exact ⟨[], .plain m fun t ht hname => hnamed ⟨t, ht, hname⟩⟩

/-! ## Inlining along chains -/

/-- Typedefs that are inlined so far: each is known with the shape of its chain. -/
structure Typedefs.Along (typedefs done : List Member) (entries : Typedefs) : Prop where
  keys : ∀ key ∈ entries.map Prod.fst, ∃ t ∈ done, t.name = key
  known : ∀ t ∈ done, ∀ chain, Chain typedefs t chain →
    entries.lookup t.name = some (t.along chain) ∧ (t.arrays chain).length ≤ 1

section Along

variable {typedefs done : List Member} {entries : Typedefs} {m shape : Member} {chain : List Member}

/-- Inlining one typedef after those of its chain. -/
theorem inline_cons {t : Member} {rest : List Member}
    (hknown : lookup? entries m.type = some (t.along rest)) (ht : (t.arrays rest).length ≤ 1)
    (h : entries.inline m = .ok shape) :
    shape = m.along (t :: rest) ∧ (m.arrays (t :: rest)).length ≤ 1 := by
  rw [Typedefs.inline, hknown] at h
  dsimp only at h
  split at h
  · cases h
  · next hnested =>
    cases h
    refine ⟨(m.along_cons t rest).symm, ?_⟩
    rw [Member.isArray_along, Bool.and_eq_true, not_and'] at hnested
    rw [Member.arrays_cons]
    split
    · next hm =>
      have hnone : t.arrays rest = [] := by simpa using hnested hm
      rw [hnone]
      exact le_rfl
    · exact ht

/-- With the typedefs of its chain inlined, a member is inlined to the shape of the chain. -/
theorem Typedefs.Along.inline (a : Typedefs.Along typedefs done entries) (hdone : done ⊆ typedefs)
    (hplain : ∀ t ∈ typedefs, lastPart t.name = t.name) (hchain : Chain typedefs m chain)
    (hhead : ∀ t ∈ chain.head?, t ∈ done) (h : entries.inline m = .ok shape) :
    shape = m.along chain ∧ (m.arrays chain).length ≤ 1 := by
  cases hchain with
  | plain _ unnamed =>
    have hnone : lookup? entries m.type = none := lookup?_eq_none_of_names fun key hkey => by
      obtain ⟨t, ht, rfl⟩ := a.keys key hkey
      exact unnamed t (hdone ht)
    rw [Typedefs.inline, hnone] at h
    cases h
    refine ⟨m.along_nil.symm, ?_⟩
    exact (List.length_filter_le _ _).trans_eq (List.length_singleton)
  | link _ t rest mem named more =>
    obtain ⟨hlookup, ht⟩ := a.known t (hhead t rfl) rest more
    refine inline_cons ?_ ht h
    rw [lookup?_eq_of_names (fun key hkey => ?_) (hplain t mem) named, hlookup]
    obtain ⟨u, hu, rfl⟩ := a.keys key hkey
    exact hplain u (hdone hu)

/-- One more typedef is inlined after the ones before it. -/
theorem Typedefs.Along.step {t : Member} {after : List Member} (a : Typedefs.Along typedefs done entries)
    (hlayered : Layered typedefs) (hplain : ∀ t ∈ typedefs, lastPart t.name = t.name)
    (hsplit : typedefs = done ++ t :: after) (h : entries.inline t = .ok shape) :
    Typedefs.Along typedefs (done ++ [t]) ((t.name, shape) :: entries) := by
  have hdone : done ⊆ typedefs := hsplit ▸ List.subset_append_left _ _
  have hmem : t ∈ typedefs := by simp [hsplit]
  have hfresh : ∀ u ∈ done, u.name ≠ t.name := by
    intro u hu
    have hnodup := hlayered.nodup
    rw [hsplit, List.map_append, List.nodup_append] at hnodup
    exact hnodup.2.2 u.name (List.mem_map_of_mem hu) t.name (by simp)
  -- the typedef that the new one refers to is one of those before it
  have hhead : ∀ chain, Chain typedefs t chain → ∀ u ∈ chain.head?, u ∈ done := by
    rintro _ (⟨_, -⟩ | ⟨_, u, rest, hu, hnamed, -⟩) v hv
    · cases hv
    · obtain rfl : u = v := by simpa using hv
      have hlt : done.length < typedefs.length := by simp [hsplit]
      have hat : typedefs[done.length] = t := by simp [hsplit]
      have htake : typedefs.take done.length = done := by simp [hsplit]
      have hearlier := hlayered.earlier done.length hlt
      rw [hat, htake] at hearlier
      rcases hearlier with ⟨w, hw, hname⟩ | hunnamed
      · have heq := hnamed.unique hname (hplain u hu) (hplain w (hdone hw))
        rwa [List.inj_on_of_nodup_map hlayered.nodup hu (hdone hw) heq]
      · exact absurd hnamed (hunnamed u hu)
  refine ⟨?_, ?_⟩
  · intro key hkey
    rcases List.mem_cons.1 hkey with rfl | hkey
    · exact ⟨t, by simp, rfl⟩
    · obtain ⟨u, hu, rfl⟩ := a.keys key hkey
      exact ⟨u, by simp [hu], rfl⟩
  · intro u hu chain hchain
    rcases List.mem_append.1 hu with hu | hu
    · have hlookup : ((t.name, shape) :: entries).lookup u.name = entries.lookup u.name := by
        rw [List.lookup_cons, beq_eq_false_iff_ne.2 (hfresh u hu)]
      rw [hlookup]
      exact a.known u hu chain hchain
    · obtain rfl := List.mem_singleton.1 hu
      obtain ⟨rfl, hone⟩ := a.inline hdone hplain hchain (hhead chain hchain) h
      exact ⟨List.lookup_cons_self, hone⟩

/-- When all typedefs are inlined, each is known with the shape of its chain. -/
theorem along_of_ofMembers (hlayered : Layered typedefs) (hplain : ∀ t ∈ typedefs, lastPart t.name = t.name)
    (h : Typedefs.ofMembers typedefs = .ok entries) : Typedefs.Along typedefs typedefs entries := by
  have hrun (done after : List Member) (start : Typedefs) (hsplit : typedefs = done ++ after)
      (a : Typedefs.Along typedefs done start) (h : after.foldlM (fun entries m => do
        return (m.name, ← entries.inline m) :: entries) start = .ok entries) :
      Typedefs.Along typedefs typedefs entries := by
    induction after generalizing done start with
    | nil =>
      cases h
      rwa [hsplit, List.append_nil] at a ⊢
    | cons t after ih =>
      obtain ⟨next, hnext, hrest⟩ := Steps.foldlM_cons_eq_ok.1 h
      obtain ⟨shape, hshape, hpure⟩ := Steps.bind_eq_ok.1 hnext
      cases hpure
      exact ih (done ++ [t]) _ (by simp [hsplit]) (a.step hlayered hplain hsplit hshape) hrest
  exact hrun [] typedefs [] rfl ⟨by simp, by simp⟩ h

end Along

/-! ## Fields -/

def Scope.Gets (s : Scope) : Literal → Value → Prop
  | .value w, v => v = w
  | .constant name, v => ∃ text, lookup? s.constants name = some ⟨v, text⟩

def Scope.GetsCount (s : Scope) : Option Literal → Option Nat → Prop :=
  Option.Rel fun l n => ∃ v, s.Gets l v ∧ v.count? = some n

/-- The variable of a member with a chain of typedefs: the type and the string bound are those of the last
member of the chain, and the array is the only one along it. -/
structure Scope.Lowers (s : Scope) (typedefs : List Member) (m : Member) (chain : List Member) (f : Field) :
    Prop where
  isVariable : f.isConstant = false
  name : f.name = m.name
  type : f.type = fieldType (m.last chain)
  unnamed : ∀ t ∈ typedefs, ¬ Names f.type t.name
  stringBound : s.GetsCount (m.last chain).stringBound f.stringBound
  array : match m.arrays chain with
    | [] => f.isArray = false ∧ f.arrayLength = none ∧ f.arrayBound = none
    | [a] => f.isArray = true ∧ s.GetsCount a.arrayLength f.arrayLength ∧ s.GetsCount a.arrayBound f.arrayBound
    | _ => False
  default : Option.Rel (fun l v => ∃ w, s.Gets l w ∧ Literal.coerce f.type f.isArray w = .ok v)
    m.defaultValue f.defaultValue

theorem slashes_eq_self {cs : List Char} (h : '/' ∉ slashes cs) : slashes cs = cs := by
  fun_induction slashes cs with
  | case1 => rfl
  | case2 rest => exact absurd List.mem_cons_self h
  | case3 c rest hnot ih => rw [ih fun hmem => h (List.mem_cons_of_mem c hmem)]

/-- The type of a field names a typedef only if the type it is written as does. -/
theorem not_names_fieldType {m : Member} {name : String} (hname : name.toList.all isNamePart = true)
    (htag : ∀ p : Primitive, name ≠ p.tag) (h : ¬ Names m.type name) :
    ¬ Names (Scope.fieldType m) name := by
  have hcolons : ¬ [':', ':'] <:+: (Scope.fieldType m).toList := by
    refine foldInterface_of (P := fun type => ¬ [':', ':'] <:+: type.toList) _ ?_ (by decide) (by decide)
      (by decide) (by decide)
    rw [String.toList_ofList]
    exact not_infix_slashes _
  have hne : Scope.fieldType m ≠ name := by
    refine foldInterface_of (P := fun type => type ≠ name) _ ?_ (htag .time).symm (htag .duration).symm
      (htag .uint8).symm (htag .int8).symm
    rintro rfl
    rw [String.toList_ofList] at hname
    have hslash : '/' ∉ slashes m.type.toList := fun hmem =>
      absurd (List.all_eq_true.1 hname '/' hmem) (by decide)
    rw [slashes_eq_self hslash, String.ofList_toList] at h
    exact h (.inl rfl)
  rintro (hnames | hnames)
  · exact hne hnames.symm
  · rw [lastPart_eq_self hcolons] at hnames
    exact hne hnames.symm

namespace Scope

variable {s : Scope} {parent field : String} {m : Member} {f : Field}

theorem gets_of_substitute {l : Literal} {c : ConstantValue} (h : s.substitute l field parent = .ok c) :
    s.Gets l c.value := by
  cases l with
  | value v =>
    cases h
    exact rfl
  | constant name => exact ⟨c.text, substitute_constant_eq_ok.1 h⟩

theorem getsCount_of_count {l : Option Literal} {n : Option Nat} (h : s.count l m parent = .ok n) :
    s.GetsCount l n := by
  rcases count_eq_ok.1 h with ⟨rfl, rfl⟩ | ⟨l, v, k, rfl, rfl, hv, hk⟩
  · exact .none
  · exact .some ⟨v.value, gets_of_substitute hv, hk⟩

theorem gets_of_default {l : Option Literal} {v : Option Value} {type : String} {isArray : Bool}
    (h : (l.mapM fun l => do
      let c ← s.substitute l field parent
      Literal.coerce type isArray c.value) = .ok v) :
    Option.Rel (fun l v => ∃ w, s.Gets l w ∧ Literal.coerce type isArray w = .ok v) l v := by
  cases l with
  | none =>
    cases h
    exact .none
  | some l =>
    obtain ⟨w, hw, rfl⟩ := Steps.map_eq_ok.1 h
    obtain ⟨c, hc, hcoerce⟩ := Steps.bind_eq_ok.1 hw
    exact .some ⟨c.value, gets_of_substitute hc, hcoerce⟩

/-- A field that is inlined along a chain is lowered from it. -/
theorem lowers_of_variableField {typedefs chain : List Member}
    (hwritten : ∀ t ∈ typedefs, t.Written) (hlayered : Layered typedefs)
    (hinline : ∀ shape, s.typedefs.inline m = .ok shape → shape = m.along chain ∧ (m.arrays chain).length ≤ 1)
    (hchain : Chain typedefs m chain) (h : s.variableField parent m = .ok f) : s.Lowers typedefs m chain f := by
  obtain ⟨shape, hshape, bound, hbound, length, hlength, most, hmost, default, hdefault, rfl⟩ :=
    variableField_eq_ok.1 h
  obtain ⟨rfl, hone⟩ := hinline shape hshape
  have hunnamed : ∀ t ∈ typedefs, ¬ Names (fieldType (m.last chain)) t.name := fun t ht =>
    not_names_fieldType (hwritten t ht).name (hlayered.untagged t ht) (hchain.unnamed_last t ht)
  have hisArray := m.isArray_along chain
  match harrays : m.arrays chain with
  | [] =>
    rw [harrays, List.isEmpty_nil, Bool.not_true] at hisArray
    rw [hisArray] at hdefault ⊢
    exact ⟨rfl, rfl, rfl, hunnamed, getsCount_of_count hbound, by rw [harrays]; exact ⟨rfl, rfl, rfl⟩,
      gets_of_default hdefault⟩
  | [a] =>
    rw [harrays, List.isEmpty_cons, Bool.not_false] at hisArray
    have hlength : s.GetsCount a.arrayLength length := by
      simpa [Member.along, harrays] using getsCount_of_count hlength
    have hmost : s.GetsCount a.arrayBound most := by
      simpa [Member.along, harrays] using getsCount_of_count hmost
    rw [hisArray] at hdefault ⊢
    exact ⟨rfl, rfl, rfl, hunnamed, getsCount_of_count hbound, by rw [harrays]; exact ⟨rfl, hlength, hmost⟩,
      gets_of_default hdefault⟩
  | a :: b :: rest => simp [harrays] at hone

end Scope

/-! ## Documents -/

def Node.HasField (root : Node) (m : Member) : Prop :=
  ∃ p ∈ root.postorder [], ∃ name children, p.node = .struct name children ∧ .field m ∈ children

def Scope.Follows (s : Scope) (typedefs : List Member) (node : Node) (f : Field) : Prop :=
  ∀ m, node = .field m →
    (∃ chain, Chain typedefs m chain) ∧ ∀ chain, Chain typedefs m chain → s.Lowers typedefs m chain f

/-- A definition that is named by a path, and whose variables are lowered from their chains. -/
structure Scope.Defines (s : Scope) (typedefs : List Member) (p : Place) (d : Definition) : Prop where
  name : d.name = some (joinPath p.path)
  fields : List.Forall₂ (s.Follows typedefs) (p.node.children.filter (·.isMember)) d.fields

theorem Scope.Lowers.length_arrays_le {s : Scope} {typedefs chain : List Member} {m : Member} {f : Field}
    (h : s.Lowers typedefs m chain f) : (m.arrays chain).length ≤ 1 := by
  have harray := h.array
  match harrays : m.arrays chain with
  | [] => exact Nat.zero_le 1
  | [a] => exact le_rfl
  | a :: b :: rest =>
    rw [harrays] at harray
    exact harray.elim

section Resolved

variable {root : Node} (hwritten : root.Written)
include hwritten

theorem lastPart_typedef : ∀ t ∈ root.typedefs, lastPart t.name = t.name := by
  intro t ht
  refine lastPart_eq_self fun hcolons => ?_
  have hcolon : ':' ∈ t.name.toList := hcolons.subset List.mem_cons_self
  exact absurd (List.all_eq_true.1 (hwritten.typedefs t ht).name ':' hcolon) (by decide)

variable (hlayered : Layered root.typedefs)
include hlayered

/-- The typedefs of a tree with a scope are inlined along their chains. -/
theorem along_of_ofNode {s : Scope} (hs : Scope.ofNode root = .ok s) :
    Typedefs.Along root.typedefs root.typedefs s.typedefs :=
  along_of_ofMembers hlayered (lastPart_typedef hwritten) (Scope.ofNode_eq_ok.1 hs).1

theorem follows_of_field? {s : Scope} (hs : Scope.ofNode root = .ok s) {parent : String} {node : Node}
    {f : Field} (h : s.field? parent node = some (.ok f)) : s.Follows root.typedefs node f := by
  rintro m rfl
  refine ⟨hlayered.exists_chain m, fun chain hchain => ?_⟩
  have along := along_of_ofNode hwritten hlayered hs
  refine Scope.lowers_of_variableField hwritten.typedefs hlayered (fun shape hshape => ?_) hchain
    (Option.some.inj h)
  refine along.inline (List.Subset.refl _) (lastPart_typedef hwritten) hchain (fun t ht => ?_) hshape
  cases hchain with
  | plain => cases ht
  | link _ u rest mem =>
    cases ht
    exact mem

/-- The definitions of a tree are among those of its document, and lowered from their chains. -/
theorem defines_of_resolve {roots : List Node} (hroot : root ∈ roots) {defs : List Definition}
    (h : resolve roots = .ok defs) : ∃ s own, Scope.ofNode root = .ok s ∧ own <:+: defs ∧
      List.Forall₂ (s.Defines root.typedefs) (emitting (root.postorder [])) own := by
  obtain ⟨parts, hparts, hflat⟩ := Steps.bind_eq_ok.1 h
  cases hflat
  obtain ⟨own, hmem, hown⟩ := Steps.exists_of_mem_left (Steps.mapM_eq_ok_iff.1 hparts) hroot
  obtain ⟨s, hs, hflatten⟩ := Steps.bind_eq_ok.1 hown
  obtain ⟨before, after, rfl⟩ := List.append_of_mem hmem
  refine ⟨s, own, hs, ⟨before.flatten, after.flatten, by simp⟩, ?_⟩
  refine (Scope.forall₂_of_flatten hflatten).imp fun p d hd => ?_
  obtain ⟨hname, hfields⟩ := Scope.groupDefinition_eq_ok.1 hd
  exact ⟨hname, Scope.forall₂_members (fun _ _ _ => follows_of_field? hwritten hlayered hs) hfields⟩

end Resolved

/-- **Typedefs.** In a document whose typedefs refer to earlier ones only, a typedef or a field with two
arrays along its chain is an error; and each field of a struct has the type and the string bound at the end
of its chain, the one array along it, and its own name and default. -/
theorem typedefs_inlined {document : List Char} {roots : List Node} {root : Node}
    (hroots : nodes document = .ok roots) (hroot : root ∈ roots) (hlayered : Layered root.typedefs) :
    (∀ m chain, m ∈ root.typedefs ∨ root.HasField m → Chain root.typedefs m chain →
      2 ≤ (m.arrays chain).length → ∃ e, resolve roots = .error e) ∧
    ∀ defs, resolve roots = .ok defs → ∃ s own, Scope.ofNode root = .ok s ∧ own <:+: defs ∧
      List.Forall₂ (s.Defines root.typedefs) (emitting (root.postorder [])) own := by
  have hwritten := written_of_nodes hroots root hroot
  have hdefines (defs : List Definition) := @defines_of_resolve root hwritten hlayered roots hroot defs
  refine ⟨fun m chain hm hchain htwo => ?_, hdefines⟩
  cases hresolve : resolve roots with
  | error e => exact ⟨e, rfl⟩
  | ok defs =>
    obtain ⟨s, own, hs, -, hown⟩ := hdefines defs hresolve
    refine absurd htwo (Nat.not_le.2 (Nat.lt_succ_of_le ?_))
    rcases hm with hm | ⟨p, hp, name, children, hnode, hfield⟩
    · exact ((along_of_ofNode hwritten hlayered hs).known m hm chain hchain).2
    · have hemits : p.node.Emits := hnode ▸ .struct name children
      obtain ⟨d, -, hd⟩ := Steps.exists_of_mem_left hown (List.mem_filter.2 ⟨hp, by simpa using hemits⟩)
      have hmember : Node.field m ∈ p.node.children.filter (·.isMember) := by
        rw [hnode]
        exact List.mem_filter.2 ⟨hfield, rfl⟩
      obtain ⟨f, -, hf⟩ := Steps.exists_of_mem_left hd.fields hmember
      exact ((hf m rfl).2 chain hchain).length_arrays_le

def aliasText : String :=
  "module m \x7b typedef string<4> Name; typedef sequence<Name, 3> Names; typedef m::Names Alias; " ++
    "struct S \x7b Alias a; Name b[2]; @default(value=5) long c; \x7d; \x7d;"

def aliasTree : Node :=
  .module "m"
    [.typedef { type := "string", name := "Name", stringBound := some (.value (.uint 4)) },
      .typedef { type := "Name", name := "Names", isArray := true, arrayBound := some (.value (.uint 3)) },
      .typedef { type := "m::Names", name := "Alias" },
      .struct "S" [.field { type := "Alias", name := "a" },
        .field { type := "Name", name := "b", isArray := true, arrayLength := some (.value (.uint 2)) },
        .field { type := "int32", name := "c", defaultValue := some (.value (.int 5)) }]]

def aliasDefinitions : List Definition :=
  [⟨some "m/S",
    [{ type := "string", name := "a", isArray := true, arrayBound := some 3, stringBound := some 4 },
      { type := "string", name := "b", isArray := true, arrayLength := some 2, stringBound := some 4 },
      { type := "int32", name := "c", defaultValue := some (.int 5) }]⟩]

def rowMember : Member := { type := "int32", name := "Row", isArray := true, arrayLength := some (.value (.uint 2)) }

def gridField : Member := { type := "Row", name := "grid", isArray := true, arrayLength := some (.value (.uint 3)) }

def gridTree : Node := .module "m" [.typedef rowMember, .struct "S" [.field gridField]]

theorem typedefs_inlined_aliasTree :
    (nodes aliasText.toList = .ok [aliasTree] ∧ resolve [aliasTree] = .ok aliasDefinitions ∧
      ∃ s own, Scope.ofNode aliasTree = .ok s ∧ own <:+: aliasDefinitions ∧
        List.Forall₂ (s.Defines aliasTree.typedefs) (emitting (aliasTree.postorder [])) own) ∧
    nodes "module m \x7b typedef long Row[2]; struct S \x7b Row grid[3]; \x7d; \x7d;".toList = .ok [gridTree] ∧
      ∃ e, resolve [gridTree] = .error e := by
  have hnodes : nodes aliasText.toList = .ok [aliasTree] := by decide +kernel
  have hlayered : Layered aliasTree.typedefs :=
    ⟨by decide +kernel, fun t ht p => by revert t; cases p <;> decide +kernel, by decide +kernel⟩
  have hdefs : resolve [aliasTree] = .ok aliasDefinitions := by decide +kernel
  have hgrid : nodes "module m \x7b typedef long Row[2]; struct S \x7b Row grid[3]; \x7d; \x7d;".toList =
      .ok [gridTree] := by decide +kernel
  have hrow : Layered gridTree.typedefs :=
    ⟨by decide +kernel, fun t ht p => by revert t; cases p <;> decide +kernel, by decide +kernel⟩
  have hfield : gridTree.HasField gridField :=
    ⟨⟨["m", "S"], .struct "S" [.field gridField]⟩, by simp [gridTree, Node.postorder, postorderIn], "S",
      [.field gridField], rfl, List.mem_singleton_self _⟩
  have hchain : Chain gridTree.typedefs gridField [rowMember] :=
    .link _ _ [] (List.mem_singleton_self _) (by decide +kernel) (.plain _ (by decide +kernel))
  exact ⟨⟨hnodes, hdefs, (typedefs_inlined hnodes (List.mem_singleton_self _) hlayered).2 _ hdefs⟩, hgrid,
    (typedefs_inlined hgrid (List.mem_singleton_self _) hrow).1 _ _ (.inr hfield) hchain (by decide)⟩

end RosSchema.Idl

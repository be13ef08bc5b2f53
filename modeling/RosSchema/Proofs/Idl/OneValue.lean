import RosSchema.Proofs.Idl.Flattening
import RosSchema.Proofs.Idl.Solution

/-!
# The value that references receive

A constant is decoded once when the scope of its tree is made and once more when its own definition is.
All slots that refer to it receive the first value. The second is the same unless the constant is
itself a reference, to a name that has got another value in the meantime.
-/

namespace RosSchema.Idl

/-! ## Slots -/

inductive Slot where
  | value
  | default
  | arrayLength
  | arrayBound
  | stringBound
  deriving DecidableEq, Repr

namespace Slot

def literal (m : Member) : Slot → Option Literal
  | value => m.value
  | default => m.defaultValue
  | arrayLength => m.arrayLength
  | arrayBound => m.arrayBound
  | stringBound => m.stringBound

/-- A field holds a value in a slot, fitted to the type of the field or taken as a count. Only arrays
have the counts of arrays. -/
def Holds (m : Member) (f : Field) (v : Value) : Slot → Prop
  | value => ∃ w, Literal.coerce (Scope.fieldType m) false v = .ok w ∧ f.value = some w
  | default => ∃ w, Literal.coerce (Scope.fieldType m) m.isArray v = .ok w ∧ f.defaultValue = some w
  | arrayLength => ∃ n, v.count? = some n ∧ f.arrayLength = if m.isArray then some n else none
  | arrayBound => ∃ n, v.count? = some n ∧ f.arrayBound = if m.isArray then some n else none
  | stringBound => ∃ n, v.count? = some n ∧ f.stringBound = some n

end Slot

/-- The member that a node declares and the slots that are read from it. -/
def Node.slots? : Node → Option (Member × List Slot)
  | .constant m => some (m, [.value, .stringBound])
  | .field m => some (m, [.default, .arrayLength, .arrayBound, .stringBound])
  | _ => none

theorem Scope.count_constant {s : Scope} {reference parent : String} {m : Member} {n : Option Nat}
    {l : Option Literal} (hl : l = some (.constant reference)) (h : s.count l m parent = .ok n) :
    ∃ c k, lookup? s.constants reference = some c ∧ c.value.count? = some k ∧ n = some k := by
  subst hl
  rcases count_eq_ok.1 h with ⟨hnone, -⟩ | ⟨lit, c, k, hlit, rfl, hc, hk⟩
  · cases hnone
  · cases hlit
    exact ⟨c, k, substitute_constant_eq_ok.1 hc, hk, rfl⟩

/-- A slot with a reference holds what the reference stands for. -/
theorem Scope.holds_of_field? {s : Scope} {parent : String} {node : Node} {f : Field}
    (hf : s.field? parent node = some (.ok f)) {declared m : Member} {slots : List Slot}
    (hslots : node.slots? = some (declared, slots)) (hm : s.typedefs.inline declared = .ok m)
    {slot : Slot} (hslot : slot ∈ slots) {reference : String}
    (hl : slot.literal m = some (.constant reference)) :
    ∃ c, lookup? s.constants reference = some c ∧ slot.Holds m f c.value := by
  cases node with
  | module name children => cases hslots
  | struct name children => cases hslots
  | typedef m => cases hslots
  | constant declared =>
    cases hslots
    obtain ⟨m', hm', bound, hbound, -, l, hvalue, c, hc, value, hcoerce, rfl⟩ :=
      constantField_eq_ok.1 (Option.some.inj hf)
    cases hm.symm.trans hm'
    rcases List.mem_cons.1 hslot with rfl | hslot
    · cases hvalue.symm.trans hl
      exact ⟨c, substitute_constant_eq_ok.1 hc, value, hcoerce, rfl⟩
    · cases List.mem_singleton.1 hslot
      obtain ⟨c, k, hlookup, hk, rfl⟩ := count_constant hl hbound
      exact ⟨c, hlookup, k, hk, rfl⟩
  | field declared =>
    cases hslots
    obtain ⟨m', hm', bound, hbound, length, hlength, most, hmost, default, hdefault, rfl⟩ :=
      variableField_eq_ok.1 (Option.some.inj hf)
    cases hm.symm.trans hm'
    have hfour : slot = .default ∨ slot = .arrayLength ∨ slot = .arrayBound ∨ slot = .stringBound := by
      simpa using hslot
    rcases hfour with rfl | rfl | rfl | rfl
    · have hd : m.defaultValue = some (.constant reference) := hl
      rw [hd, Option.mapM_some] at hdefault
      obtain ⟨w, hw, rfl⟩ := Steps.map_eq_ok.1 hdefault
      obtain ⟨c, hc, hcoerce⟩ := Steps.bind_eq_ok.1 hw
      exact ⟨c, substitute_constant_eq_ok.1 hc, w, hcoerce, rfl⟩
    · obtain ⟨c, k, hlookup, hk, rfl⟩ := count_constant hl hlength
      refine ⟨c, hlookup, k, hk, ?_⟩
      cases m.isArray <;> rfl
    · obtain ⟨c, k, hlookup, hk, rfl⟩ := count_constant hl hmost
      refine ⟨c, hlookup, k, hk, ?_⟩
      cases m.isArray <;> rfl
    · obtain ⟨c, k, hlookup, hk, rfl⟩ := count_constant hl hbound
      exact ⟨c, hlookup, k, hk, rfl⟩

/-! ## Definitions of a tree -/

/-- The children of the definitions of a tree, each with the name of its definition. -/
def Node.emitted (root : Node) : List (String × Node) :=
  (root.groups []).flatMap fun group => group.2.map (joinPath group.1, ·)

/-- The children of a document's definitions are among the fields that the document resolves to. -/
theorem exists_field_of_emitted {nodes : List Node} {defs : List Definition}
    (hdefs : resolve nodes = .ok defs) {root : Node} (hroot : root ∈ nodes) :
    ∃ s, Scope.ofNode root = .ok s ∧ ∀ entry ∈ root.emitted, ∀ r, s.field? entry.1 entry.2 = some r →
      ∃ f, r = .ok f ∧ ∃ d ∈ defs, d.name = some entry.1 ∧ f ∈ d.fields := by
  obtain ⟨all, hall, hflat⟩ := Steps.bind_eq_ok.1 hdefs
  cases hflat
  obtain ⟨own, hown, hroot⟩ := Steps.exists_of_mem_left (Steps.mapM_eq_ok_iff.1 hall) hroot
  obtain ⟨s, hs, hflatten⟩ := Steps.bind_eq_ok.1 hroot
  refine ⟨s, hs, ?_⟩
  intro entry hentry r hr
  rw [Scope.flatten_eq, Steps.mapM_eq_ok_iff] at hflatten
  obtain ⟨group, hgroup, hchild⟩ := List.mem_flatMap.1 hentry
  obtain ⟨child, hmem, rfl⟩ := List.mem_map.1 hchild
  obtain ⟨d, hd, hdefinition⟩ := Steps.exists_of_mem_left hflatten hgroup
  obtain ⟨hname, hfields⟩ := Scope.groupDefinition_eq_ok.1 hdefinition
  obtain ⟨f, hf, rfl⟩ := Steps.exists_of_mem_left hfields (List.mem_filterMap.2 ⟨child, hmem, hr⟩)
  exact ⟨f, rfl, d, List.mem_flatten.2 ⟨own, hown, hd⟩, hname, hf⟩

/-- A reference stands for the constant of a name: by that name, or by its last part where it is not
the name of a constant itself. -/
def Node.StandsFor (root : Node) (reference name : String) : Prop :=
  reference = name ∨ (∀ d ∈ root.constants [], d.member.name ≠ reference) ∧ lastPart reference = name

/-- All that refers to a constant receives a value: the slots of the resolved fields hold it, and the
constants that are declared by such a reference were decoded from it. -/
structure Scope.Hands (s : Scope) (root : Node) (defs : List Definition) (name : String) (v : Value) :
    Prop where
  slots : ∀ entry ∈ root.emitted, ∀ declared slots, entry.2.slots? = some (declared, slots) →
    ∀ m, s.typedefs.inline declared = .ok m → ∀ slot ∈ slots, ∀ reference,
      slot.literal m = some (.constant reference) → root.StandsFor reference name →
      ∃ f, s.field? entry.1 entry.2 = some (.ok f) ∧
        (∃ d ∈ defs, d.name = some entry.1 ∧ f ∈ d.fields) ∧ slot.Holds m f v
  constants : ∀ d ∈ root.constants [], ∀ m, s.typedefs.inline d.member = .ok m → ∀ reference,
    m.value = some (.constant reference) → root.StandsFor reference name →
    ∃ w text, (d.member.name, ⟨w, text⟩) ∈ s.constants ∧
      Literal.coerce (Scope.fieldType m) false v = .ok w

/-- The values that were there when the constant of a name was decoded. -/
def valuesBefore (name : String) (values : List (String × ConstantValue)) :
    List (String × ConstantValue) :=
  (values.dropWhile (·.1 != name)).tail

/-- A constant that is declared by a reference has the same value by what the name stood for when the
constant was decoded and by what it stands for in the end. -/
def Scope.Steady (s : Scope) (x : Declared) : Prop :=
  ∀ m, s.typedefs.inline x.member = .ok m → ∀ reference, m.value = some (.constant reference) →
    ∀ old now, lookup? (valuesBefore x.member.name s.constants) reference = some old →
      lookup? s.constants reference = some now →
      Literal.coerce (Scope.fieldType m) false old.value =
        Literal.coerce (Scope.fieldType m) false now.value

/-! ## Names with one value -/

theorem count_append_cons {α : Type} [DecidableEq α] {as bs : List α} {a : α}
    (h : (as ++ a :: bs).count a ≤ 1) : a ∉ as ∧ a ∉ bs := by
  rw [List.count_append, List.count_cons_self] at h
  exact ⟨List.count_eq_zero.1 (by omega), List.count_eq_zero.1 (by omega)⟩

/-- The only value of a name is what the name stands for, and what is behind it was there before. -/
theorem valuesBefore_append {later earlier : List (String × ConstantValue)} {name : String}
    {v : ConstantValue} (h : ((later ++ (name, v) :: earlier).map Prod.fst).count name ≤ 1) :
    valuesBefore name (later ++ (name, v) :: earlier) = earlier ∧
      (later ++ (name, v) :: earlier).lookup name = some v := by
  rw [List.map_append, List.map_cons] at h
  have hlater := (count_append_cons h).1
  have hne : ∀ entry ∈ later, (entry.1 != name) = true := by
    intro entry hentry
    rw [bne_iff_ne]
    rintro rfl
    exact hlater (List.mem_map_of_mem hentry)
  constructor
  · rw [valuesBefore, List.dropWhile_append_of_pos hne, List.dropWhile_cons_of_neg (by simp)]
    rfl
  · exact List.lookup_eq_some_iff.2 ⟨later, earlier, rfl, fun entry hentry => by
      rw [bne_iff_ne, ne_comm, ← bne_iff_ne]
      exact hne entry hentry⟩

theorem lookup_of_count {values : List (String × ConstantValue)} {name : String} {v : ConstantValue}
    (h : (values.map Prod.fst).count name ≤ 1) (hmem : (name, v) ∈ values) :
    values.lookup name = some v := by
  obtain ⟨later, earlier, rfl⟩ := List.append_of_mem hmem
  exact (valuesBefore_append h).2

/-- An element that is counted once is at one index. -/
theorem index_unique {α : Type} [DecidableEq α] {l : List α} {a : α} (h : l.count a ≤ 1) {i j : Nat}
    (hi : l[i]? = some a) (hj : l[j]? = some a) : i = j := by
  induction l generalizing i j with
  | nil => simp at hi
  | cons b l ih =>
    have htail : b = a → a ∉ l := by
      rintro rfl hmem
      rw [List.count_cons_self] at h
      have := List.count_pos_iff.2 hmem
      omega
    cases i with
    | zero =>
      cases j with
      | zero => rfl
      | succ j =>
        rw [List.getElem?_cons_succ] at hj
        exact absurd (List.mem_of_getElem? hj) (htail (Option.some.inj hi))
    | succ i =>
      cases j with
      | zero =>
        rw [List.getElem?_cons_succ] at hi
        exact absurd (List.mem_of_getElem? hi) (htail (Option.some.inj hj))
      | succ j =>
        rw [List.getElem?_cons_succ] at hi hj
        rw [ih (Nat.le_trans List.count_le_count_cons h) hi hj]

namespace Node.StandsFor

variable {root : Node} {reference name : String}

theorem lookup?_eq (h : root.StandsFor reference name) {values : List (String × ConstantValue)}
    (hkeys : ∀ key ∈ values.map Prod.fst, ∃ d ∈ root.constants [], d.member.name = key)
    {v : ConstantValue} (hv : values.lookup name = some v) : lookup? values reference = some v := by
  rcases h with rfl | ⟨hnew, rfl⟩
  · exact lookup?_eq_some.2 (.inl hv)
  · refine lookup?_eq_some.2 (.inr ⟨lookup_eq_none_iff_not_mem.2 fun hmem => ?_, hv⟩)
    obtain ⟨d, hd, hname⟩ := hkeys reference hmem
    exact hnew d hd hname

theorem place?_eq (h : root.StandsFor reference name) {typedefs : Typedefs} {p : Nat} {x : Declared}
    (hp : (root.constants [])[p]? = some x) (hx : x.member.name = name)
    (hone : ((root.constants []).map (·.member.name)).count name ≤ 1) :
    Constants.place? ⟨typedefs, root.constants []⟩ reference = some p := by
  have hplace : (((root.constants []).map (·.member.name)).zipIdx.reverse).lookup name = some p := by
    have hindex : ((root.constants []).map (·.member.name))[p]? = some name := by
      rw [List.getElem?_map, hp, Option.map_some, hx]
    cases hq : (((root.constants []).map (·.member.name)).zipIdx.reverse).lookup name with
    | none => exact absurd (List.mem_of_getElem? hindex) (Constants.lookup_places_eq_none.1 hq)
    | some q => rw [index_unique hone hindex (Constants.lookup_places hq)]
  rcases h with rfl | ⟨hnew, rfl⟩
  · exact lookup?_eq_some.2 (.inl hplace)
  · refine lookup?_eq_some.2 (.inr ⟨Constants.lookup_places_eq_none.2 fun hmem => ?_, hplace⟩)
    obtain ⟨d, hd, hname⟩ := List.mem_map.1 hmem
    exact hnew d hd hname

end Node.StandsFor

namespace Constants.Built

variable {c : Constants} {done : Settled} {p : Nat} {x : Declared}

/-- A name of one constant has one value in a state with a history. -/
theorem count_name_le_one (h : c.Built done) (hp : c.declared[p]? = some x)
    (hone : c.names.count x.member.name ≤ 1) :
    (done.values.map Prod.fst).count x.member.name ≤ 1 := by
  refine (h.count_le_one (p := p) fun q d hq hname => ?_).2
  refine index_unique hone ?_ ?_
  · rw [names, List.getElem?_map, hq, Option.map_some, hname]
  · rw [names, List.getElem?_map, hp, Option.map_some]

/-- A constant that is declared by a reference was decoded from the value that the constant of that
name has in the end. -/
theorem decoded_from (h : c.Built done) (hp : c.declared[p]? = some x)
    (hone : c.names.count x.member.name ≤ 1) {v : ConstantValue}
    (hv : done.values.lookup x.member.name = some v) {q : Nat} {d : Declared}
    (hq : q ∈ done.places) (hd : c.declared[q]? = some d) {m : Member}
    (hm : c.typedefs.inline d.member = .ok m) {reference : String}
    (hl : m.value = some (.constant reference)) (hplace : c.place? reference = some p)
    (hlookup : ∀ values : List (String × ConstantValue),
      (∀ name ∈ values.map Prod.fst, name ∈ c.names) → ∀ w, values.lookup x.member.name = some w →
      lookup? values reference = some w) :
    ∃ w text, (d.member.name, ⟨w, text⟩) ∈ done.values ∧
      Literal.coerce (Scope.fieldType m) false v.value = .ok w := by
  obtain ⟨before, later, f, w, hbefore, hprepared, hf, hw, hvalues⟩ := h.split hq hd
  -- the constant of the name was settled before, with the only value that its name ever has
  have hsettled : p ∈ before.places :=
    hprepared m hm reference (by simp [Member.references, hl]) p hplace
  obtain ⟨start, rest, g, u, -, -, -, -, hstart⟩ := hbefore.split hsettled hp
  have hmem : (x.member.name, ⟨u, g.valueText⟩) ∈ before.values := by
    rw [hstart]
    simp
  have hlast : done.values.lookup x.member.name = some ⟨u, g.valueText⟩ := by
    refine lookup_of_count (h.count_name_le_one hp hone) ?_
    rw [hvalues]
    exact List.mem_append_right _ (List.mem_cons_of_mem _ hmem)
  cases hv.symm.trans hlast
  have hfirst := hlookup before.values hbefore.keys _
    (lookup_of_count (hbefore.count_name_le_one hp hone) hmem)
  refine ⟨w, f.valueText, by rw [hvalues]; simp, ?_⟩
  obtain ⟨m', hm', bound, -, -, l, hl', k, hk, value, hvalue, rfl⟩ := Scope.constantField_eq_ok.1 hf
  cases hm.symm.trans hm'
  cases hl.symm.trans hl'
  cases hfirst.symm.trans (Scope.substitute_constant_eq_ok.1 hk)
  cases hw
  exact hvalue

end Constants.Built

/-- A constant is emitted with the value it was decoded to exactly when it is steady. -/
theorem Scope.steady_iff {s : Scope} {x : Declared} {f g : Field} {u v : Value}
    (hf : s.constantField x.parent x.member = .ok f) (hu : f.value = some u)
    (hg : Scope.constantField ⟨s.typedefs, valuesBefore x.member.name s.constants⟩ x.parent x.member =
      .ok g) (hv : g.value = some v) : u = v ↔ s.Steady x := by
  obtain ⟨m, hm, bound, -, -, l, hl, now, hnow, value, hvalue, rfl⟩ := constantField_eq_ok.1 hf
  obtain ⟨m', hm', bound', -, -, l', hl', old, hold, value', hvalue', rfl⟩ := constantField_eq_ok.1 hg
  cases hm.symm.trans hm'
  cases hl.symm.trans hl'
  cases hu
  cases hv
  cases l with
  | value w =>
    cases hnow
    cases hold
    cases hvalue.symm.trans hvalue'
    refine iff_of_true rfl fun m' hm' reference hreference => ?_
    cases hm.symm.trans hm'
    rw [hl] at hreference
    cases hreference
  | constant reference =>
    have hnow := substitute_constant_eq_ok.1 hnow
    have hold := substitute_constant_eq_ok.1 hold
    constructor
    · rintro rfl m' hm' reference' hreference old' now' hold' hnow'
      cases hm.symm.trans hm'
      cases hl.symm.trans hreference
      cases hold.symm.trans hold'
      cases hnow.symm.trans hnow'
      rw [hvalue, hvalue']
    · intro hsteady
      have heq := hsteady m hm reference hl old now hold hnow
      rw [hvalue, hvalue'] at heq
      exact (Except.ok.inj heq).symm

/-- **One value for all references.** In a document that resolves, whatever refers to a constant whose
name is declared once receives one value. It is the value that the constant is emitted with exactly
when the constant is steady. -/
theorem references_receive {nodes : List Node} {defs : List Definition}
    (hdefs : resolve nodes = .ok defs) {root : Node} (hroot : root ∈ nodes) {x : Declared}
    (hx : x ∈ root.constants [])
    (hone : ((root.constants []).map (·.member.name)).count x.member.name = 1)
    (hemitted : (x.parent, Node.constant x.member) ∈ root.emitted) :
    ∃ s f u v, Scope.ofNode root = .ok s ∧
      s.constantField x.parent x.member = .ok f ∧ f.value = some u ∧
      (∃ d ∈ defs, d.name = some x.parent ∧ f ∈ d.fields) ∧
      s.Hands root defs x.member.name v ∧ (u = v ↔ s.Steady x) := by
  obtain ⟨s, hs, hfields⟩ := exists_field_of_emitted hdefs hroot
  obtain ⟨f, hf, hin⟩ := hfields _ hemitted _ rfl
  obtain ⟨u, hu⟩ := Scope.exists_value_of_constantField hf
  obtain ⟨done, hbuilt, hall, hvalues⟩ := Constants.built_of_values (Scope.ofNode_eq_ok.1 hs).2
  obtain ⟨p, hp⟩ := List.mem_iff_getElem?.1 hx
  obtain ⟨before, later, g, v, -, -, hg, hv, hsplit⟩ :=
    hbuilt.split (hall p (List.getElem?_eq_some_iff.1 hp).1) hp
  have hcount := hbuilt.count_name_le_one hp (Nat.le_of_eq hone)
  rw [hsplit] at hcount
  obtain ⟨hbefore, hlookup⟩ := valuesBefore_append hcount
  rw [← hsplit, ← hvalues] at hbefore hlookup
  refine ⟨s, f, u, v, hs, hf, hu, hin, ⟨?_, ?_⟩, ?_⟩
  · intro entry hentry declared slots hslots m hm slot hslot reference hl hstands
    have hnode : ∃ r, s.field? entry.1 entry.2 = some r := by
      cases hn : entry.2 with
      | constant m => exact ⟨_, rfl⟩
      | field m => exact ⟨_, rfl⟩
      | module name children => rw [hn] at hslots; cases hslots
      | struct name children => rw [hn] at hslots; cases hslots
      | typedef m => rw [hn] at hslots; cases hslots
    obtain ⟨r, hr⟩ := hnode
    obtain ⟨g', rfl, hin'⟩ := hfields entry hentry r hr
    obtain ⟨c, hc, hholds⟩ := Scope.holds_of_field? hr hslots hm hslot hl
    have hkeys : ∀ key ∈ s.constants.map Prod.fst, ∃ d ∈ root.constants [], d.member.name = key :=
      fun key hkey => Constants.mem_names.1 (hbuilt.keys key (hvalues ▸ hkey))
    cases hc.symm.trans (hstands.lookup?_eq hkeys hlookup)
    exact ⟨g', hr, hin', hholds⟩
  · intro d hd m hm reference hl hstands
    obtain ⟨q, hq⟩ := List.mem_iff_getElem?.1 hd
    rw [hvalues] at hlookup ⊢
    exact hbuilt.decoded_from hp (Nat.le_of_eq hone) hlookup
      (hall q (List.getElem?_eq_some_iff.1 hq).1) hq hm hl
      (hstands.place?_eq hp rfl (Nat.le_of_eq hone))
      fun values hkeys w hw => hstands.lookup?_eq (fun key hkey => Constants.mem_names.1 (hkeys key hkey)) hw
  · rw [← hbefore] at hg
    exact Scope.steady_iff hf hu hg hv

/-- Two modules declare one name, which a third constant refers to before either of them. -/
def twoNames : Node :=
  .module "m"
    [.module "c" [.constant { type := "int32", name := "X", value := some (.constant "N") }],
      .module "a" [.constant { type := "int32", name := "N", value := some (.value (.int 1)) }],
      .module "b" [.constant { type := "int32", name := "N", value := some (.value (.int 2)) }],
      .struct "S" [.field { type := "int32", name := "f", defaultValue := some (.constant "X") }]]

def onceNamed : Declared := ⟨{ type := "int32", name := "X", value := some (.constant "N") }, "m/c"⟩

def twoNamesDefinitions : List Definition :=
  [⟨some "m/c", [.constantOf "int32" "X" (.int 1) none]⟩,
    ⟨some "m/a", [.constantOf "int32" "N" (.int 1) none]⟩,
    ⟨some "m/b", [.constantOf "int32" "N" (.int 2) none]⟩,
    ⟨some "m/S", [{ Field.variableOf "int32" "f" with defaultValue := some (.int 2) }]⟩]

theorem references_receive_of_twoNames : ∃ s f u v, Scope.ofNode twoNames = .ok s ∧
    s.constantField "m/c" onceNamed.member = .ok f ∧ f.value = some u ∧
    (∃ d ∈ twoNamesDefinitions, d.name = some "m/c" ∧ f ∈ d.fields) ∧
    s.Hands twoNames twoNamesDefinitions "X" v ∧ (u = v ↔ s.Steady onceNamed) := by
  have hdefs : resolve [twoNames] = .ok twoNamesDefinitions := by decide +kernel
  have hx : onceNamed ∈ twoNames.constants [] := by decide +kernel
  have hpath : joinPath ["m", "c"] = onceNamed.parent := by decide +kernel
  have hfirst : twoNames.emitted[0]? = some (joinPath ["m", "c"], .constant onceNamed.member) := rfl
  rw [hpath] at hfirst
  exact references_receive hdefs List.mem_cons_self hx (by decide +kernel)
    (List.mem_of_getElem? hfirst)

/-- The field that refers to the constant has another value than the constant. -/
theorem stale_reference : resolve [twoNames] = .ok twoNamesDefinitions ∧
    ((twoNames.constants []).map (·.member.name)).count "X" = 1 ∧
    (∃ d ∈ twoNamesDefinitions, ∃ f ∈ d.fields, f.name = "X" ∧ f.value = some (.int 1)) ∧
    (∃ d ∈ twoNamesDefinitions, ∃ f ∈ d.fields, f.name = "f" ∧ f.defaultValue = some (.int 2)) := by
  decide +kernel

end RosSchema.Idl

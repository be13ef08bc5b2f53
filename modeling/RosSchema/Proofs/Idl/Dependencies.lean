import RosSchema.Proofs.Idl.Reordering
import RosSchema.Proofs.Idl.Solution

/-!
# Dependencies between constants

A constant depends on another one when its value, or the bound of its string type, is a reference that
names it. Where names are distinct, the constants of a tree have values unless a reference names no
constant, constants depend on each other in a circle or a literal does not fit its type, and the order
of the declarations has no part in it.
-/

namespace RosSchema.Idl

namespace Constants

variable {c : Constants}

/-- One constant refers to another, by its value or by the bound of its type. -/
def Depends (c : Constants) (a b : Declared) : Prop :=
  a ∈ c.declared ∧ b ∈ c.declared ∧ ∃ shape, c.typedefs.inline a.member = .ok shape ∧
    ∃ name ∈ shape.references, Names name b.member.name

/-- Some constant refers to a name that is not declared. -/
def Undeclared (c : Constants) : Prop :=
  ∃ d ∈ c.declared, ∃ shape, c.typedefs.inline d.member = .ok shape ∧
    ∃ name ∈ shape.references, ∀ e ∈ c.declared, ¬ Names name e.member.name

def Circular (c : Constants) : Prop := ∃ d, Relation.TransGen c.Depends d d

theorem Distinct.uses_of_depends (hc : c.Distinct) {a b : Declared} (h : c.Depends a b) :
    c.Uses (c.declared.idxOf a) (c.declared.idxOf b) := by
  obtain ⟨ha, hb, shape, hshape, name, hname, hnames⟩ := h
  exact ⟨a, shape, List.getElem?_idxOf ha, hshape, name, hname,
    hc.place?_eq_some (List.getElem?_idxOf hb) hnames⟩

theorem circular_of_uses {p : Nat} (h : Relation.TransGen c.Uses p p) : c.Circular := by
  let constant (p : Nat) : Declared := c.declared[p]?.getD ⟨{ type := "", name := "" }, ""⟩
  have hlift : ∀ p q, c.Uses p q → c.Depends (constant p) (constant q) := by
    rintro p q ⟨a, shape, ha, hshape, name, hname, hq⟩
    obtain ⟨b, hb, hnames⟩ := exists_of_place? hq
    have hpa : constant p = a := by simp [constant, ha]
    have hqb : constant q = b := by simp [constant, hb]
    rw [hpa, hqb]
    exact ⟨List.mem_of_getElem? ha, List.mem_of_getElem? hb, shape, hshape, name, hname, hnames⟩
  exact ⟨constant p, h.lift constant hlift⟩

/-- A document with values is not circular. -/
theorem not_circular_of_values (hc : c.Distinct) {values : List (String × ConstantValue)}
    (h : c.values = .ok values) : ¬ c.Circular := by
  rintro ⟨d, hd⟩
  obtain ⟨done, hbuilt, hall, -⟩ := built_of_values h
  have hcircle := hd.lift c.declared.idxOf fun _ _ => hc.uses_of_depends
  obtain ⟨q, hq, -⟩ := Relation.TransGen.head'_iff.1 hcircle
  obtain ⟨a, -, ha, -⟩ := hq
  exact hbuilt.acyclic (hall _ (List.getElem?_eq_some_iff.1 ha).1) hcircle

/-- Every reference of a document with values has a value. -/
theorem not_undeclared_of_values (hc : c.Distinct) {values : List (String × ConstantValue)}
    (h : c.values = .ok values) : ¬ c.Undeclared := by
  rintro ⟨d, hd, shape, hshape, name, hname, hnone⟩
  have s := solves_of_values hc h
  obtain ⟨f, v, hf, -, -⟩ := s.solved d hd
  obtain ⟨w, hw⟩ := Scope.lookup?_of_constantField hf hshape name hname
  rw [lookup?_eq_none_of_place? s.keys (place?_eq_none.2 hnone)] at hw
  cases hw

/-- Every constant of a document with values has a type that can be inlined. -/
theorem exists_inline_of_values (hc : c.Distinct) {values : List (String × ConstantValue)}
    (h : c.values = .ok values) {d : Declared} (hd : d ∈ c.declared) :
    ∃ shape, c.typedefs.inline d.member = .ok shape := by
  obtain ⟨f, -, hf, -, -⟩ := (solves_of_values hc h).solved d hd
  obtain ⟨shape, hshape, -⟩ := Scope.constantField_eq_ok.1 hf
  exact ⟨shape, hshape⟩

/-- With every name declared and without circles, no constant misses another one. -/
theorem not_isUnresolved_of_values (hc : c.Distinct) (hdeclared : ¬ c.Undeclared)
    (hacyclic : ¬ c.Circular) {e : Error} (h : c.values = .error e) : ¬ IsUnresolved e := by
  intro he
  cases blamed_of_values h with
  | circle hcircle => exact hacyclic (circular_of_uses hcircle)
  | misshapen mem bad => exact not_isUnresolved_of_inline bad he
  | @undecodable done d shape e built mem inlined prepared bad =>
    obtain ⟨shape', hshape', name, hname, hnone⟩ := Scope.constantField_eq_error bad he
    cases inlined.symm.trans hshape'
    cases hplace : c.place? name with
    | none => exact hdeclared ⟨d, mem, shape, inlined, name, hname, place?_eq_none.1 hplace⟩
    | some q =>
      obtain ⟨b, hb, hnames⟩ := exists_of_place? hplace
      obtain ⟨f, v, -, -, hlookup⟩ := built.solved hc q (prepared name hname q hplace) b hb
      dsimp only at hnone
      rw [hc.lookup?_eq built.keys (List.mem_of_getElem? hb) hnames, hlookup] at hnone
      cases hnone

/-- The order of the declarations has no part in the values. -/
theorem values_of_perm {k : Constants} (hc : c.Distinct) (htypedefs : c.typedefs = k.typedefs)
    (hperm : c.declared.Perm k.declared) {values : List (String × ConstantValue)}
    (h : c.values = .ok values) :
    ∃ found, k.values = .ok found ∧ ∀ name, found.lookup name = values.lookup name := by
  have hnames : ∀ name, name ∈ c.names ↔ name ∈ k.names := fun name => (hperm.map _).mem_iff
  have hk : k.Distinct :=
    ⟨(hperm.map _).nodup_iff.1 hc.nodup, fun d hd => hc.plain d (hperm.mem_iff.2 hd)⟩
  have s := solves_of_values hc h
  have s' : k.Solves values := by
    refine ⟨fun name hname => (hnames name).1 (s.keys name hname), fun d hd => ?_⟩
    rw [← htypedefs]
    exact s.solved d (hperm.mem_iff.2 hd)
  refine values_of_solves hk (fun p hp => ?_) s'
  obtain ⟨d, hd⟩ := circular_of_uses hp
  refine not_circular_of_values hc h ⟨d, hd.lift id ?_⟩
  rintro a b ⟨ha, hb, shape, hshape, hname⟩
  exact ⟨hperm.mem_iff.2 ha, hperm.mem_iff.2 hb, shape, htypedefs ▸ hshape, hname⟩

end Constants

/-! ## Trees -/

structure Node.DistinctNames (root : Node) : Prop where
  nodup : ((root.constants []).map (·.member.name)).Nodup
  unscoped : ∀ d ∈ root.constants [], ¬ [':', ':'] <:+: d.member.name.toList

def Node.Undeclared (root : Node) : Prop :=
  ∃ typedefs, Typedefs.ofMembers root.typedefs = .ok typedefs ∧
    (Constants.mk typedefs (root.constants [])).Undeclared

def Node.Circular (root : Node) : Prop :=
  ∃ typedefs, Typedefs.ofMembers root.typedefs = .ok typedefs ∧
    (Constants.mk typedefs (root.constants [])).Circular

/-- Some typedef or some constant of a tree is an array of arrays, so that it is not known what the
constants refer to. -/
def Node.Misshapen (root : Node) : Prop :=
  (∃ e, Typedefs.ofMembers root.typedefs = .error e) ∨
    ∃ typedefs, Typedefs.ofMembers root.typedefs = .ok typedefs ∧
      ∃ d ∈ root.constants [], ∃ e, typedefs.inline d.member = .error e

/-- What a literal stands for: itself, or the value of the constant that it names. -/
def Scope.Denotes (s : Scope) (declared : List Declared) : Literal → Value → Prop
  | .value w, v => v = w
  | .constant name, v => ∃ d ∈ declared, Names name d.member.name ∧
      ∃ text, s.constants.lookup d.member.name = some ⟨v, text⟩

/-- The one value of a constant: the scope has it, the field of the constant has it, and it is what the
constant is declared with, fitted to its type. -/
structure Scope.Gives (s : Scope) (declared : List Declared) (d : Declared) (v : Value) : Prop where
  recorded : ∃ text, s.constants.lookup d.member.name = some ⟨v, text⟩
  emitted : ∃ f, s.constantField d.parent d.member = .ok f ∧ f.value = some v
  decoded : ∃ shape l w, s.typedefs.inline d.member = .ok shape ∧ shape.value = some l ∧
    s.Denotes declared l w ∧ Literal.coerce (Scope.fieldType shape) false w = .ok v

theorem Node.DistinctNames.distinct {root : Node} (h : root.DistinctNames) (typedefs : Typedefs) :
    (Constants.mk typedefs (root.constants [])).Distinct :=
  ⟨h.nodup, fun d hd => lastPart_eq_self (h.unscoped d hd)⟩

theorem not_isUnresolved_of_ofMembers {members : List Member} {e : Error}
    (h : Typedefs.ofMembers members = .error e) : ¬ IsUnresolved e := by
  have hstep (typedefs : Typedefs) (m : Member) : FailsWith (¬ IsUnresolved ·) (do
      return (m.name, ← typedefs.inline m) :: typedefs) :=
    FailsWith.bind (fun _ h => not_isUnresolved_of_inline h) fun _ => .ok _
  exact FailsWith.foldlM hstep members [] e h

/-- A tree without a scope is in no document that resolves. -/
theorem exists_error_of_ofNode {root : Node} {e : Error} (h : Scope.ofNode root = .error e)
    {roots : List Node} (hroot : root ∈ roots) : ∃ e, resolve roots = .error e := by
  cases hr : resolve roots with
  | error e => exact ⟨e, rfl⟩
  | ok defs =>
    obtain ⟨all, hall, -⟩ := Steps.bind_eq_ok.1 hr
    obtain ⟨own, -, hown⟩ := Steps.exists_of_mem_left (Steps.mapM_eq_ok_iff.1 hall) hroot
    rw [Node.definitions, h] at hown
    cases hown

/-- A constant of a tree with a scope has one value. -/
theorem Scope.exists_gives {root : Node} (h : root.DistinctNames) {s : Scope}
    (hs : Scope.ofNode root = .ok s) {d : Declared} (hd : d ∈ root.constants []) :
    ∃ v, s.Gives (root.constants []) d v := by
  obtain ⟨-, hvalues⟩ := Scope.ofNode_eq_ok.1 hs
  have hc := h.distinct s.typedefs
  have hsolves := Constants.solves_of_values hc hvalues
  obtain ⟨f, v, hf, hv, hlookup⟩ := hsolves.solved d hd
  refine ⟨v, ⟨_, hlookup⟩, ⟨f, hf, hv⟩, ?_⟩
  obtain ⟨shape, hshape, bound, -, -, l, hl, w, hw, value, hvalue, rfl⟩ :=
    Scope.constantField_eq_ok.1 hf
  cases hv
  refine ⟨shape, l, w.value, hshape, hl, ?_, hvalue⟩
  cases l with
  | value u =>
    cases hw
    exact rfl
  | constant name =>
    have hsome := Scope.substitute_constant_eq_ok.1 hw
    cases hplace : Constants.place? ⟨s.typedefs, root.constants []⟩ name with
    | none =>
      rw [Constants.lookup?_eq_none_of_place? hsolves.keys hplace] at hsome
      cases hsome
    | some p =>
      obtain ⟨b, hb, hnames⟩ := Constants.exists_of_place? hplace
      have hmem := List.mem_of_getElem? hb
      rw [hc.lookup?_eq hsolves.keys hmem hnames] at hsome
      exact ⟨b, hmem, hnames, w.text, hsome⟩

/-- Reordered trees have agreeing scopes. -/
theorem Scope.ofNode_of_reordered {root other : Node} (h : root.DistinctNames)
    (hre : Reordered [root] [other]) {s : Scope} (hs : Scope.ofNode root = .ok s) :
    ∃ t, Scope.ofNode other = .ok t ∧ s.Agrees t := by
  obtain ⟨htypedefs, hvalues⟩ := Scope.ofNode_eq_ok.1 hs
  have hperm : (root.constants []).Perm (other.constants []) := by
    simpa [constantsIn] using hre.constants_perm []
  have hsame : root.typedefs = other.typedefs := by simpa [typedefsIn] using hre.typedefs_eq
  obtain ⟨found, hfound, hlookup⟩ := Constants.values_of_perm
    (k := ⟨s.typedefs, other.constants []⟩) (h.distinct s.typedefs) rfl hperm hvalues
  exact ⟨⟨s.typedefs, found⟩, Scope.ofNode_eq_ok.2 ⟨hsame ▸ htypedefs, hfound⟩, rfl,
    fun name => (hlookup name).symm⟩

theorem Node.DistinctNames.of_reordered {root other : Node} (h : root.DistinctNames)
    (hre : Reordered [root] [other]) : other.DistinctNames := by
  have hperm : (root.constants []).Perm (other.constants []) := by
    simpa [constantsIn] using hre.constants_perm []
  exact ⟨(hperm.map _).nodup_iff.1 h.nodup, fun d hd => h.unscoped d (hperm.mem_iff.2 hd)⟩

theorem Node.definitions_of_reordered {root other : Node} (h : root.DistinctNames)
    (hre : Reordered [root] [other]) {defs : List Definition} (hdefs : root.definitions = .ok defs) :
    ∃ others, other.definitions = .ok others ∧ List.Forall₂ SameFields defs others := by
  have hflatten : ∀ (s : Scope) (node : Node), s.flattenAll [] [node] = s.flatten [] node := by
    intro s node
    rw [Scope.flattenAll_eq, Scope.flatten_eq, groupsIn, groupsIn, List.append_nil]
  obtain ⟨s, hs, hdefs⟩ := Steps.bind_eq_ok.1 hdefs
  obtain ⟨t, ht, hagrees⟩ := Scope.ofNode_of_reordered h hre hs
  rw [← hflatten] at hdefs
  obtain ⟨others, hothers, hsame⟩ := hagrees.flattenAll hre [] hdefs
  rw [hflatten] at hothers
  exact ⟨others, Steps.bind_eq_ok.2 ⟨t, ht, hothers⟩, hsame⟩

/-- A document with one tree replaced by one with the same fields has the same fields. -/
theorem resolve_related {root other : Node}
    (h : Steps.Related (List.Forall₂ SameFields) root.definitions other.definitions)
    (before after : List Node) :
    Steps.Related (List.Forall₂ SameFields) (resolve (before ++ root :: after))
      (resolve (before ++ other :: after)) := by
  have hrefl : ∀ defs : List Definition, List.Forall₂ SameFields defs defs :=
    fun defs => List.forall₂_same.2 fun d _ => SameFields.refl d
  simp only [resolve, List.mapM_append, List.mapM_cons]
  cases before.mapM Node.definitions with
  | error e => trivial
  | ok front =>
    cases hr : root.definitions with
    | error e =>
      cases ho : other.definitions with
      | error e' => trivial
      | ok others =>
        rw [hr, ho] at h
        exact h.elim
    | ok defs =>
      cases ho : other.definitions with
      | error e' =>
        rw [hr, ho] at h
        exact h.elim
      | ok others =>
        rw [hr, ho] at h
        cases after.mapM Node.definitions with
        | error e => trivial
        | ok back =>
          change List.Forall₂ SameFields (front ++ defs :: back).flatten (front ++ others :: back).flatten
          rw [List.flatten_append, List.flatten_append, List.flatten_cons, List.flatten_cons]
          exact List.rel_append (hrefl _) (List.rel_append h (hrefl _))

/-- **Constants resolve completely and in any order.** For every tree with distinct constant names
without two colons:

* it does not resolve if a constant refers to an undeclared name or depends on itself, nor if a typedef
  or a constant is an array of arrays;
* otherwise no constant is ever reported as unresolved;
* every constant has one value, its own literal or that of the constant it names, fitted to its type;
* constants in another order change neither success, nor a value, nor a field;
* the walk over its constants comes to an end from every state. -/
theorem constants_resolve (root : Node) (h : root.DistinctNames) :
    (root.Undeclared ∨ root.Circular ∨ root.Misshapen →
      ∀ roots : List Node, root ∈ roots → ∃ e, resolve roots = .error e) ∧
    (¬ root.Undeclared → ¬ root.Circular →
      ∀ e, Scope.ofNode root = .error e → ¬ IsUnresolved e) ∧
    (∀ s, Scope.ofNode root = .ok s →
      ∀ d ∈ root.constants [], ∃ v, s.Gives (root.constants []) d v) ∧
    (∀ other, Reordered [root] [other] →
      Steps.Related Scope.Agrees (Scope.ofNode root) (Scope.ofNode other) ∧
      ∀ before after, Steps.Related (List.Forall₂ SameFields) (resolve (before ++ root :: after))
        (resolve (before ++ other :: after))) ∧
    (∀ typedefs place done, Constants.Runs ⟨typedefs, root.constants []⟩ [] (.settle place) done
      (Constants.settle ⟨typedefs, root.constants []⟩ (root.constants []).length [] place done)) := by
  refine ⟨?_, ?_, fun s hs d hd => Scope.exists_gives h hs hd, ?_, ?_⟩
  · intro hwrong roots hroot
    cases hs : Scope.ofNode root with
    | error e => exact exists_error_of_ofNode hs hroot
    | ok s =>
      obtain ⟨htypedefs, hvalues⟩ := Scope.ofNode_eq_ok.1 hs
      rcases hwrong with ⟨typedefs, htypedefs', hwrong⟩ | ⟨typedefs, htypedefs', hwrong⟩ |
        ⟨e, he⟩ | ⟨typedefs, htypedefs', d, hd, e, he⟩
      · cases htypedefs.symm.trans htypedefs'
        exact absurd hwrong (Constants.not_undeclared_of_values (h.distinct _) hvalues)
      · cases htypedefs.symm.trans htypedefs'
        exact absurd hwrong (Constants.not_circular_of_values (h.distinct _) hvalues)
      · cases htypedefs.symm.trans he
      · cases htypedefs.symm.trans htypedefs'
        obtain ⟨shape, hshape⟩ := Constants.exists_inline_of_values (h.distinct _) hvalues hd
        cases hshape.symm.trans he
  · intro hdeclared hacyclic e he
    rcases Steps.bind_eq_error.1 he with he | ⟨typedefs, htypedefs, he⟩
    · exact not_isUnresolved_of_ofMembers he
    · rcases Steps.bind_eq_error.1 he with he | ⟨constants, -, he⟩
      · exact Constants.not_isUnresolved_of_values (h.distinct typedefs)
          (fun hu => hdeclared ⟨typedefs, htypedefs, hu⟩)
          (fun hcircle => hacyclic ⟨typedefs, htypedefs, hcircle⟩) he
      · cases he
  · intro other hre
    have h' := h.of_reordered hre
    refine ⟨Steps.related_of_ok (fun s hs => Scope.ofNode_of_reordered h hre hs) fun t ht => ?_,
      resolve_related (Steps.related_of_ok (fun defs hdefs =>
        Node.definitions_of_reordered h hre hdefs) fun defs hdefs => ?_)⟩
    · obtain ⟨s, hs, -⟩ := Scope.ofNode_of_reordered h' hre.symm ht
      exact ⟨s, hs⟩
    · obtain ⟨others, hothers, -⟩ := Node.definitions_of_reordered h' hre.symm hdefs
      exact ⟨others, hothers⟩
  · intro typedefs place done
    exact Constants.runs_of_start ⟨typedefs, root.constants []⟩ place done

def forwardReference : Node :=
  .module "m"
    [.constant { type := "uint8", name := "A", value := some (.constant "m::B") },
      .constant { type := "int32", name := "B", value := some (.value (.int 7)) }]

theorem constants_resolve_of_forwardReference : forwardReference.DistinctNames ∧
    ∃ s, Scope.ofNode forwardReference = .ok s ∧
      ∀ d ∈ forwardReference.constants [], ∃ v, s.Gives (forwardReference.constants []) d v := by
  have h : forwardReference.DistinctNames := ⟨by decide +kernel, by decide +kernel⟩
  have hs : Scope.ofNode forwardReference =
      .ok ⟨[], [("A", ⟨.uint 7, none⟩), ("B", ⟨.int 7, none⟩)]⟩ :=
    Scope.ofNode_eq_ok.2 ⟨by decide +kernel, by decide +kernel⟩
  exact ⟨h, _, hs, (constants_resolve forwardReference h).2.2.1 _ hs⟩

end RosSchema.Idl

import RosSchema.Proofs.Idl.History

/-!
# Values that solve a document

Values solve a document when every constant has the value that it is decoded to among them. Where names
are distinct, every state of a walk agrees with any solution, and the state at the end is one. So
the values are found exactly when there are some and no constants wait for each other.
-/

namespace RosSchema.Idl.Constants

variable {c : Constants}

/-! ## Facts of a history -/

theorem Built.keys {done : Settled} (h : c.Built done) :
    ∀ name ∈ done.values.map Prod.fst, name ∈ c.names := by
  induction h with
  | start => simp
  | add before new found inlined prepared field value ih =>
    intro name hname
    rcases List.mem_cons.1 hname with rfl | hname
    · exact mem_names.2 ⟨_, List.mem_of_getElem? found, rfl⟩
    · exact ih name hname

/-- What a settled constant uses is settled. -/
theorem Built.closed {done : Settled} (h : c.Built done) {p q : Nat} (hp : p ∈ done.places)
    (huse : c.Uses p q) : q ∈ done.places := by
  induction h with
  | start => simp at hp
  | add before new found inlined prepared field value ih =>
    rcases List.mem_cons.1 hp with rfl | hp
    · obtain ⟨d', shape', hd', hshape', name, hname, hq⟩ := huse
      cases found.symm.trans hd'
      cases inlined.symm.trans hshape'
      exact List.mem_cons_of_mem _ (prepared name hname q hq)
    · exact List.mem_cons_of_mem _ (ih hp)

/-- Every chain of uses from a settled constant comes to an end. -/
theorem Built.acc {done : Settled} (h : c.Built done) :
    ∀ p ∈ done.places, Acc (fun q p => c.Uses p q) p := by
  induction h with
  | start => simp
  | @add done place d shape f v before new found inlined prepared field value ih =>
    intro p hp
    rcases List.mem_cons.1 hp with rfl | hp
    · refine ⟨_, fun q ⟨d', shape', hd', hshape', name, hname, hq⟩ => ?_⟩
      cases found.symm.trans hd'
      cases inlined.symm.trans hshape'
      exact ih q (prepared name hname q hq)
    · exact ih p hp

/-- No settled constant waits for itself. -/
theorem Built.acyclic {done : Settled} (h : c.Built done) {p : Nat} (hp : p ∈ done.places) :
    ¬ Relation.TransGen c.Uses p p := by
  intro hcircle
  have hacc : ∀ q, Acc (fun q p => c.Uses p q) q → ¬ Relation.TransGen c.Uses q q := by
    intro q hq
    induction hq with
    | intro q _ ih =>
      intro hcircle
      obtain ⟨r, huse, hback⟩ := Relation.TransGen.head'_iff.1 hcircle
      exact ih r huse (Relation.TransGen.tail' hback huse)
  exact hacc p (h.acc p hp) hcircle

/-- A settled constant was decoded from an earlier state of the walk, in which its references were
settled, and its value stands in front of the values of that state. -/
theorem Built.split {done : Settled} (h : c.Built done) {p : Nat} (hp : p ∈ done.places)
    {d : Declared} (hd : c.declared[p]? = some d) : ∃ before later f v, c.Built before ∧
      (∀ shape, c.typedefs.inline d.member = .ok shape → c.Prepared before shape) ∧
      Scope.constantField ⟨c.typedefs, before.values⟩ d.parent d.member = .ok f ∧ f.value = some v ∧
      done.values = later ++ (d.member.name, ⟨v, f.valueText⟩) :: before.values := by
  induction h with
  | start => simp at hp
  | @add done place d' shape f v before new found inlined prepared field value ih =>
    rcases List.mem_cons.1 hp with rfl | hp
    · cases found.symm.trans hd
      refine ⟨done, [], f, v, before, fun shape' hshape' => ?_, field, value, rfl⟩
      cases inlined.symm.trans hshape'
      exact prepared
    · obtain ⟨start, later, f', v', hstart, hprepared, hf', hv', hvalues⟩ := ih hp
      exact ⟨start, (d'.member.name, ⟨v, f.valueText⟩) :: later, f', v', hstart, hprepared, hf', hv',
        by rw [Settled.values_add, hvalues]; rfl⟩

/-- A name that only one constant has gets one value at most. -/
theorem Built.count_le_one {done : Settled} (h : c.Built done) {name : String} {p : Nat}
    (hone : ∀ q d, c.declared[q]? = some d → d.member.name = name → q = p) :
    (p ∉ done.places → name ∉ done.values.map Prod.fst) ∧ (done.values.map Prod.fst).count name ≤ 1 := by
  induction h with
  | start => simp
  | @add done place d shape f v before new found inlined prepared field value ih =>
    obtain ⟨hnone, hcount⟩ := ih
    rw [Settled.places_add, Settled.values_add, List.map_cons]
    by_cases hname : d.member.name = name
    · have hplace := hone place d found hname
      subst hplace
      refine ⟨fun hnot => absurd List.mem_cons_self hnot, ?_⟩
      have hzero := List.count_eq_zero.2 (hnone new)
      rw [hname, List.count_cons_self]
      omega
    · refine ⟨fun hnot hmem => ?_, ?_⟩
      · rcases List.mem_cons.1 hmem with heq | hmem
        · exact hname heq.symm
        · exact hnone (fun hp => hnot (List.mem_cons_of_mem _ hp)) hmem
      · rwa [List.count_cons_of_ne (fun heq => hname heq)]

/-! ## Values under distinct names -/

/-- Among values of declared constants, a reference stands for the constant that it names. -/
theorem Distinct.lookup?_eq (hc : c.Distinct) {values : List (String × ConstantValue)}
    (hkeys : ∀ name ∈ values.map Prod.fst, name ∈ c.names) {reference : String} {d : Declared}
    (hd : d ∈ c.declared) (hname : Names reference d.member.name) :
    lookup? values reference = values.lookup d.member.name := by
  refine lookup?_eq_of_names (fun name hname => ?_) (hc.plain d hd) hname
  obtain ⟨e, he, rfl⟩ := mem_names.1 (hkeys name hname)
  exact hc.plain e he

/-- A reference that names no constant has no value. -/
theorem lookup?_eq_none_of_place? {values : List (String × ConstantValue)}
    (hkeys : ∀ name ∈ values.map Prod.fst, name ∈ c.names) {reference : String}
    (h : c.place? reference = none) : lookup? values reference = none := by
  rw [place?_eq_none] at h
  refine lookup?_eq_none_of_names fun name hname => ?_
  obtain ⟨d, hd, rfl⟩ := mem_names.1 (hkeys name hname)
  exact h d hd

/-- Values that agree on the settled constants decode a constant in the same way once its references
are settled. -/
theorem Built.constantField_eq (hc : c.Distinct) {done : Settled} (h : c.Built done)
    {values : List (String × ConstantValue)}
    (hkeys : ∀ name ∈ values.map Prod.fst, name ∈ c.names)
    (hagree : ∀ p ∈ done.places, ∀ d, c.declared[p]? = some d →
      values.lookup d.member.name = done.values.lookup d.member.name)
    {d : Declared} (hprepared : ∀ shape, c.typedefs.inline d.member = .ok shape →
      c.Prepared done shape) :
    Scope.constantField ⟨c.typedefs, values⟩ d.parent d.member =
      Scope.constantField ⟨c.typedefs, done.values⟩ d.parent d.member := by
  refine Scope.constantField_congr (s := ⟨c.typedefs, values⟩) (t := ⟨c.typedefs, done.values⟩) rfl
    (fun shape hshape name hname => ?_) d.parent
  dsimp only
  cases hplace : c.place? name with
  | none =>
    rw [lookup?_eq_none_of_place? hkeys hplace, lookup?_eq_none_of_place? h.keys hplace]
  | some q =>
    obtain ⟨e, he, hnames⟩ := exists_of_place? hplace
    have hmem := List.mem_of_getElem? he
    rw [hc.lookup?_eq hkeys hmem hnames, hc.lookup?_eq h.keys hmem hnames]
    exact hagree q (hprepared shape hshape name hname q hplace) e he

/-- What is settled is prepared. -/
theorem Built.prepared {done : Settled} (h : c.Built done) {p : Nat} (hp : p ∈ done.places)
    {d : Declared} (hd : c.declared[p]? = some d) :
    ∀ shape, c.typedefs.inline d.member = .ok shape → c.Prepared done shape :=
  fun shape hshape name hname _ hother => h.closed hp ⟨d, shape, hd, hshape, name, hname, hother⟩

/-- Each settled constant has the value that it is decoded to among the values of the state. -/
theorem Built.solved (hc : c.Distinct) {done : Settled} (h : c.Built done) :
    ∀ p ∈ done.places, ∀ d, c.declared[p]? = some d → ∃ f v,
      Scope.constantField ⟨c.typedefs, done.values⟩ d.parent d.member = .ok f ∧
      f.value = some v ∧ done.values.lookup d.member.name = some ⟨v, f.valueText⟩ := by
  induction h with
  | start => simp
  | @add done place d shape f v before new found inlined prepared field value ih =>
    intro p hp e he
    have hkeys := (Built.add before new found inlined prepared field value).keys
    -- the new name is none of those settled before
    have hagree : ∀ q ∈ done.places, ∀ e, c.declared[q]? = some e →
        ((d.member.name, ⟨v, f.valueText⟩) :: done.values).lookup e.member.name =
          done.values.lookup e.member.name := by
      intro q hq e he
      have hne : (e.member.name == d.member.name) = false := by
        rw [beq_eq_false_iff_ne]
        intro heq
        exact new (hc.place_eq he found heq ▸ hq)
      rw [List.lookup_cons, hne]
    rcases List.mem_cons.1 hp with rfl | hp
    · cases found.symm.trans he
      refine ⟨f, v, ?_, value, List.lookup_cons_self⟩
      rw [← field]
      refine before.constantField_eq hc hkeys hagree fun shape' hshape' => ?_
      cases inlined.symm.trans hshape'
      exact prepared
    · obtain ⟨f', v', hf', hv', hlookup⟩ := ih p hp e he
      refine ⟨f', v', ?_, hv', (hagree p hp e he).trans hlookup⟩
      rw [← hf']
      exact before.constantField_eq hc hkeys hagree (before.prepared hp he)

/-! ## Solutions -/

/-- Values of the declared constants, each the one that its constant is decoded to. -/
structure Solves (c : Constants) (values : List (String × ConstantValue)) : Prop where
  keys : ∀ name ∈ values.map Prod.fst, name ∈ c.names
  solved : ∀ d ∈ c.declared, ∃ f v,
    Scope.constantField ⟨c.typedefs, values⟩ d.parent d.member = .ok f ∧
    f.value = some v ∧ values.lookup d.member.name = some ⟨v, f.valueText⟩

/-- Two solutions by one lookup. -/
theorem lookup_eq_of_names {values others : List (String × ConstantValue)}
    (hkeys : ∀ name ∈ values.map Prod.fst, name ∈ c.names)
    (hkeys' : ∀ name ∈ others.map Prod.fst, name ∈ c.names)
    (h : ∀ d ∈ c.declared, values.lookup d.member.name = others.lookup d.member.name)
    (name : String) : values.lookup name = others.lookup name := by
  by_cases hname : name ∈ c.names
  · obtain ⟨d, hd, rfl⟩ := mem_names.1 hname
    exact h d hd
  · rw [lookup_eq_none_iff_not_mem.2 fun hmem => hname (hkeys name hmem),
      lookup_eq_none_iff_not_mem.2 fun hmem => hname (hkeys' name hmem)]

/-- Every state of a walk agrees with any solution. -/
theorem Built.agrees (hc : c.Distinct) {done : Settled} (h : c.Built done)
    {values : List (String × ConstantValue)} (s : c.Solves values) :
    ∀ p ∈ done.places, ∀ d, c.declared[p]? = some d →
      values.lookup d.member.name = done.values.lookup d.member.name := by
  induction h with
  | start => simp
  | @add done place d shape f v before new found inlined prepared field value ih =>
    intro p hp e he
    rcases List.mem_cons.1 hp with rfl | hp
    · cases found.symm.trans he
      obtain ⟨f', v', hf', hv', hlookup⟩ := s.solved d (List.mem_of_getElem? found)
      have heq := before.constantField_eq hc s.keys ih (d := d) fun shape' hshape' => by
        cases inlined.symm.trans hshape'
        exact prepared
      rw [heq, field] at hf'
      cases hf'
      cases value.symm.trans hv'
      rw [hlookup, Settled.values_add, List.lookup_cons_self]
    · have hne : (e.member.name == d.member.name) = false := by
        rw [beq_eq_false_iff_ne]
        intro heq
        exact new (hc.place_eq he found heq ▸ hp)
      rw [Settled.values_add, List.lookup_cons, hne]
      exact ih p hp e he

/-- The values of a document solve it. -/
theorem solves_of_values (hc : c.Distinct) {values : List (String × ConstantValue)}
    (h : c.values = .ok values) : c.Solves values := by
  obtain ⟨done, hbuilt, hall, rfl⟩ := built_of_values h
  refine ⟨hbuilt.keys, fun d hd => ?_⟩
  obtain ⟨p, hp⟩ := List.mem_iff_getElem?.1 hd
  exact hbuilt.solved hc p (hall p (List.getElem?_eq_some_iff.1 hp).1) d hp

/-- A document with a solution and without circles has values, which are those of the solution. -/
theorem values_of_solves (hc : c.Distinct) (hacyclic : ∀ p, ¬ Relation.TransGen c.Uses p p)
    {values : List (String × ConstantValue)} (s : c.Solves values) :
    ∃ found, c.values = .ok found ∧ ∀ name, found.lookup name = values.lookup name := by
  cases h : c.values with
  | ok found =>
    obtain ⟨done, hbuilt, hall, rfl⟩ := built_of_values h
    refine ⟨done.values, rfl, lookup_eq_of_names hbuilt.keys s.keys fun d hd => ?_⟩
    obtain ⟨p, hp⟩ := List.mem_iff_getElem?.1 hd
    exact (hbuilt.agrees hc s p (hall p (List.getElem?_eq_some_iff.1 hp).1) d hp).symm
  | error e =>
    exfalso
    cases blamed_of_values h with
    | circle hcircle => exact hacyclic _ hcircle
    | misshapen mem bad =>
      obtain ⟨f, v, hf, -, -⟩ := s.solved _ mem
      obtain ⟨m, hm, -⟩ := Scope.constantField_eq_ok.1 hf
      rw [bad] at hm
      cases hm
    | undecodable built mem inlined prepared bad =>
      obtain ⟨f, v, hf, -, -⟩ := s.solved _ mem
      rw [built.constantField_eq hc s.keys (built.agrees hc s) fun shape' hshape' => by
        cases inlined.symm.trans hshape'
        exact prepared] at hf
      rw [bad] at hf
      cases hf

end RosSchema.Idl.Constants

namespace RosSchema.Idl

theorem Scope.ofNode_eq_ok {root : Node} {s : Scope} : Scope.ofNode root = .ok s ↔
    Typedefs.ofMembers root.typedefs = .ok s.typedefs ∧
      Constants.values ⟨s.typedefs, root.constants []⟩ = .ok s.constants := by
  rw [Scope.ofNode, Steps.bind_eq_ok]
  constructor
  · rintro ⟨typedefs, htypedefs, h⟩
    obtain ⟨constants, hconstants, h⟩ := Steps.bind_eq_ok.1 h
    cases h
    exact ⟨htypedefs, hconstants⟩
  · rintro ⟨htypedefs, hconstants⟩
    exact ⟨s.typedefs, htypedefs, Steps.bind_eq_ok.2 ⟨s.constants, hconstants, rfl⟩⟩

end RosSchema.Idl

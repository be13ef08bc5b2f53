import RosSchema.Proofs.Idl.Fields

/-!
# The walk over constants

`Runs` is the walk that decodes constants after those they refer to, without a bound on its depth: a
derivation is a walk that comes to an end. `runs_settle` finds one for every constant of every
document, as no more constants can wait for each other than there are.
-/

namespace RosSchema.Idl

def Settled.add (done : Settled) (place : Nat) (name : String) (value : ConstantValue) : Settled :=
  ⟨place :: done.places, (name, value) :: done.values⟩

@[simp] theorem Settled.places_add (done : Settled) (place : Nat) (name : String)
    (value : ConstantValue) : (done.add place name value).places = place :: done.places := rfl

@[simp] theorem Settled.values_add (done : Settled) (place : Nat) (name : String)
    (value : ConstantValue) : (done.add place name value).values = (name, value) :: done.values := rfl

namespace Constants

inductive Task where
  | settle (place : Nat)
  | visit (d : Declared) (references : List String)

/-- The walk from a state to its outcome, with the places under way. -/
inductive Runs (c : Constants) : List Nat → Task → Settled → Except Error Settled → Prop where
  | known {underWay place done} (old : place ∈ done.places) :
      Runs c underWay (.settle place) done (.ok done)
  | absent {underWay place done} (gone : c.declared[place]? = none) :
      Runs c underWay (.settle place) done (.ok done)
  | misshapen {underWay place done d e} (new : place ∉ done.places)
      (found : c.declared[place]? = some d) (bad : c.typedefs.inline d.member = .error e) :
      Runs c underWay (.settle place) done (.error e)
  | blocked {underWay place done d shape e} (new : place ∉ done.places)
      (found : c.declared[place]? = some d) (inlined : c.typedefs.inline d.member = .ok shape)
      (visit : Runs c (place :: underWay) (.visit d shape.references) done (.error e)) :
      Runs c underWay (.settle place) done (.error e)
  | undecodable {underWay place done d shape mid e} (new : place ∉ done.places)
      (found : c.declared[place]? = some d) (inlined : c.typedefs.inline d.member = .ok shape)
      (visit : Runs c (place :: underWay) (.visit d shape.references) done (.ok mid))
      (bad : Scope.constantField ⟨c.typedefs, mid.values⟩ d.parent d.member = .error e) :
      Runs c underWay (.settle place) done (.error e)
  | decoded {underWay place done d shape mid f v} (new : place ∉ done.places)
      (found : c.declared[place]? = some d) (inlined : c.typedefs.inline d.member = .ok shape)
      (visit : Runs c (place :: underWay) (.visit d shape.references) done (.ok mid))
      (field : Scope.constantField ⟨c.typedefs, mid.values⟩ d.parent d.member = .ok f)
      (value : f.value = some v) :
      Runs c underWay (.settle place) done (.ok (mid.add place d.member.name ⟨v, f.valueText⟩))
  | finished {underWay d done} : Runs c underWay (.visit d []) done (.ok done)
  | undeclared {underWay d name names done r} (nowhere : c.place? name = none)
      (rest : Runs c underWay (.visit d names) done r) :
      Runs c underWay (.visit d (name :: names)) done r
  | circle {underWay d name names done other} (there : c.place? name = some other)
      (waiting : other ∈ underWay) :
      Runs c underWay (.visit d (name :: names)) done
        (.error (.unresolvedConstant name d.member.name d.parent))
  | failed {underWay d name names done other e} (there : c.place? name = some other)
      (free : other ∉ underWay) (walk : Runs c underWay (.settle other) done (.error e)) :
      Runs c underWay (.visit d (name :: names)) done (.error e)
  | went {underWay d name names done other mid r} (there : c.place? name = some other)
      (free : other ∉ underWay) (walk : Runs c underWay (.settle other) done (.ok mid))
      (rest : Runs c underWay (.visit d names) mid r) :
      Runs c underWay (.visit d (name :: names)) done r

/-- References are visited one after the other, each by its walk. -/
theorem runs_visit {c : Constants} {underWay : List Nat}
    {walk : Nat → Settled → Except Error Settled}
    (hwalk : ∀ other done, other ∉ underWay → Runs c underWay (.settle other) done (walk other done))
    (d : Declared) (names : List String) (done : Settled) :
    Runs c underWay (.visit d names) done (names.foldlM (fun done name =>
      match c.place? name with
      | none => .ok done
      | some other =>
        if other ∈ underWay then .error (.unresolvedConstant name d.member.name d.parent)
        else walk other done) done) := by
  induction names generalizing done with
  | nil => exact .finished
  | cons name names ih =>
    rw [List.foldlM_cons]
    cases hp : c.place? name with
    | none => exact .undeclared hp (ih done)
    | some other =>
      by_cases hother : other ∈ underWay
      · simp only [hother, ↓reduceIte]
        exact .circle hp hother
      · simp only [hother, ↓reduceIte]
        have hrun := hwalk other done hother
        cases hr : walk other done with
        | error e => exact .failed hp hother (hr ▸ hrun)
        | ok mid => exact .went hp hother (hr ▸ hrun) (ih mid)

/-- After its references a constant is decoded. -/
theorem Runs.settle_of_visit {c : Constants} {underWay : List Nat} {place : Nat} {done : Settled}
    {d : Declared} {shape : Member} {r : Except Error Settled} (new : place ∉ done.places)
    (found : c.declared[place]? = some d) (inlined : c.typedefs.inline d.member = .ok shape)
    (visit : Runs c (place :: underWay) (.visit d shape.references) done r) :
    Runs c underWay (.settle place) done (do
      let done ← r
      let field ← Scope.constantField ⟨c.typedefs, done.values⟩ d.parent d.member
      let values := match field.value with
        | some v => (d.member.name, ⟨v, field.valueText⟩) :: done.values
        | none => done.values
      return { places := place :: done.places, values }) := by
  cases r with
  | error e => exact .blocked new found inlined visit
  | ok mid =>
    cases hfield : Scope.constantField ⟨c.typedefs, mid.values⟩ d.parent d.member with
    | error e =>
      simp only [bind, Except.bind, hfield]
      exact .undecodable new found inlined visit hfield
    | ok f =>
      obtain ⟨v, hv⟩ := Scope.exists_value_of_constantField hfield
      simp only [bind, Except.bind, hfield, hv]
      exact .decoded new found inlined visit hfield hv

/-- No more places can be under way than there are constants. -/
theorem length_lt_of_not_mem {underWay : List Nat} {n place : Nat} (hnodup : underWay.Nodup)
    (hrange : ∀ p ∈ underWay, p < n) (hplace : place < n) (hnew : place ∉ underWay) :
    underWay.length < n := by
  have hsub : place :: underWay ⊆ List.range n := by
    intro p hp
    rcases List.mem_cons.1 hp with rfl | hp
    · exact List.mem_range.2 hplace
    · exact List.mem_range.2 (hrange p hp)
  have hle := (List.nodup_cons.2 ⟨hnew, hnodup⟩).length_le_of_subset hsub
  rw [List.length_cons, List.length_range] at hle
  omega

/-- **The walk ends.** A bound that the constants not under way do not exceed is never reached. -/
theorem runs_settle {c : Constants} {n : Nat} {underWay : List Nat} {place : Nat} (done : Settled)
    (hnodup : underWay.Nodup) (hrange : ∀ p ∈ underWay, p < c.declared.length)
    (hnew : place ∉ underWay) (hbound : c.declared.length ≤ n + underWay.length) :
    Runs c underWay (.settle place) done (c.settle n underWay place done) := by
  induction n generalizing underWay place done with
  | zero =>
    refine .absent (List.getElem?_eq_none_iff.2 ?_)
    by_contra hlt
    have := length_lt_of_not_mem hnodup hrange (by omega : place < c.declared.length) hnew
    omega
  | succ n ih =>
    rw [settle]
    split
    · next hold => exact .known hold
    next hold =>
    cases hfound : c.declared[place]? with
    | none => exact .absent hfound
    | some d =>
      have hplace : place < c.declared.length := (List.getElem?_eq_some_iff.1 hfound).1
      have hrange' : ∀ p ∈ place :: underWay, p < c.declared.length := by
        intro p hp
        rcases List.mem_cons.1 hp with rfl | hp
        · exact hplace
        · exact hrange p hp
      dsimp only
      cases hshape : c.typedefs.inline d.member with
      | error e => exact .misshapen hold hfound hshape
      | ok shape =>
        exact Runs.settle_of_visit hold hfound hshape (runs_visit (fun other done hother =>
          ih done (List.nodup_cons.2 ⟨hnew, hnodup⟩) hrange' hother (by rw [List.length_cons]; omega))
          d shape.references done)

end Constants

end RosSchema.Idl

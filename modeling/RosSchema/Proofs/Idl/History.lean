import Mathlib
import RosSchema.Proofs.Idl.Walk

/-!
# Histories of a walk

Every state of a walk has a history: its constants were added one by one, each decoded from the values
before it and after the constants it refers to. `Runs.grown` keeps the history along a walk, and
`Runs.blamed` finds what stopped a walk that failed: a circle, or one constant in a state with
a history.
-/

namespace RosSchema.Idl.Constants

variable {c : Constants}

def Uses (c : Constants) (p q : Nat) : Prop :=
  ∃ d shape, c.declared[p]? = some d ∧ c.typedefs.inline d.member = .ok shape ∧
    ∃ name ∈ shape.references, c.place? name = some q

/-- The references of a constant that stand for a constant are settled. -/
def Prepared (c : Constants) (done : Settled) (shape : Member) : Prop :=
  ∀ name ∈ shape.references, ∀ other, c.place? name = some other → other ∈ done.places

/-- The states of a walk, with the order in which their constants were added. -/
inductive Built (c : Constants) : Settled → Prop where
  | start : Built c {}
  | add {done place d shape f v} (before : Built c done) (new : place ∉ done.places)
      (found : c.declared[place]? = some d) (inlined : c.typedefs.inline d.member = .ok shape)
      (prepared : c.Prepared done shape)
      (field : Scope.constantField ⟨c.typedefs, done.values⟩ d.parent d.member = .ok f)
      (value : f.value = some v) :
      Built c (done.add place d.member.name ⟨v, f.valueText⟩)

def Task.Met (c : Constants) (done : Settled) : Task → Prop
  | .settle place => place < c.declared.length → place ∈ done.places
  | .visit _ names => ∀ name ∈ names, ∀ other, c.place? name = some other → other ∈ done.places

/-- A walk starts from a place that is not under way, and refers to what all places under way
use. -/
def Task.Allowed (c : Constants) (underWay : List Nat) : Task → Prop
  | .settle place => place ∉ underWay ∧ ∀ p ∈ underWay, Relation.TransGen c.Uses p place
  | .visit _ names => ∀ name ∈ names, ∀ other, c.place? name = some other →
      ∀ p ∈ underWay, Relation.TransGen c.Uses p other

/-- What a walk starts from: a state with a history in which nothing under way is settled. -/
structure Ready (c : Constants) (underWay : List Nat) (task : Task) (done : Settled) : Prop where
  built : c.Built done
  away : ∀ p ∈ underWay, p ∉ done.places
  allowed : task.Allowed c underWay

structure Grown (c : Constants) (underWay : List Nat) (task : Task) (done result : Settled) :
    Prop where
  built : c.Built result
  keeps : done.places ⊆ result.places
  away : ∀ p ∈ underWay, p ∉ result.places
  met : task.Met c result

/-- The references of a constant can be visited with its place under way. -/
theorem Ready.visit {underWay : List Nat} {place : Nat} {done : Settled} {d : Declared}
    {shape : Member} (r : Ready c underWay (.settle place) done) (new : place ∉ done.places)
    (found : c.declared[place]? = some d) (inlined : c.typedefs.inline d.member = .ok shape) :
    Ready c (place :: underWay) (.visit d shape.references) done where
  built := r.built
  away := by
    intro p hp
    rcases List.mem_cons.1 hp with rfl | hp
    · exact new
    · exact r.away p hp
  allowed := by
    intro name hname other hother p hp
    have huse : c.Uses place other := ⟨d, shape, found, inlined, name, hname, hother⟩
    rcases List.mem_cons.1 hp with rfl | hp
    · exact .single huse
    · exact (r.allowed.2 p hp).tail huse

/-- The first reference that stands for a constant can be walked to. -/
theorem Ready.walk {underWay : List Nat} {d : Declared} {name : String} {names : List String}
    {done : Settled} {other : Nat} (r : Ready c underWay (.visit d (name :: names)) done)
    (there : c.place? name = some other) (free : other ∉ underWay) :
    Ready c underWay (.settle other) done where
  built := r.built
  away := r.away
  allowed := ⟨free, r.allowed name List.mem_cons_self other there⟩

/-- The other references can be visited from any longer history. -/
theorem Ready.rest {underWay : List Nat} {d : Declared} {name : String} {names : List String}
    {done result : Settled} (r : Ready c underWay (.visit d (name :: names)) done)
    (built : c.Built result) (away : ∀ p ∈ underWay, p ∉ result.places) :
    Ready c underWay (.visit d names) result where
  built := built
  away := away
  allowed := fun n hn => r.allowed n (List.mem_cons_of_mem _ hn)

/-- A walk that succeeds keeps the history and settles what it set out to. -/
theorem Runs.grown {underWay : List Nat} {task : Task} {done : Settled}
    {outcome : Except Error Settled} (h : Runs c underWay task done outcome) {result : Settled}
    (hok : outcome = .ok result) (r : Ready c underWay task done) :
    Grown c underWay task done result := by
  induction h generalizing result with
  | known old =>
    cases hok
    exact ⟨r.built, List.Subset.refl _, r.away, fun _ => old⟩
  | absent gone =>
    cases hok
    refine ⟨r.built, List.Subset.refl _, r.away, fun hlt => ?_⟩
    have := List.getElem?_eq_none_iff.1 gone
    omega
  | misshapen => cases hok
  | blocked => cases hok
  | undecodable => cases hok
  | decoded new found inlined visit field value ih =>
    cases hok
    obtain ⟨built, keeps, away, met⟩ := ih rfl (r.visit new found inlined)
    refine ⟨.add built (away _ List.mem_cons_self) found inlined met field value, ?_, ?_, ?_⟩
    · exact fun p hp => List.mem_cons_of_mem _ (keeps hp)
    · intro p hp hmem
      rcases List.mem_cons.1 hmem with rfl | hmem
      · exact r.allowed.1 hp
      · exact away p (List.mem_cons_of_mem _ hp) hmem
    · exact fun _ => List.mem_cons_self
  | finished =>
    cases hok
    exact ⟨r.built, List.Subset.refl _, r.away, fun name hname => by simp at hname⟩
  | undeclared nowhere rest ih =>
    obtain ⟨built, keeps, away, met⟩ := ih hok (r.rest r.built r.away)
    refine ⟨built, keeps, away, ?_⟩
    intro name hname other hother
    rcases List.mem_cons.1 hname with rfl | hname
    · rw [nowhere] at hother
      cases hother
    · exact met name hname other hother
  | circle => cases hok
  | failed => cases hok
  | went there free walk rest ihwalk ihrest =>
    have hwalk := ihwalk rfl (r.walk there free)
    obtain ⟨built, keeps, away, met⟩ := ihrest hok (r.rest hwalk.built hwalk.away)
    refine ⟨built, List.Subset.trans hwalk.keeps keeps, away, ?_⟩
    intro name hname other hother
    rcases List.mem_cons.1 hname with rfl | hname
    · rw [there] at hother
      cases hother
      exact keeps (hwalk.met (lt_of_place? there))
    · exact met name hname other hother

inductive Blamed (c : Constants) : Error → Prop where
  | circle {p name field parent} (h : Relation.TransGen c.Uses p p) :
      Blamed c (.unresolvedConstant name field parent)
  | misshapen {d e} (mem : d ∈ c.declared) (bad : c.typedefs.inline d.member = .error e) : Blamed c e
  | undecodable {done d shape e} (built : c.Built done) (mem : d ∈ c.declared)
      (inlined : c.typedefs.inline d.member = .ok shape) (prepared : c.Prepared done shape)
      (bad : Scope.constantField ⟨c.typedefs, done.values⟩ d.parent d.member = .error e) :
      Blamed c e

/-- A walk that fails does so at a circle or at a constant whose references are settled. -/
theorem Runs.blamed {underWay : List Nat} {task : Task} {done : Settled}
    {outcome : Except Error Settled} (h : Runs c underWay task done outcome) {e : Error}
    (herror : outcome = .error e) (r : Ready c underWay task done) : c.Blamed e := by
  induction h generalizing e with
  | known => cases herror
  | absent => cases herror
  | misshapen new found bad =>
    cases herror
    exact .misshapen (List.mem_of_getElem? found) bad
  | blocked new found inlined visit ih => exact ih herror (r.visit new found inlined)
  | undecodable new found inlined visit bad ih =>
    cases herror
    have hvisit := visit.grown rfl (r.visit new found inlined)
    exact .undecodable hvisit.built (List.mem_of_getElem? found) inlined hvisit.met bad
  | decoded => cases herror
  | finished => cases herror
  | undeclared nowhere rest ih => exact ih herror (r.rest r.built r.away)
  | circle there waiting =>
    cases herror
    exact .circle (r.allowed _ List.mem_cons_self _ there _ waiting)
  | failed there free walk ih => exact ih herror (r.walk there free)
  | went there free walk rest ihwalk ihrest =>
    have hwalk := walk.grown rfl (r.walk there free)
    exact ihrest herror (r.rest hwalk.built hwalk.away)

/-! ## The walk over all places -/

theorem ready_start (place : Nat) {done : Settled} (h : c.Built done) :
    Ready c [] (.settle place) done :=
  ⟨h, by simp, by simp, by simp⟩

theorem runs_of_start (c : Constants) (place : Nat) (done : Settled) :
    Runs c [] (.settle place) done (c.settle c.declared.length [] place done) :=
  runs_settle done List.nodup_nil (by simp) (by simp) (by simp)

/-- The values of a document are those of a state with a history in which all constants are
settled. -/
theorem built_of_values {values : List (String × ConstantValue)} (h : c.values = .ok values) :
    ∃ done, c.Built done ∧ (∀ p < c.declared.length, p ∈ done.places) ∧ values = done.values := by
  obtain ⟨done, hdone, hvalues⟩ := Steps.bind_eq_ok.1 h
  cases hvalues
  have hgrown : ∀ places : List Nat, ∀ start : Settled, c.Built start →
      places.foldlM (fun done place => c.settle c.declared.length [] place done) start = .ok done →
      c.Built done ∧ start.places ⊆ done.places ∧
        ∀ p ∈ places, p < c.declared.length → p ∈ done.places := by
    intro places
    induction places with
    | nil =>
      intro start hstart hfold
      cases hfold
      exact ⟨hstart, List.Subset.refl _, by simp⟩
    | cons place places ih =>
      intro start hstart hfold
      obtain ⟨mid, hmid, hfold⟩ := Steps.foldlM_cons_eq_ok.1 hfold
      have hrun := (runs_of_start c place start).grown hmid (ready_start place hstart)
      obtain ⟨hbuilt, hkeeps, hmet⟩ := ih mid hrun.built hfold
      refine ⟨hbuilt, List.Subset.trans hrun.keeps hkeeps, ?_⟩
      intro p hp hlt
      rcases List.mem_cons.1 hp with rfl | hp
      · exact hkeeps (hrun.met hlt)
      · exact hmet p hp hlt
  obtain ⟨hbuilt, -, hmet⟩ := hgrown _ _ .start hdone
  exact ⟨done, hbuilt, fun p hp => hmet p (List.mem_range.2 hp) hp, rfl⟩

/-- A document without values has a circle or a constant that cannot be decoded. -/
theorem blamed_of_values {e : Error} (h : c.values = .error e) : c.Blamed e := by
  rcases Steps.bind_eq_error.1 h with h | ⟨done, -, h⟩
  · have hgrown : ∀ places : List Nat, ∀ start : Settled, c.Built start →
        places.foldlM (fun done place => c.settle c.declared.length [] place done) start = .error e →
        c.Blamed e := by
      intro places
      induction places with
      | nil =>
        intro start hstart hfold
        cases hfold
      | cons place places ih =>
        intro start hstart hfold
        rw [List.foldlM_cons] at hfold
        have hrun := runs_of_start c place start
        rcases Steps.bind_eq_error.1 hfold with hfold | ⟨mid, hmid, hfold⟩
        · exact hrun.blamed hfold (ready_start place hstart)
        · exact ih mid (hrun.grown hmid (ready_start place hstart)).built hfold
    exact hgrown _ _ .start h
  · cases h

end RosSchema.Idl.Constants

import RosSchema.Proofs.Bundle.Gather

/-!
# The loop over needed types

`Walks` is the loop that collects a bundle, without a bound on its steps: it asks for the next name that
was met, and goes on with the names that the text of that name needs. A library that knows finitely many
names ends every loop, with the names in the order in which the texts before them use them, and with what
is wrong with the last one if anything is.
-/

namespace RosSchema

/-! ## Names met -/

theorem meet_append (met names others : List String) :
    meet met (names ++ others) = meet (meet met names) others :=
  List.foldl_append

/-- Names met from the start are the names without those that came before. -/
theorem meet_nil (names : List String) : meet [] names = names.eraseDups := by
  induction names using List.reverseRecOn with
  | nil => rfl
  | append_singleton names name ih =>
    rw [meet_append, ih, List.eraseDups_append]
    by_cases hname : name ∈ names
    · simp [meet, List.removeAll, hname]
    · simp [meet, List.removeAll, hname, List.eraseDups_cons]

/-! ## Names in a library -/

namespace Library

variable {library : Library} {d : Dialect} {name text : String} {needed : List String}

structure Reads (library : Library) (d : Dialect) (name text : String) (needed : List String) :
    Prop where
  found : library.find name = .ok (some text)
  needs : neededTypes d (packageOf name) text = .ok needed

inductive Fails (library : Library) (d : Dialect) (name : String) : BundleError → Prop where
  | library (message : String) (find : library.find name = .error message) :
      Fails library d name (.library message)
  | notFound (find : library.find name = .ok none) : Fails library d name (.notFound name)
  | parse (text : String) (cause : Error) (find : library.find name = .ok (some text))
      (wrong : neededTypes d (packageOf name) text = .error cause) :
      Fails library d name (.parse s!"definition of {name}" cause)

theorem Reads.unique {text' : String} {needed' : List String} (h : library.Reads d name text needed)
    (h' : library.Reads d name text' needed') : text = text' ∧ needed = needed' := by
  obtain rfl : text = text' := Option.some.inj (Except.ok.inj (h.found.symm.trans h'.found))
  exact ⟨rfl, Except.ok.inj (h.needs.symm.trans h'.needs)⟩

theorem Fails.unique {e e' : BundleError} (h : library.Fails d name e) (h' : library.Fails d name e') :
    e = e' := by
  cases h <;> cases h' <;> simp_all

theorem Reads.not_fails {e : BundleError} (h : library.Reads d name text needed) :
    ¬ library.Fails d name e := by
  obtain ⟨hfind, hneeds⟩ := h
  intro hfails
  cases hfails <;> simp_all

/-- The names that the text of a name needs, if it has one that can be read. -/
def uses (library : Library) (d : Dialect) (name : String) : List String :=
  match library.find name with
  | .ok (some text) => (neededTypes d (packageOf name) text).toOption.getD []
  | _ => []

theorem Reads.uses_eq (h : library.Reads d name text needed) : library.uses d name = needed := by
  rw [uses, h.found]
  simp only [h.needs]
  rfl

/-- No more names than a number have a text or an error. -/
def AtMost (library : Library) (n : Nat) : Prop :=
  ∀ names : List String, names.Nodup → (∀ name ∈ names, library.find name ≠ .ok none) → names.length ≤ n

theorem atMost_ofList (texts : List (String × String)) : (Library.ofList texts).AtMost texts.length := by
  intro names hnodup hknown
  have hsub : names ⊆ texts.map Prod.fst := by
    intro name hname
    have hlookup : texts.lookup name ≠ none := fun hnone => hknown name hname (congrArg Except.ok hnone)
    obtain ⟨text, htext⟩ := Option.ne_none_iff_exists'.1 hlookup
    obtain ⟨before, after, rfl, -⟩ := List.lookup_eq_some_iff.1 htext
    simp
  rw [← List.length_map (f := Prod.fst)]
  exact (List.subperm_of_subset hnodup hsub).length_le

end Library

/-! ## The loop -/

/-- From a position in the names that were met, the names that the loop asks for and the texts that it
collects, or what is wrong with the last name. -/
inductive Walks (d : Dialect) (library : Library) : Nat → List String → List String →
    Except BundleError (List (String × String)) → Prop where
  | done {position : Nat} {met : List String} (stop : met[position]? = none) :
      Walks d library position met [] (.ok [])
  | failed {position : Nat} {met : List String} {name : String} {e : BundleError}
      (next : met[position]? = some name) (fails : library.Fails d name e) :
      Walks d library position met [name] (.error e)
  | found {position : Nat} {met asked needed : List String} {name text : String}
      {texts : Except BundleError (List (String × String))} (next : met[position]? = some name)
      (reads : library.Reads d name text needed)
      (rest : Walks d library (position + 1) (meet met needed) asked texts) :
      Walks d library position met (name :: asked) (texts.map ((name, text) :: ·))

namespace Walks

variable {d : Dialect} {library : Library} {position : Nat} {met asked : List String}
  {texts : Except BundleError (List (String × String))}

/-- The loop has one outcome at most. -/
theorem unique (h : Walks d library position met asked texts) {asked' : List String}
    {texts' : Except BundleError (List (String × String))} (h' : Walks d library position met asked' texts') :
    asked = asked' ∧ texts = texts' := by
  induction h generalizing asked' texts' with
  | done stop =>
    cases h' with
    | done => exact ⟨rfl, rfl⟩
    | failed next => cases stop.symm.trans next
    | found next => cases stop.symm.trans next
  | failed next fails =>
    cases h' with
    | done stop => cases stop.symm.trans next
    | failed next' fails' =>
      cases next.symm.trans next'
      exact ⟨rfl, congrArg Except.error (fails.unique fails')⟩
    | found next' reads =>
      cases next.symm.trans next'
      exact absurd fails reads.not_fails
  | found next reads _ ih =>
    cases h' with
    | done stop => cases stop.symm.trans next
    | failed next' fails =>
      cases next.symm.trans next'
      exact absurd fails reads.not_fails
    | found next' reads' rest' =>
      cases next.symm.trans next'
      obtain ⟨rfl, rfl⟩ := reads.unique reads'
      obtain ⟨rfl, rfl⟩ := ih rest'
      exact ⟨rfl, rfl⟩

/-- A loop with an error ends at the first name that has no text or one that cannot be read. -/
theorem fails_last (h : Walks d library position met asked texts) {e : BundleError} (he : texts = .error e) :
    ∃ before last, asked = before ++ [last] ∧
      (∀ name ∈ before, ∃ text needed, library.Reads d name text needed) ∧ library.Fails d last e := by
  induction h with
  | done => cases he
  | failed _ fails =>
    cases he
    exact ⟨[], _, rfl, by simp, fails⟩
  | @found _ _ _ needed name text others _ reads _ ih =>
    have hothers : others = .error e := by
      cases others with
      | error e' => exact he
      | ok found => cases he
    obtain ⟨before, last, rfl, hbefore, hfails⟩ := ih hothers
    exact ⟨name :: before, last, rfl, List.forall_mem_cons.2 ⟨⟨text, needed, reads⟩, hbefore⟩, hfails⟩

end Walks

/-! ## Termination -/

/-- The names that were asked for are known to a library, which knows no more of them than steps are
left. -/
structure Within (library : Library) (steps position : Nat) (met : List String) : Prop where
  nodup : met.Nodup
  known : ∀ name ∈ met.take position, library.find name ≠ .ok none
  enough : library.AtMost (steps + position)

namespace Within

variable {library : Library} {steps position : Nat} {met : List String} {name : String}

/-- A known name after known names. -/
theorem known_succ (h : Within library steps position met) (next : met[position]? = some name)
    (hname : library.find name ≠ .ok none) :
    position < met.length ∧ ∀ other ∈ met.take (position + 1), library.find other ≠ .ok none := by
  obtain ⟨hlt, rfl⟩ := List.getElem?_eq_some_iff.1 next
  refine ⟨hlt, fun other hother => ?_⟩
  rw [List.take_succ_eq_append_getElem hlt] at hother
  rcases List.mem_append.1 hother with hother | hother
  · exact h.known other hother
  · rwa [List.mem_singleton.1 hother]

/-- With no step left the next name is unknown. -/
theorem find_eq_none (h : Within library 0 position met) (next : met[position]? = some name) :
    library.find name = .ok none := by
  by_contra hname
  obtain ⟨hlt, hknown⟩ := h.known_succ next hname
  have hlength := h.enough _ (h.nodup.sublist (List.take_sublist (position + 1) met)) hknown
  rw [List.length_take, Nat.min_eq_left hlt] at hlength
  omega

theorem step (h : Within library (steps + 1) position met) (next : met[position]? = some name)
    (hname : library.find name ≠ .ok none) (needed : List String) :
    Within library steps (position + 1) (meet met needed) where
  nodup := nodup_meet h.nodup needed
  known := by
    obtain ⟨hlt, hknown⟩ := h.known_succ next hname
    obtain ⟨more, hmore⟩ := prefix_meet met needed
    rw [← hmore, List.take_append_of_le_length hlt]
    exact hknown
  enough := by
    have hsteps : steps + (position + 1) = steps + 1 + position := by omega
    rw [hsteps]
    exact h.enough

/-- A walk with enough steps is the loop. -/
theorem walks {d : Dialect} (h : Within library steps position met) :
    Walks d library position met (gather d library steps position met).asked
      (gather d library steps position met).texts := by
  induction steps generalizing position met with
  | zero =>
    unfold gather
    split
    · next hstop => exact .done hstop
    · next name hnext => exact .failed hnext (.notFound (h.find_eq_none hnext))
  | succ steps ih =>
    unfold gather
    split
    · next hstop => exact .done hstop
    · next name hnext =>
      split
      · next message hfind => exact .failed hnext (.library message hfind)
      · next hfind => exact .failed hnext (.notFound hfind)
      · next text hfind =>
        split
        · next cause hneeded => exact .failed hnext (.parse text cause hfind hneeded)
        · next needed hneeded =>
          have hknown : library.find name ≠ .ok none := by simp [hfind]
          exact .found hnext ⟨hfind, hneeded⟩ (ih (h.step hnext hknown needed))

end Within

/-! ## The order of names -/

/-- Each name is the next that is met, after those that were met before, in the texts of the names in
front of it. -/
def MetInOrder (d : Dialect) (library : Library) (position : Nat) (met asked : List String) : Prop :=
  ∀ i < asked.length, asked[i]? = (meet met ((asked.take i).flatMap (library.uses d)))[position + i]?

namespace MetInOrder

variable {d : Dialect} {library : Library} {position : Nat} {met asked : List String} {name : String}

theorem single (next : met[position]? = some name) : MetInOrder d library position met [name] := by
  intro i hi
  obtain rfl : i = 0 := by simpa using hi
  exact next.symm

theorem cons {needed : List String} (next : met[position]? = some name)
    (huses : library.uses d name = needed)
    (h : MetInOrder d library (position + 1) (meet met needed) asked) :
    MetInOrder d library position met (name :: asked) := by
  intro i hi
  cases i with
  | zero => exact next.symm
  | succ i =>
    have hposition : position + 1 + i = position + (i + 1) := by omega
    rw [List.getElem?_cons_succ, h i (by simpa using hi), List.take_succ_cons, List.flatMap_cons, huses,
      meet_append, hposition]

/-- More texts only add names. -/
theorem prefix_of_le (asked : List String) {i j : Nat} (h : i ≤ j) :
    meet met ((asked.take i).flatMap (library.uses d)) <+:
      meet met ((asked.take j).flatMap (library.uses d)) := by
  obtain ⟨more, hmore⟩ : asked.take i <+: asked.take j := List.take_prefix_take_left h
  rw [← hmore, List.flatMap_append, meet_append]
  exact prefix_meet _ _

theorem nodup (h : MetInOrder d library position met asked) (hmet : met.Nodup) : asked.Nodup := by
  refine List.nodup_iff_getElem?_ne_getElem?.2 fun i j hij hj heq => ?_
  have hi : i < asked.length := hij.trans hj
  obtain ⟨hlti, hgeti⟩ := List.getElem?_eq_some_iff.1 ((h i hi).symm.trans (List.getElem?_eq_getElem hi))
  obtain ⟨hltj, hgetj⟩ := List.getElem?_eq_some_iff.1 ((h j hj).symm.trans (List.getElem?_eq_getElem hj))
  have hall := nodup_meet hmet ((asked.take j).flatMap (library.uses d))
  have hfront : meet met ((asked.take i).flatMap (library.uses d)) <+:
      meet met ((asked.take j).flatMap (library.uses d)) := prefix_of_le asked hij.le
  rw [List.getElem?_eq_getElem hi, List.getElem?_eq_getElem hj, Option.some_inj, ← hgeti, ← hgetj,
    hfront.getElem hlti, hall.getElem_inj_iff] at heq
  omega

end MetInOrder

theorem Walks.metInOrder {d : Dialect} {library : Library} {position : Nat} {met asked : List String}
    {texts : Except BundleError (List (String × String))} (h : Walks d library position met asked texts) :
    MetInOrder d library position met asked := by
  induction h with
  | done => exact fun i hi => absurd hi (Nat.not_lt_zero i)
  | failed next => exact .single next
  | found next reads _ ih => exact .cons next reads.uses_eq ih

end RosSchema

import RosSchema.Bundle
import RosSchema.Proofs.Steps

/-!
# The walk over needed types

The names that a walk has met only grow, each stays where it is, and none is met twice. A walk that
comes to its end has asked for every name that was met, in order, and has met every name that one of
the texts found needs: `Gathered` is closed.
-/

namespace RosSchema

theorem meet_cons (met : List String) (name : String) (names : List String) :
    meet met (name :: names) = meet (if name ∈ met then met else met ++ [name]) names := rfl

theorem prefix_meet (met names : List String) : met <+: meet met names := by
  induction names generalizing met with
  | nil => exact List.prefix_rfl
  | cons name names ih =>
    rw [meet_cons]
    split
    · exact ih met
    · exact (List.prefix_append met [name]).trans (ih _)

theorem nodup_meet {met : List String} (h : met.Nodup) (names : List String) :
    (meet met names).Nodup := by
  induction names generalizing met with
  | nil => exact h
  | cons name names ih =>
    rw [meet_cons]
    split
    · exact ih h
    · next hnew => exact ih (List.nodup_append.2 ⟨h, by simp, by
        rintro a ha b hb rfl
        exact hnew (List.mem_singleton.1 hb ▸ ha)⟩)

theorem mem_meet_iff {met names : List String} {name : String} :
    name ∈ meet met names ↔ name ∈ met ∨ name ∈ names := by
  induction names generalizing met with
  | nil => simp [meet]
  | cons n names ih =>
    rw [meet_cons, ih, List.mem_cons]
    split
    · next hn =>
      constructor
      · exact fun h => h.imp_right .inr
      · rintro (h | rfl | h)
        · exact .inl h
        · exact .inl hn
        · exact .inr h
    · rw [List.mem_append, List.mem_singleton, or_assoc]

/-- What a finished walk from the position of the first name not asked for has found. -/
structure Closed (d : Dialect) (library : Library) (position : Nat) (met : List String)
    (texts : List (String × String)) (final : List String) : Prop where
  grown : met <+: final
  nodup : final.Nodup
  names : texts.map Prod.fst = final.drop position
  needs : ∀ entry ∈ texts, library.find entry.1 = .ok (some entry.2) ∧
    ∃ needed, neededTypes d (packageOf entry.1) entry.2 = .ok needed ∧ needed ⊆ final
  /-- What holds of the names met so far and passes from a name to those that its text needs, holds of
  all names. -/
  reached : ∀ motive : String → Prop, (∀ name ∈ met, motive name) →
    (∀ entry ∈ texts, motive entry.1 → ∀ needed,
      neededTypes d (packageOf entry.1) entry.2 = .ok needed → ∀ name ∈ needed, motive name) →
    ∀ name ∈ final, motive name

/-- With no name left to ask for, what was met is all there is. -/
theorem Closed.stop {d : Dialect} {library : Library} {position : Nat} {met : List String}
    (hmet : met.Nodup) (h : met[position]? = none) : Closed d library position met [] met where
  grown := List.prefix_rfl
  nodup := hmet
  names := by rw [List.drop_eq_nil_of_le (List.getElem?_eq_none_iff.1 h), List.map_nil]
  needs := by simp
  reached := fun _ hmet _ => hmet

/-- A name with a text goes in front of what the walk finds after it. -/
theorem Closed.step {d : Dialect} {library : Library} {position : Nat} {met final : List String}
    {type text : String} {needed : List String} {texts : List (String × String)}
    (hp : met[position]? = some type) (hfind : library.find type = .ok (some text))
    (hneeded : neededTypes d (packageOf type) text = .ok needed)
    (c : Closed d library (position + 1) (meet met needed) texts final) :
    Closed d library position met ((type, text) :: texts) final where
  grown := (prefix_meet met needed).trans c.grown
  nodup := c.nodup
  names := by
    obtain ⟨hlt, rfl⟩ := List.getElem?_eq_some_iff.1 hp
    have hgrown : met <+: final := (prefix_meet met needed).trans c.grown
    have hlt' : position < final.length := Nat.lt_of_lt_of_le hlt hgrown.length_le
    rw [List.map_cons, c.names, List.drop_eq_getElem_cons hlt', hgrown.getElem hlt]
  needs := by
    have hsub : needed ⊆ final := fun name hname =>
      c.grown.subset (mem_meet_iff.2 (.inr hname))
    intro entry hentry
    rcases List.mem_cons.1 hentry with rfl | hentry
    · exact ⟨hfind, needed, hneeded, hsub⟩
    · exact c.needs entry hentry
  reached := by
    intro motive hmet hstep
    have htype : motive type := hmet type (List.mem_of_getElem? hp)
    refine c.reached motive ?_ fun entry hentry => hstep entry (List.mem_cons_of_mem _ hentry)
    intro name hname
    rcases mem_meet_iff.1 hname with hname | hname
    · exact hmet name hname
    · exact hstep (type, text) List.mem_cons_self htype needed hneeded name hname

/-- A walk that ends well is closed, and has asked for the names of its texts. -/
theorem closed_of_gather {d : Dialect} {library : Library} {n position : Nat} {met : List String}
    {texts : List (String × String)} (hmet : met.Nodup)
    (h : (gather d library n position met).texts = .ok texts) :
    (gather d library n position met).asked = texts.map Prod.fst ∧
      ∃ final, Closed d library position met texts final := by
  induction n generalizing position met texts with
  | zero =>
    unfold gather at h ⊢
    split at h
    · next hp =>
      cases h
      exact ⟨rfl, met, .stop hmet hp⟩
    · cases h
  | succ n ih =>
    unfold gather at h ⊢
    split at h
    · next hp =>
      cases h
      exact ⟨rfl, met, .stop hmet hp⟩
    · next type hp =>
      split at h
      · cases h
      · cases h
      · next text hfind =>
        split at h
        · cases h
        · next needed hneeded =>
          obtain ⟨others, hothers, rfl⟩ := Steps.map_eq_ok.1 h
          obtain ⟨hasked, final, c⟩ := ih (nodup_meet hmet needed) hothers
          exact ⟨by rw [List.map_cons, ← hasked], final, c.step hp hfind hneeded⟩

end RosSchema

import Mathlib
import RosSchema.Idl.Constants

/-!
# What names stand for

A scoped name stands for its last part where it is not known itself. Where all names are without
colons and none is declared twice, the constant a reference stands for is the only one that it names.
-/

namespace RosSchema.Idl

/-- A reference names a constant as it is written or by its last part. -/
def Names (reference name : String) : Prop := name = reference ∨ name = lastPart reference

instance (reference name : String) : Decidable (Names reference name) :=
  inferInstanceAs (Decidable (_ ∨ _))

/-! ## Scoped names -/

theorem afterColons?_eq_none {cs : List Char} (h : ¬ [':', ':'] <:+: cs) : afterColons? cs = none := by
  induction cs with
  | nil => rfl
  | cons c rest ih =>
    have hrest : ¬ [':', ':'] <:+: rest := fun hin => h (List.infix_cons hin)
    rw [afterColons?, ih hrest]
    by_cases hc : c = ':'
    · subst hc
      cases rest with
      | nil => simp [List.isPrefixOf?]
      | cons d rest =>
        have hd : ':' ≠ d := by
          rintro rfl
          exact h ⟨[], rest, rfl⟩
        simp [List.isPrefixOf?, hd]
    · simp [hc]

/-- A name without two colons is its own last part. -/
theorem lastPart_eq_self {name : String} (h : ¬ [':', ':'] <:+: name.toList) :
    lastPart name = name := by
  rw [lastPart, afterColons?_eq_none h]

/-- A reference names at most one of the names that are their own last parts. -/
theorem Names.unique {reference a b : String} (ha : Names reference a) (hb : Names reference b)
    (hpa : lastPart a = a) (hpb : lastPart b = b) : a = b := by
  rcases ha with ha | ha <;> rcases hb with hb | hb
  · rw [ha, hb]
  · rw [hb, ← ha, hpa]
  · rw [ha, ← hb, hpb]
  · rw [ha, hb]

/-! ## Entries of names -/

section Lookup

variable {α : Type}

theorem lookup?_eq_some {entries : List (String × α)} {name : String} {a : α} :
    lookup? entries name = some a ↔ entries.lookup name = some a ∨
      entries.lookup name = none ∧ entries.lookup (lastPart name) = some a := by
  rw [lookup?, Option.orElse_eq_orElse, Option.orElse_eq_or, Option.or_eq_some_iff]

theorem lookup?_eq_none {entries : List (String × α)} {name : String} :
    lookup? entries name = none ↔
      entries.lookup name = none ∧ entries.lookup (lastPart name) = none := by
  rw [lookup?, Option.orElse_eq_orElse, Option.orElse_eq_or, Option.or_eq_none_iff]

theorem lookup_eq_none_iff_not_mem {entries : List (String × α)} {name : String} :
    entries.lookup name = none ↔ name ∉ entries.map Prod.fst := by
  rw [List.lookup_eq_none_iff]
  constructor
  · intro h hmem
    obtain ⟨entry, hentry, rfl⟩ := List.mem_map.1 hmem
    simpa using h entry hentry
  · intro h entry hentry
    refine bne_iff_ne.2 ?_
    rintro rfl
    exact h (List.mem_map_of_mem hentry)

theorem mem_of_lookup {entries : List (String × α)} {name : String} {a : α}
    (h : entries.lookup name = some a) : (name, a) ∈ entries := by
  obtain ⟨before, after, rfl, -⟩ := List.lookup_eq_some_iff.1 h
  simp

/-- Among entries with names that are their own last parts, a reference stands for the entry that it
names. -/
theorem lookup?_eq_of_names {entries : List (String × α)} {reference name : String}
    (hkeys : ∀ key ∈ entries.map Prod.fst, lastPart key = key) (hplain : lastPart name = name)
    (hname : Names reference name) : lookup? entries reference = entries.lookup name := by
  have hone {key : String} {a : α} (h : entries.lookup key = some a) (hkey : Names reference key) :
      key = name :=
    hkey.unique hname (hkeys key (List.mem_map_of_mem (mem_of_lookup h))) hplain
  ext a
  rw [lookup?_eq_some]
  constructor
  · rintro (h | ⟨-, h⟩)
    · rwa [← hone h (.inl rfl)]
    · rwa [← hone h (.inr rfl)]
  · intro h
    cases hreference : entries.lookup reference with
    | some b =>
      rw [← hone hreference (.inl rfl), hreference] at h
      exact .inl h
    | none =>
      rcases hname with rfl | rfl
      · exact .inl (hreference ▸ h)
      · exact .inr ⟨rfl, h⟩

/-- A reference that names no entry stands for none. -/
theorem lookup?_eq_none_of_names {entries : List (String × α)} {reference : String}
    (h : ∀ key ∈ entries.map Prod.fst, ¬ Names reference key) : lookup? entries reference = none :=
  lookup?_eq_none.2 ⟨lookup_eq_none_iff_not_mem.2 fun hmem => h _ hmem (.inl rfl),
    lookup_eq_none_iff_not_mem.2 fun hmem => h _ hmem (.inr rfl)⟩

end Lookup

/-! ## Places of constants -/

namespace Constants

def names (c : Constants) : List String := c.declared.map (·.member.name)

theorem mem_names {c : Constants} {name : String} :
    name ∈ c.names ↔ ∃ d ∈ c.declared, d.member.name = name := List.mem_map

/-- No name is declared twice, and each is its own last part. -/
structure Distinct (c : Constants) : Prop where
  nodup : c.names.Nodup
  plain : ∀ d ∈ c.declared, lastPart d.member.name = d.member.name

theorem lookup_places {names : List String} {name : String} {p : Nat}
    (h : names.zipIdx.reverse.lookup name = some p) : names[p]? = some name := by
  have hmem : (name, p) ∈ names.zipIdx := List.mem_reverse.1 (mem_of_lookup h)
  exact List.mem_zipIdx_iff_getElem?.1 hmem

theorem lookup_places_eq_none {names : List String} {name : String} :
    names.zipIdx.reverse.lookup name = none ↔ name ∉ names := by
  rw [lookup_eq_none_iff_not_mem, List.map_reverse, List.mem_reverse, List.zipIdx_map_fst]

/-- A name stands for the constant at a place only if it names that constant. -/
theorem exists_of_place? {c : Constants} {reference : String} {p : Nat}
    (h : c.place? reference = some p) :
    ∃ d, c.declared[p]? = some d ∧ Names reference d.member.name := by
  rcases lookup?_eq_some.1 h with h | ⟨-, h⟩
  · have hp := lookup_places h
    rw [List.getElem?_map, Option.map_eq_some_iff] at hp
    obtain ⟨d, hd, hname⟩ := hp
    exact ⟨d, hd, .inl hname⟩
  · have hp := lookup_places h
    rw [List.getElem?_map, Option.map_eq_some_iff] at hp
    obtain ⟨d, hd, hname⟩ := hp
    exact ⟨d, hd, .inr hname⟩

theorem lt_of_place? {c : Constants} {reference : String} {p : Nat}
    (h : c.place? reference = some p) : p < c.declared.length := by
  obtain ⟨d, hd, -⟩ := exists_of_place? h
  exact (List.getElem?_eq_some_iff.1 hd).1

/-- A name stands for nothing when it names no constant. -/
theorem place?_eq_none {c : Constants} {reference : String} :
    c.place? reference = none ↔ ∀ d ∈ c.declared, ¬ Names reference d.member.name := by
  rw [place?, lookup?_eq_none, lookup_places_eq_none, lookup_places_eq_none]
  simp only [List.mem_map, not_exists, not_and, Names, not_or]
  constructor
  · rintro ⟨h₁, h₂⟩ d hd
    exact ⟨h₁ d hd, h₂ d hd⟩
  · intro h
    exact ⟨fun d hd => (h d hd).1, fun d hd => (h d hd).2⟩

/-- Two places with constants of one name are the same place. -/
theorem Distinct.place_eq {c : Constants} (hc : c.Distinct) {p q : Nat} {a b : Declared}
    (hp : c.declared[p]? = some a) (hq : c.declared[q]? = some b)
    (h : a.member.name = b.member.name) : p = q := by
  obtain ⟨hlt, rfl⟩ := List.getElem?_eq_some_iff.1 hp
  obtain ⟨hlt', rfl⟩ := List.getElem?_eq_some_iff.1 hq
  have hpn : p < c.names.length := by simpa [names] using hlt
  have hqn : q < c.names.length := by simpa [names] using hlt'
  have hnames : c.names[p] = c.names[q] := by simpa [names] using h
  exact (List.Nodup.getElem_inj_iff hc.nodup).1 hnames

/-- With distinct names, a reference names one constant at most. -/
theorem Distinct.name_eq {c : Constants} (hc : c.Distinct) {reference : String} {a b : Declared}
    (ha : a ∈ c.declared) (hb : b ∈ c.declared) (hna : Names reference a.member.name)
    (hnb : Names reference b.member.name) : a.member.name = b.member.name :=
  hna.unique hnb (hc.plain a ha) (hc.plain b hb)

/-- With distinct names, a reference stands for the constant that it names. -/
theorem Distinct.place?_eq_some {c : Constants} (hc : c.Distinct) {reference : String} {p : Nat}
    {d : Declared} (hp : c.declared[p]? = some d) (hname : Names reference d.member.name) :
    c.place? reference = some p := by
  cases hq : c.place? reference with
  | none => exact absurd hname (place?_eq_none.1 hq d (List.mem_of_getElem? hp))
  | some q =>
    obtain ⟨e, he, hename⟩ := exists_of_place? hq
    have heq := hc.name_eq (List.mem_of_getElem? he) (List.mem_of_getElem? hp) hename hname
    rw [hc.place_eq he hp heq]

end Constants

end RosSchema.Idl

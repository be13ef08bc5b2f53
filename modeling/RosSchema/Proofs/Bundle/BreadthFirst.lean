import RosSchema.Proofs.Bundle.Loop
import RosSchema.Proofs.Bundle.SelfContained

/-!
# Bundles are closures, breadth first

The bundle of a root text asks a library for the names that can be reached from the root, each once and
in the order in which a search breadth first sees them. It ends at the first name that has no text or
one that cannot be read, and otherwise has the text of every name that was asked for.
-/

namespace RosSchema

/-- The names that some names and the texts of names lead to. -/
inductive Reaches (d : Dialect) (library : Library) (first : List String) : String → Prop where
  | first {name : String} (mem : name ∈ first) : Reaches d library first name
  | step {name text other : String} {needed : List String} (reached : Reaches d library first name)
      (reads : library.Reads d name text needed) (mem : other ∈ needed) : Reaches d library first other

/-- The names of a closed walk are those that can be reached. -/
theorem Closed.mem_iff_reaches {d : Dialect} {library : Library} {needed : List String}
    {texts : List (String × String)} (c : Closed d library 0 (meet [] needed) texts (texts.map Prod.fst))
    {name : String} : name ∈ texts.map Prod.fst ↔ Reaches d library needed name := by
  constructor
  · refine c.reached (Reaches d library needed) ?_ ?_ name
    · exact fun other hother => .first ((mem_meet_iff.1 hother).resolve_left List.not_mem_nil)
    · intro entry hentry hreached needed' hneeded' other hother
      exact .step hreached ⟨(c.needs entry hentry).1, hneeded'⟩ hother
  · intro h
    induction h with
    | first mem => exact c.grown.subset (mem_meet_iff.2 (.inr mem))
    | step _ reads mem ih =>
      obtain ⟨entry, hentry, rfl⟩ := List.mem_map.1 ih
      obtain ⟨hfind, needed', hneeded', hsub⟩ := c.needs entry hentry
      obtain ⟨-, rfl⟩ := reads.unique ⟨hfind, hneeded'⟩
      exact hsub mem

def Library.ReadsAll (library : Library) (d : Dialect) (names : List String) : Prop :=
  ∀ name ∈ names, ∃ text needed, library.Reads d name text needed

theorem Closed.readsAll {d : Dialect} {library : Library} {position : Nat} {met final : List String}
    {texts : List (String × String)} (c : Closed d library position met texts final) :
    library.ReadsAll d (texts.map Prod.fst) := by
  intro name hname
  obtain ⟨entry, hentry, rfl⟩ := List.mem_map.1 hname
  obtain ⟨hfind, needed, hneeded, -⟩ := c.needs entry hentry
  exact ⟨entry.2, needed, hfind, hneeded⟩

theorem Library.ReadsAll.not_fails {d : Dialect} {library : Library} {names : List String}
    (h : library.ReadsAll d names) {name : String} (hname : name ∈ names) {e : BundleError} :
    ¬ library.Fails d name e := by
  obtain ⟨text, needed, reads⟩ := h name hname
  exact reads.not_fails

/-- What the names that were asked for and the outcome of a bundle are for a root text that needs some
names. -/
structure IsClosure (d : Dialect) (library : Library) (package root : String)
    (needed asked : List String) (result : Except BundleError String) : Prop where
  /-- The loop without a bound on its steps ends, and this is what it ends with. -/
  ends : ∃ found, result = Except.map (bundleText root) found ∧ ∀ asked' found',
    Walks d library 0 needed.eraseDups asked' found' ↔ asked' = asked ∧ found' = found
  nodup : asked.Nodup
  /-- Every name is the next new one among those that the root needs and those that the texts of the
  names before it need, one text after the other. -/
  order : ∀ i < asked.length,
    asked[i]? = (needed ++ (asked.take i).flatMap (library.uses d)).eraseDups[i]?
  /-- With texts for all names, the bundle is made of them, and nothing else can be reached. -/
  complete : library.ReadsAll d asked → ∃ texts, texts.map Prod.fst = asked ∧
    (∀ entry ∈ texts, library.find entry.1 = .ok (some entry.2)) ∧
    result = .ok (bundleText root texts) ∧ ∀ name, name ∈ asked ↔ Reaches d library needed name
  /-- Otherwise it is the last name that fails. -/
  failed : ¬ library.ReadsAll d asked → ∃ before last e, asked = before ++ [last] ∧
    library.ReadsAll d before ∧ library.Fails d last e ∧ result = .error e
  /-- The bundle of plain texts is read as the definition of its root and one under each name. -/
  plain : (∀ c ∈ package.toList, Reader.isNamePart c = true) → IsPlain root →
    (∀ name ∈ asked, ∀ text, library.find name = .ok (some text) → IsPlain text) →
    ∀ text, result = .ok text → ∃ own loaded, parse root (keepingOf d) = .ok [own] ∧
      List.Forall₂ (Loads d library) asked loaded ∧ parse text (keepingOf d) = .ok (own :: loaded)

section Gather

variable {d : Dialect} {library : Library} {package root : String} {needed : List String} {steps : Nat}

theorem closed_of_gather_nil {texts : List (String × String)}
    (h : (gather d library steps 0 (meet [] needed)).texts = .ok texts) :
    (gather d library steps 0 (meet [] needed)).asked = texts.map Prod.fst ∧
      Closed d library 0 (meet [] needed) texts (texts.map Prod.fst) := by
  obtain ⟨hasked, final, c⟩ := closed_of_gather (nodup_meet List.nodup_nil needed) h
  have hfinal : texts.map Prod.fst = final := c.names
  exact ⟨hasked, hfinal ▸ c⟩

/-- The text of a closed walk from a plain root is read as one definition for each text. -/
theorem exists_own_of_closed (hd : d.isLineOriented = true) {texts : List (String × String)}
    (hneeded : neededTypes d package root = .ok needed)
    (c : Closed d library 0 (meet [] needed) texts (texts.map Prod.fst))
    (hpackage : ∀ c ∈ package.toList, Reader.isNamePart c = true) (hroot : IsPlain root)
    (hplain : ∀ entry ∈ texts, IsPlain entry.2) :
    ∃ own loaded, parse root (keepingOf d) = .ok [own] ∧
      List.Forall₂ (Loads d library) (texts.map Prod.fst) loaded ∧
      parse (bundleText root texts) (keepingOf d) = .ok (own :: loaded) := by
  obtain ⟨own, loaded, a, hparts⟩ := exists_assembled hd hpackage hneeded c hplain
  obtain ⟨g, -, hg⟩ := exists_grammar hd
  have hread : g.definitions root = .ok own := by rw [← hg, ← parse_keepingOf hd, a.root_eq]
  obtain ⟨e, rfl, -⟩ := exists_definition_of_isPlain hroot hread
  refine ⟨e, loaded, a.root_eq, a.loads, ?_⟩
  rw [parse_keepingOf hd, hparts]
  rfl

/-- A walk with enough steps finds the closure. -/
theorem isClosure_of_within (hd : d.isLineOriented = true) (hneeded : neededTypes d package root = .ok needed)
    (h : Within library steps 0 (meet [] needed)) :
    IsClosure d library package root needed (gather d library steps 0 (meet [] needed)).asked
      ((gather d library steps 0 (meet [] needed)).texts.map (bundleText root)) := by
  have walks : Walks d library 0 (meet [] needed) _ _ := h.walks
  have hclosed {texts : List (String × String)}
      (htexts : (gather d library steps 0 (meet [] needed)).texts = .ok texts) :
      (gather d library steps 0 (meet [] needed)).asked = texts.map Prod.fst ∧
        Closed d library 0 (meet [] needed) texts (texts.map Prod.fst) := closed_of_gather_nil htexts
  -- all that counts from here on is that the walk is the loop, and closed if it ends well
  generalize gather d library steps 0 (meet [] needed) = gathered at walks hclosed ⊢
  obtain ⟨asked, found⟩ := gathered
  refine
    { ends := ⟨found, rfl, ?ends⟩
      nodup := walks.metInOrder.nodup (nodup_meet List.nodup_nil needed)
      order := ?order
      complete := ?complete
      failed := ?failed
      plain := ?plain }
  case ends =>
    intro asked' found'
    rw [← meet_nil]
    exact ⟨fun walks' => walks'.unique walks, fun h => h.1 ▸ h.2 ▸ walks⟩
  case order =>
    intro i hi
    have hnext := walks.metInOrder i hi
    rwa [← meet_append, meet_nil, Nat.zero_add] at hnext
  case complete =>
    intro hall
    cases found with
    | error e =>
      obtain ⟨before, last, rfl, -, hfails⟩ := walks.fails_last rfl
      exact absurd hfails (hall.not_fails (by simp))
    | ok texts =>
      obtain ⟨rfl, c⟩ := hclosed rfl
      exact ⟨texts, rfl, fun entry hentry => (c.needs entry hentry).1, rfl, fun _ => c.mem_iff_reaches⟩
  case failed =>
    intro hnot
    cases found with
    | error e =>
      obtain ⟨before, last, hasked, hbefore, hfails⟩ := walks.fails_last rfl
      exact ⟨before, last, e, hasked, hbefore, hfails, rfl⟩
    | ok texts =>
      obtain ⟨rfl, c⟩ := hclosed rfl
      exact absurd c.readsAll hnot
  case plain =>
    intro hpackage hroot hplain text htext
    obtain ⟨texts, rfl, rfl⟩ := Steps.map_eq_ok.1 htext
    obtain ⟨rfl, c⟩ := hclosed rfl
    refine exists_own_of_closed hd hneeded c hpackage hroot fun entry hentry => ?_
    exact hplain entry.1 (List.mem_map_of_mem hentry) entry.2 (c.needs entry hentry).1

end Gather

/-- **Bundles.** A bundle from a finite map is the closure of its root, breadth first, and a root that
cannot be read asks for nothing. -/
theorem bundle_isClosure {d : Dialect} (hd : d.isLineOriented = true) (texts : List (String × String))
    (package root : String) :
    (∀ cause, neededTypes d package root = .error cause →
      bundle d (Library.ofList texts) package root = ([], .error (.parse "root definition" cause))) ∧
    ∀ needed, neededTypes d package root = .ok needed →
      IsClosure d (Library.ofList texts) package root needed
        (bundle d (Library.ofList texts) package root).1
        (bundle d (Library.ofList texts) package root).2 := by
  refine ⟨fun cause hcause => ?_, fun needed hneeded => ?_⟩
  · simp [bundle, hd, hcause]
  · have hsteps : texts.length ≤ texts.length + root.length + 1 + 0 := by omega
    have hwithin : Within (Library.ofList texts) (texts.length + root.length + 1) 0 (meet [] needed) :=
      ⟨nodup_meet List.nodup_nil needed, by simp, fun names hnodup hknown =>
        (Library.atMost_ofList texts names hnodup hknown).trans hsteps⟩
    have hbundle : bundle d (Library.ofList texts) package root =
        ((gather d (Library.ofList texts) (texts.length + root.length + 1) 0 (meet [] needed)).asked,
          (gather d (Library.ofList texts) (texts.length + root.length + 1) 0
            (meet [] needed)).texts.map (bundleText root)) := by
      simp only [bundle, hd, hneeded]
      rfl
    rw [hbundle]
    exact isClosure_of_within hd hneeded hwithin

theorem bundle_isClosure_of_points :
    bundle .ros2 (Library.ofList twoPoints) "a" "Point p\nb/Other o" =
      (["a/Point", "b/Other", "b/Point"], .ok (bundleText "Point p\nb/Other o" twoPoints)) ∧
    IsClosure .ros2 (Library.ofList twoPoints) "a" "Point p\nb/Other o" ["a/Point", "b/Other"]
      ["a/Point", "b/Other", "b/Point"] (.ok (bundleText "Point p\nb/Other o" twoPoints)) := by
  have hneeded : neededTypes .ros2 "a" "Point p\nb/Other o" = .ok ["a/Point", "b/Other"] := by
    decide +kernel
  have hbundle : bundle .ros2 (Library.ofList twoPoints) "a" "Point p\nb/Other o" =
      (["a/Point", "b/Other", "b/Point"], .ok (bundleText "Point p\nb/Other o" twoPoints)) :=
    bundle_of_gather rfl hneeded (by decide +kernel) (by decide +kernel)
  have hclosure := (bundle_isClosure rfl twoPoints "a" "Point p\nb/Other o").2 _ hneeded
  rw [hbundle] at hclosure
  exact ⟨hbundle, hclosure⟩

end RosSchema

import RosSchema.Proofs.Bundle.Contents

/-!
# Bundles parse on their own

A bundle is read back as the definitions of its root and one definition for each name that the library
was asked for. Every reference has its full name among them, so a bundle resolves exactly when no
written type refers to two of its names, and then each reference becomes the name that was asked for.
-/

namespace RosSchema

open Line (lines headerLine)
open Line.Ros2 (isTypePart)
open Reader (Word)

def Definition.qualify (d : Dialect) (package : String) (e : Definition) : Definition :=
  { e with fields := e.fields.map fun f =>
      if f.isComplex then { f with type := RosSchema.qualify d package f.type } else f }

/-- The definitions of a bundle, each with the package that its bare references belong to. -/
def bundleParts (package : String) (own loaded : List Definition) : List (String × Definition) :=
  own.map (package, ·) ++ loaded.map fun e => (packageOf (e.name.getD ""), e)

/-- No written reference is the end of two names. -/
def Unambiguous (defs : List Definition) : Prop :=
  ∀ e ∈ defs, ∀ f ∈ e.fields, f.isComplex = true →
    (referenceNames defs).countP (refersTo f.type) ≤ 1

instance (defs : List Definition) : Decidable (Unambiguous defs) :=
  inferInstanceAs (Decidable (∀ e ∈ defs, ∀ f ∈ e.fields, f.isComplex = true → _))

/-- A definition under its full name, as the library's text for that name gives it. -/
structure Loads (d : Dialect) (library : Library) (name : String) (e : Definition) : Prop where
  name_eq : e.name = some name
  found : ∃ text, library.find name = .ok (some text) ∧
    parse text (keepingOf d) = .ok [⟨none, e.fields⟩]

/-- What the definitions of a bundle have to do with its root and with the names that were asked
for. -/
structure Assembled (d : Dialect) (library : Library) (package root : String) (asked : List String)
    (own loaded : List Definition) : Prop where
  root_eq : parse root (keepingOf d) = .ok own
  loads : List.Forall₂ (Loads d library) asked loaded
  /-- The full name of every reference was asked for. -/
  asks : ∀ part ∈ bundleParts package own loaded, ∀ f ∈ part.2.fields, f.isComplex = true →
    qualify d part.1 f.type ∈ asked

namespace Assembled

variable {d : Dialect} {library : Library} {package root : String} {asked : List String}
  {own loaded : List Definition}

theorem parts_map_snd (package : String) (own loaded : List Definition) :
    (bundleParts package own loaded).map Prod.snd = own ++ loaded := by
  simp [bundleParts, Function.comp_def]

/-- The full name of every reference is one of the names of the bundle. -/
theorem mem_referenceNames (a : Assembled d library package root asked own loaded)
    {part : String × Definition} (hpart : part ∈ bundleParts package own loaded) {f : Field}
    (hf : f ∈ part.2.fields) (hc : f.isComplex = true) :
    qualify d part.1 f.type ∈ referenceNames (own ++ loaded) := by
  obtain ⟨e, he, hload⟩ := Steps.exists_of_mem_left a.loads (a.asks part hpart f hf hc)
  exact List.mem_map.2 ⟨e, List.mem_append_right own he, by rw [hload.name_eq]; rfl⟩

/-- Without two names for one reference, every reference becomes its full name. -/
theorem resolve_of_unambiguous (a : Assembled d library package root asked own loaded)
    (h : Unambiguous (own ++ loaded)) : resolveReferences (own ++ loaded) =
      .ok ((bundleParts package own loaded).map fun part => part.2.qualify d part.1) := by
  rw [resolveReferences_eq_ok]
  have hone : ∀ part ∈ bundleParts package own loaded,
      part.2.resolve (referenceNames (own ++ loaded)) = .ok (part.2.qualify d part.1) := by
    intro part hpart
    have hmem : part.2 ∈ own ++ loaded :=
      parts_map_snd package own loaded ▸ List.mem_map_of_mem hpart
    refine Definition.resolve_eq_ok.2 ⟨rfl, ?_⟩
    rw [Definition.qualify, List.forall₂_map_right_iff, List.forall₂_same]
    intro f hf
    rw [Field.resolve_eq_ok]
    by_cases hc : f.isComplex = true
    · rw [if_pos hc, if_pos hc]
      refine ⟨qualify d part.1 f.type, resolveType_eq_ok.2 ?_, rfl⟩
      exact filter_refersTo_eq_singleton (a.mem_referenceNames hpart hf hc)
        (refersTo_qualify d part.1 f.type) (h part.2 hmem f hf hc)
    · rw [if_neg hc, if_neg hc]
  have hall : List.Forall₂ (fun e r => e.resolve (referenceNames (own ++ loaded)) = .ok r)
      ((bundleParts package own loaded).map Prod.snd)
      ((bundleParts package own loaded).map fun part => part.2.qualify d part.1) := by
    rw [List.forall₂_map_left_iff, List.forall₂_map_right_iff]
    exact List.forall₂_same.2 hone
  rwa [parts_map_snd] at hall

/-- Resolution succeeds only without two names for one reference. -/
theorem unambiguous_of_resolve {defs resolved : List Definition}
    (h : resolveReferences defs = .ok resolved) : Unambiguous defs := by
  intro e he f hf hc
  obtain ⟨r, -, hr⟩ := Steps.exists_of_mem_left (resolveReferences_eq_ok.1 h) he
  obtain ⟨g, -, hg⟩ := Steps.exists_of_mem_left (Definition.resolve_eq_ok.1 hr).2 hf
  rw [Field.resolve_eq_ok, if_pos hc] at hg
  obtain ⟨name, hname, -⟩ := hg
  rw [List.countP_eq_length_filter, resolveType_eq_ok.1 hname, List.length_singleton]

/-- With two names for one reference, resolution reports an ambiguous type. -/
theorem resolve_of_ambiguous (a : Assembled d library package root asked own loaded)
    (h : ¬ Unambiguous (own ++ loaded)) : ∃ type candidates,
      resolveReferences (own ++ loaded) = .error (.ambiguousType type candidates) := by
  cases hr : resolveReferences (own ++ loaded) with
  | ok resolved => exact absurd (unambiguous_of_resolve hr) h
  | error e =>
    obtain ⟨e', he', f, hf, hc, herror⟩ := resolveReferences_eq_error hr
    rw [← parts_map_snd package] at he'
    obtain ⟨part, hpart, rfl⟩ := List.mem_map.1 he'
    have hmem := a.mem_referenceNames hpart hf hc
    exact ⟨_, _, by rw [resolveType_eq_error hmem (refersTo_qualify d part.1 f.type) herror]⟩

end Assembled

/-! ## Bundles that were made -/

theorem bundle_eq_ok {d : Dialect} {library : Library} {package root text : String}
    {asked : List String} (h : bundle d library package root = (asked, .ok text)) :
    d.isLineOriented = true ∧ ∃ needed texts,
      neededTypes d package root = .ok needed ∧ text = bundleText root texts ∧
      asked = texts.map Prod.fst ∧ Closed d library 0 (meet [] needed) texts asked := by
  unfold bundle at h
  split at h
  · cases (Prod.mk.inj h).2
  · next hd =>
    refine ⟨by simpa using hd, ?_⟩
    split at h
    · cases (Prod.mk.inj h).2
    · next needed hneeded =>
      obtain ⟨hasked, htext⟩ := Prod.mk.inj h
      obtain ⟨texts, htexts, rfl⟩ := Steps.map_eq_ok.1 htext
      obtain ⟨hnames, final, c⟩ := closed_of_gather (nodup_meet List.nodup_nil needed) htexts
      have hfinal : final = texts.map Prod.fst := by rw [c.names, List.drop_zero]
      rw [hasked] at hnames
      exact ⟨needed, texts, hneeded, rfl, hnames, hnames ▸ hfinal ▸ c⟩

/-- A walk that ends with texts makes a bundle of them. -/
theorem bundle_of_gather {d : Dialect} {library : Library} {package root : String}
    {needed asked : List String} {texts : List (String × String)} (hd : d.isLineOriented = true)
    (hneeded : neededTypes d package root = .ok needed)
    (hasked : (gather d library (library.size + root.length + 1) 0 (meet [] needed)).asked = asked)
    (htexts : (gather d library (library.size + root.length + 1) 0 (meet [] needed)).texts =
      .ok texts) : bundle d library package root = (asked, .ok (bundleText root texts)) := by
  simp only [bundle, hd, hneeded, hasked, htexts]
  rfl

/-- A text that was found is one definition under the header with its name. -/
theorem exists_loaded {d : Dialect} (hd : d.isLineOriented = true) {g : Line.Grammar} (s : g.Sound)
    (hg : ∀ text, parseLines text d = g.definitions text) {library : Library} {name text : String}
    {needed : List String} (hname : Word isTypePart name.toList)
    (hfind : library.find name = .ok (some text)) (hplain : IsPlain text)
    (hneeded : neededTypes d (packageOf name) text = .ok needed) :
    ∃ e, Loads d library name e ∧
      g.definition (headerLine name.toList :: lines text.toList) = .ok e ∧
      ∀ f ∈ e.fields, f.isComplex = true → qualify d (packageOf name) f.type ∈ needed := by
  obtain ⟨defs, hdefs, hasks, -⟩ := neededTypes_eq_ok hd hneeded
  have hread : g.definitions text = .ok defs := by rw [← hg, ← parse_keepingOf hd, hdefs]
  obtain ⟨e, rfl, he⟩ := exists_definition_of_isPlain hplain hread
  obtain ⟨hnone, hheader⟩ := s.definition_cons hname (fun line hline => (hplain line hline).2) he
  rw [String.ofList_toList] at hheader
  refine ⟨⟨some name, e.fields⟩, ⟨rfl, text, hfind, ?_⟩, hheader, ?_⟩
  · rw [hdefs, ← hnone]
  · exact hasks e List.mem_cons_self

/-- The text of closed plain texts is read as an assembly of definitions. -/
theorem exists_assembled {d : Dialect} (hd : d.isLineOriented = true) {library : Library}
    {package root : String} {needed : List String} {texts : List (String × String)}
    (hpackage : ∀ c ∈ package.toList, Reader.isNamePart c = true)
    (hneeded : neededTypes d package root = .ok needed)
    (c : Closed d library 0 (meet [] needed) texts (texts.map Prod.fst))
    (hplain : ∀ entry ∈ texts, IsPlain entry.2) :
    ∃ own loaded, Assembled d library package root (texts.map Prod.fst) own loaded ∧
      parseLines (bundleText root texts) d = .ok (own ++ loaded) := by
  obtain ⟨g, s, hg⟩ := exists_grammar hd
  obtain ⟨own, hown, hasks, hwords⟩ := neededTypes_eq_ok hd hneeded
  have hword : ∀ name ∈ texts.map Prod.fst, Word isTypePart name.toList := by
    refine c.reached _ ?_ ?_
    · intro name hname
      refine hwords ?_ name ((mem_meet_iff.1 hname).resolve_left List.not_mem_nil)
      exact fun c hc => Line.Ros2.isTypePart_of_isNamePart (hpackage c hc)
    · intro entry hentry hname needed' hneeded' name' hname'
      obtain ⟨-, -, -, hwords'⟩ := neededTypes_eq_ok hd hneeded'
      exact hwords' (isTypePart_of_mem_packageOf hname) name' hname'
  have hentry : ∀ entry ∈ texts, ∃ e, Loads d library entry.1 e ∧
      g.definition (headerLine entry.1.toList :: lines entry.2.toList) = .ok e ∧
      ∀ f ∈ e.fields, f.isComplex = true →
        qualify d (packageOf entry.1) f.type ∈ texts.map Prod.fst := by
    intro entry hentry
    obtain ⟨hfind, needed', hneeded', hsub⟩ := c.needs entry hentry
    obtain ⟨e, hload, hheader, hasks'⟩ := exists_loaded hd s hg (hword _ (List.mem_map_of_mem hentry))
      hfind (hplain entry hentry) hneeded'
    exact ⟨e, hload, hheader, fun f hf hc => hsub (hasks' f hf hc)⟩
  obtain ⟨loaded, hloaded⟩ := Steps.exists_forall₂ hentry
  refine ⟨own, loaded, ⟨hown, ?_, ?_⟩, ?_⟩
  · exact List.forall₂_map_left_iff.2 (hloaded.imp fun _ _ he => he.1)
  · intro part hpart f hf hc
    rcases List.mem_append.1 hpart with hpart | hpart
    · obtain ⟨e, he, rfl⟩ := List.mem_map.1 hpart
      exact c.grown.subset (mem_meet_iff.2 (.inr (hasks e he f hf hc)))
    · obtain ⟨e, he, rfl⟩ := List.mem_map.1 hpart
      obtain ⟨entry, -, hload, -, hasks'⟩ := Steps.exists_of_mem_right hloaded he
      rw [hload.name_eq]
      exact hasks' f hf hc
  · rw [hg, Line.Grammar.definitions, blocks_bundleText
      (fun entry he => hword _ (List.mem_map_of_mem he)) hplain, Steps.mapM_eq_ok_iff]
    refine List.rel_append ?_ ?_
    · rw [← Steps.mapM_eq_ok_iff]
      exact (hg root).symm.trans ((parse_keepingOf hd root).symm.trans hown)
    · rw [List.forall₂_map_left_iff]
      exact hloaded.imp fun _ _ he => he.2.1

/-- A bundle of plain texts is read as an assembly of its definitions. -/
theorem assembled_of_bundle {d : Dialect} {library : Library} {package root text : String}
    {asked : List String} (hpackage : ∀ c ∈ package.toList, Reader.isNamePart c = true)
    (hplain : ∀ name text, library.find name = .ok (some text) → IsPlain text)
    (h : bundle d library package root = (asked, .ok text)) :
    ∃ own loaded, Assembled d library package root asked own loaded ∧
      parse text (Options.ofDialect d) = resolveReferences (own ++ loaded) := by
  obtain ⟨hd, needed, texts, hneeded, rfl, rfl, c⟩ := bundle_eq_ok h
  obtain ⟨own, loaded, a, hparts⟩ := exists_assembled hd hpackage hneeded c fun entry hentry =>
    hplain _ _ (c.needs entry hentry).1
  refine ⟨own, loaded, a, ?_⟩
  rw [parse_ofDialect hd, hparts]
  rfl

/-- **Self-contained bundles.** The bundle of plain texts is read as the definitions of its root and the
definition of each name that was asked for. The full name of every reference was asked for, and the
bundle resolves every reference to it exactly when no written reference is the end of two names. In
the other case an ambiguous type is reported. -/
theorem parse_bundle {d : Dialect} {library : Library} {package root text : String}
    {asked : List String} (hpackage : ∀ c ∈ package.toList, Reader.isNamePart c = true)
    (hplain : ∀ name text, library.find name = .ok (some text) → IsPlain text)
    (h : bundle d library package root = (asked, .ok text)) :
    ∃ own loaded, Assembled d library package root asked own loaded ∧
      (parse text (Options.ofDialect d) =
          .ok ((bundleParts package own loaded).map fun part => part.2.qualify d part.1) ↔
        Unambiguous (own ++ loaded)) ∧
      (¬ Unambiguous (own ++ loaded) → ∃ type candidates,
        parse text (Options.ofDialect d) = .error (.ambiguousType type candidates)) := by
  obtain ⟨own, loaded, a, hparse⟩ := assembled_of_bundle hpackage hplain h
  refine ⟨own, loaded, a, ⟨fun hok => ?_, fun hone => ?_⟩, fun hnot => ?_⟩
  · exact Assembled.unambiguous_of_resolve (hparse.symm.trans hok)
  · exact hparse.trans (a.resolve_of_unambiguous hone)
  · rw [hparse]
    exact a.resolve_of_ambiguous hnot

/-! ## Two packages with one name -/

def twoPoints : List (String × String) :=
  [("a/Point", "int8 x"), ("b/Other", "Point q"), ("b/Point", "int8 y")]

theorem isPlain_of_ofList {texts : List (String × String)} (h : ∀ entry ∈ texts, IsPlain entry.2)
    (name text : String) (hfind : (Library.ofList texts).find name = .ok (some text)) :
    IsPlain text := by
  have hlookup : texts.lookup name = some text := Except.ok.inj hfind
  obtain ⟨before, after, htexts, -⟩ := List.lookup_eq_some_iff.1 hlookup
  exact h (name, text) (by rw [htexts]; simp)

theorem parse_bundle_of_one_point :
    bundle .ros2 (Library.ofList twoPoints) "a" "b/Other o" =
      (["b/Other", "b/Point"], .ok (bundleText "b/Other o" twoPoints.tail)) ∧
    ∃ own loaded, Assembled .ros2 (Library.ofList twoPoints) "a" "b/Other o" ["b/Other", "b/Point"]
        own loaded ∧
      (parse (bundleText "b/Other o" twoPoints.tail) (Options.ofDialect .ros2) =
          .ok ((bundleParts "a" own loaded).map fun part => part.2.qualify .ros2 part.1) ↔
        Unambiguous (own ++ loaded)) ∧
      (¬ Unambiguous (own ++ loaded) → ∃ type candidates,
        parse (bundleText "b/Other o" twoPoints.tail) (Options.ofDialect .ros2) =
          .error (.ambiguousType type candidates)) := by
  have hneeded : neededTypes .ros2 "a" "b/Other o" = .ok ["b/Other"] := by decide +kernel
  have hbundle : bundle .ros2 (Library.ofList twoPoints) "a" "b/Other o" =
      (["b/Other", "b/Point"], .ok (bundleText "b/Other o" twoPoints.tail)) :=
    bundle_of_gather rfl hneeded (by decide +kernel) (by decide +kernel)
  exact ⟨hbundle, parse_bundle (List.all_eq_true.1 (by decide)) (isPlain_of_ofList (by decide +kernel)) hbundle⟩

/-- With both points in one bundle, the bare name that each package uses is ambiguous. -/
theorem parse_bundle_of_two_points :
    (∀ name text, (Library.ofList twoPoints).find name = .ok (some text) → IsPlain text) ∧
    ∃ text, bundle .ros2 (Library.ofList twoPoints) "a" "Point p\nb/Other o" =
        (["a/Point", "b/Other", "b/Point"], .ok text) ∧
      parse text (Options.ofDialect .ros2) = .error (.ambiguousType "Point" ["a/Point", "b/Point"]) := by
  have hneeded : neededTypes .ros2 "a" "Point p\nb/Other o" = .ok ["a/Point", "b/Other"] := by
    decide +kernel
  refine ⟨isPlain_of_ofList (by decide +kernel), bundleText "Point p\nb/Other o" twoPoints, ?_, ?_⟩
  · exact bundle_of_gather rfl hneeded (by decide +kernel) (by decide +kernel)
  · have hnames : ∀ entry ∈ twoPoints, entry.1.toList ≠ [] ∧ entry.1.toList.all isTypePart = true := by
      decide
    have hword : ∀ entry ∈ twoPoints, Word isTypePart entry.1.toList := fun entry hentry =>
      Reader.word_of_all (hnames entry hentry).1 (hnames entry hentry).2
    rw [parse_ofDialect rfl]
    change Line.ros2.definitions _ >>= _ = _
    rw [Line.Grammar.definitions, blocks_bundleText hword (by decide +kernel)]
    decide +kernel

end RosSchema

import RosSchema.Proofs.FileTree.Search
import RosSchema.Proofs.Idl.Names
import RosSchema.Proofs.Line.Spelling

/-!
# Packages in a folder

The package of a type is a folder under a root, and a file of its local name is searched in it. The text of the
type is that of the first such file, at whatever depth, and there is none if there is no such file.
-/

namespace RosSchema

open Idl (lookup_eq_none_iff_not_mem mem_of_lookup)
open Line.Ros1 (IsIdentifier)
open Reader (Splits splits_iff isNamePart isNameStart)

/-! ## Names in a type -/

theorem before_append {mark : Char} {cs : List Char} (h : mark ∉ cs) (rest : List Char) :
    Text.before mark (cs ++ mark :: rest) = cs := by
  have hsplits : Splits (· != mark) (cs ++ mark :: rest) cs (mark :: rest) := by
    refine ⟨rfl, fun c hc => ?_, by simp⟩
    simpa using fun heq : c = mark => h (heq ▸ hc)
  exact (splits_iff.1 hsplits).1

theorem not_mem_slash {name : String} (h : IsIdentifier name.toList) : '/' ∉ name.toList :=
  fun hm => absurd (h.all _ hm) (by decide)

theorem ne_relative {name : String} (h : IsIdentifier name.toList) : name ≠ "" ∧ name ≠ "." ∧ name ≠ ".." := by
  obtain ⟨c, tail, heq, hc⟩ := h.first
  have hne {word : String} (hword : ∀ c ∈ word.toList.head?, isNameStart c = false) : name ≠ word := by
    rintro rfl
    rw [heq] at hword
    simp [hword c rfl] at hc
  exact ⟨hne (by simp), hne (by rintro c ⟨⟩; decide), hne (by rintro c ⟨⟩; decide)⟩

def slashedName (package : String) (middle : List String) (name : String) : String :=
  "/".intercalate (package :: (middle ++ [name]))

section Names

variable (package : String) (middle : List String) (name : String)

theorem exists_toList_slashedName_eq_append : ∃ rest, (slashedName package middle name).toList =
    package.toList ++ '/' :: rest := by
  cases middle <;> simp [slashedName]

theorem exists_toList_slashedName_eq : ∃ front, (slashedName package middle name).toList =
    front ++ '/' :: name.toList := by
  rw [slashedName, ← List.cons_append,
    String.intercalate_append_of_ne_nil (List.cons_ne_nil _ _) (List.cons_ne_nil _ _)]
  exact ⟨("/".intercalate (package :: middle)).toList, by simp⟩

variable {package name}

theorem packageOf_slashedName (h : IsIdentifier package.toList) :
    packageOf (slashedName package middle name) = package := by
  obtain ⟨rest, hrest⟩ := exists_toList_slashedName_eq_append package middle name
  rw [packageOf, hrest, before_append (not_mem_slash h), String.ofList_toList]

theorem localName_slashedName (h : IsIdentifier name.toList) :
    localName (slashedName package middle name) = name := by
  obtain ⟨front, hfront⟩ := exists_toList_slashedName_eq package middle name
  have hslash : '/' ∉ name.toList.reverse := fun hm => not_mem_slash h (List.mem_reverse.1 hm)
  rw [localName, hfront, List.reverse_append, List.reverse_cons, List.append_assoc, List.singleton_append,
    before_append hslash, List.reverse_reverse, String.ofList_toList]

end Names

/-! ## Following a path -/

namespace Entry

theorem at?_append (e : Entry) (names others : List String) :
    e.at? (names ++ others) = e.at? names >>= (·.at? others) := by
  induction names generalizing e with
  | nil => rw [List.nil_append, at?]; rfl
  | cons name names ih =>
    cases e with
    | file text => rfl
    | folder entries =>
      rw [List.cons_append, at?, at?]
      cases entries.lookup name with
      | none => rfl
      | some e => exact ih e

/-- A name stands for one entry, where no other entry has it. -/
theorem lookup_eq_some_iff_mem {entries : List (String × Entry)} (names : (entries.map Prod.fst).Nodup)
    {name : String} {e : Entry} : entries.lookup name = some e ↔ (name, e) ∈ entries := by
  refine ⟨mem_of_lookup, fun h => ?_⟩
  cases hlookup : entries.lookup name with
  | none => exact absurd (List.mem_map_of_mem h) (lookup_eq_none_iff_not_mem.1 hlookup)
  | some e' =>
    cases List.inj_on_of_nodup_map names h (mem_of_lookup hlookup) rfl
    rfl

theorem at?_singleton_eq_ok {tree e : Entry} {name : String} :
    tree.at? [name] = .ok e ↔ ∃ entries, tree = .folder entries ∧ entries.lookup name = some e := by
  cases tree with
  | file text => simp [at?]
  | folder entries => cases h : entries.lookup name <;> simp [at?, h]

/-- The files below a name are those of the entry that the name leads to. -/
theorem fileAt_cons_iff {tree : Entry} (distinct : tree.Distinct) {name text : String} {path : List String} :
    FileAt text tree (name :: path) ↔ ∃ e, tree.at? [name] = .ok e ∧ FileAt text e path := by
  cases tree with
  | file text' => simp [at?, fileAt_file]
  | folder entries =>
    obtain _ | ⟨names, -⟩ := distinct
    simp [fileAt_folder_cons, at?_singleton_eq_ok, lookup_eq_some_iff_mem names]

theorem Distinct.at? {tree e : Entry} (distinct : tree.Distinct) {name : String} (h : tree.at? [name] = .ok e) :
    e.Distinct := by
  obtain ⟨entries, rfl, hlookup⟩ := at?_singleton_eq_ok.1 h
  obtain _ | ⟨-, inner⟩ := distinct
  exact inner _ (mem_of_lookup hlookup)

end Entry

namespace Disk

/-- A name added to a path is one more part of it. -/
theorem parts_append (path : String) {name : String} (h : '/' ∉ name.toList) :
    parts (path ++ "/" ++ name) = parts path ++ [name] := by
  have hname : name.toList.splitOn '/' = [name.toList] := List.splitOn_eq_singleton h
  simp [parts, hname, List.splitOn_append_cons_self]

section Step

variable {d : Disk} {names : List String} {name : String} (hname : IsIdentifier name.toList)
include hname

theorem step_folder {entries : List (String × Entry)} (hnames : d.root.at? names = .ok (.folder entries)) :
    d.step names name = if (entries.lookup name).isSome then .ok (names ++ [name]) else .error .missing := by
  obtain ⟨hempty, hsame, habove⟩ := ne_relative hname
  rw [step, hnames]
  exact (if_neg (by simp [hempty, hsame])).trans (if_neg (by simp [habove]))

/-- A name leads from an entry to the entry of that name in it. -/
theorem step_name {e : Entry} (hnames : d.root.at? names = .ok e) :
    (d.step names name >>= fun names => d.root.at? names) = e.at? [name] := by
  cases e with
  | file text =>
    rw [step, hnames]
    rfl
  | folder entries =>
    rw [step_folder hname hnames]
    cases hlookup : entries.lookup name with
    | none => simp [Entry.at?, hlookup, bind, Except.bind]
    | some e =>
      change d.root.at? (names ++ [name]) = _
      rw [Entry.at?_append, hnames]
      rfl

end Step

/-- The entry of a name in the folder at a path. -/
theorem entry_append {d : Disk} {path : String} {e : Entry} (h : d.entry path = .ok e) {name : String}
    (hname : IsIdentifier name.toList) : d.entry (path ++ "/" ++ name) = e.at? [name] := by
  obtain ⟨names, hlocate, hnames⟩ := Steps.bind_eq_ok.1 h
  have hfollow : d.follow (parts path) = .ok names := by
    rw [locate] at hlocate
    split at hlocate
    · cases hlocate
    · exact hlocate
  have hlocate' : d.locate (path ++ "/" ++ name) = d.step names name := by
    have hstart : (parts path ++ [name]).head? = (parts path).head? :=
      List.head?_append_of_ne_nil _ (by simp [parts, List.splitOn_ne_nil])
    rw [locate, if_neg (by simp), parts_append path (not_mem_slash hname), follow, hstart, List.foldlM_append]
    rw [follow] at hfollow
    refine (congrArg (· >>= fun names => [name].foldlM d.step names) hfollow).trans ?_
    simp only [List.foldlM_cons, List.foldlM_nil]
    exact bind_pure (d.step names name)
  rw [entry, hlocate']
  exact step_name hname hnames

end Disk

/-! ## The texts of types -/

/-- The text of a type is searched in the folder of its package, if there is one. -/
theorem findDefinition_slashedName {d : Disk} {root : String} {tree : Entry} (entry : d.entry root = .ok tree)
    {package name : String} (hpackage : IsIdentifier package.toList) (hname : IsIdentifier name.toList)
    (middle : List String) : findDefinition d root (slashedName package middle name) =
      (tree.at? [package]).toOption.bind fun e => e.sort.search? (name ++ ".msg") := by
  rw [findDefinition, packageOf_slashedName middle hpackage, localName_slashedName middle hname,
    Disk.entry_append entry hpackage]
  cases tree.at? [package] <;> rfl

/-- A file that defines a type: one of its local name, at any depth in the folder of its package. -/
def Defines (tree : Entry) (package name : String) (path : List String) (text : String) : Prop :=
  tree.FileAt text (package :: (path ++ [name ++ ".msg"]))

/-- A type has a text exactly if a file in its package defines it, and the text is that of the first such file. A
folder of that name is no such file, and what is in it counts like the rest of the package. -/
theorem find_ofFolder {d : Disk} {root : String} {tree : Entry} (entry : d.entry root = .ok tree)
    (distinct : tree.Distinct) {package name : String} (hpackage : IsIdentifier package.toList)
    (hname : IsIdentifier name.toList) (middle : List String) :
    (∀ text, (Library.ofFolder d root).find (slashedName package middle name) = .ok (some text) ↔
      ∃ path, Defines tree package name path text ∧
        ∀ path' text', Defines tree package name path' text' →
          path' = path ∨ Earlier (path ++ [name ++ ".msg"]) (path' ++ [name ++ ".msg"])) ∧
    ((∃ text, (Library.ofFolder d root).find (slashedName package middle name) = .ok (some text)) ↔
      ∃ path text, Defines tree package name path text) ∧
    ((Library.ofFolder d root).find (slashedName package middle name) = .ok none ↔
      ¬ ∃ path text, Defines tree package name path text) := by
  have hfind : (Library.ofFolder d root).find (slashedName package middle name) =
      .ok ((tree.at? [package]).toOption.bind fun e => e.sort.search? (name ++ ".msg")) :=
    congrArg Except.ok (findDefinition_slashedName entry hpackage hname middle)
  have hdefines (path : List String) (text : String) : Defines tree package name path text ↔
      ∃ e, tree.at? [package] = .ok e ∧ e.FileAt text (path ++ [name ++ ".msg"]) :=
    Entry.fileAt_cons_iff distinct
  simp only [hfind, hdefines, Except.ok.injEq]
  cases h : tree.at? [package] with
  | error e => simp [Except.toOption]
  | ok e =>
    have hdistinct := distinct.at? h
    simp only [Except.ok.injEq, exists_eq_left', Except.toOption, Option.bind_some]
    have hnone : e.sort.search? (name ++ ".msg") = none ↔
        ¬ ∃ path text, e.FileAt text (path ++ [name ++ ".msg"]) := by
      simpa only [not_exists] using Entry.search?_sort_eq_none hdistinct
    refine ⟨fun text => ?_, ?_, hnone⟩
    · simp only [Entry.search?_sort_eq_some hdistinct, Entry.firstFile_iff]
    · rw [← not_iff_not, ← hnone, Option.eq_none_iff_forall_ne_some, not_exists]

/-- Two files define a point. The folder of one has the name of such a file, and comes after the other one in
the folder of the package. -/
def nestedPoints : Entry := .folder [("geometry", .folder
  [("b", .folder [("Point.msg", .file "float64 x")]), ("Point.msg", .folder [("Point.msg", .file "float32 x")])])]

theorem fileAt_nestedPoints {path : List String} {text : String} : nestedPoints.FileAt text path ↔
    path = ["geometry", "b", "Point.msg"] ∧ text = "float64 x" ∨
      path = ["geometry", "Point.msg", "Point.msg"] ∧ text = "float32 x" := by
  simp only [nestedPoints, Entry.fileAt_cons, Entry.not_fileAt_empty, Entry.fileAt_file, or_false]
  constructor
  · rintro ⟨_, rfl, ⟨_, rfl, _, rfl, rfl, rfl⟩ | ⟨_, rfl, _, rfl, rfl, rfl⟩⟩
    · exact .inl ⟨rfl, rfl⟩
    · exact .inr ⟨rfl, rfl⟩
  · rintro (⟨rfl, rfl⟩ | ⟨rfl, rfl⟩) <;> simp

/-- A folder with the name of the file is searched, and before a folder of a greater name. -/
theorem find_ofFolder_of_nestedPoints :
    (Library.ofFolder ⟨.folder [("ws", nestedPoints)], ["ws"]⟩ "/ws/").find "geometry/msg/Point" =
      .ok (some "float32 x") ∧
    (Library.ofFolder ⟨.folder [("ws", nestedPoints)], ["ws"]⟩ ".").find "geometry/Pose" = .ok none := by
  have absolute : Disk.entry ⟨.folder [("ws", nestedPoints)], ["ws"]⟩ "/ws/" = .ok nestedPoints := rfl
  have relative : Disk.entry ⟨.folder [("ws", nestedPoints)], ["ws"]⟩ "." = .ok nestedPoints := rfl
  have distinct : nestedPoints.Distinct := by
    have hleaf (text : String) : (Entry.folder [("Point.msg", .file text)]).Distinct :=
      .folder (by simp) (by simpa using .file text)
    refine .folder (by simp) ?_
    simp only [List.mem_singleton, forall_eq]
    refine .folder (by simp) ?_
    simp [hleaf]
  have identifier {name : String} (first : ∃ c tail, name.toList = c :: tail ∧ isNameStart c = true)
      (all : name.toList.all isNamePart = true) : IsIdentifier name.toList :=
    ⟨first, List.all_eq_true.1 all⟩
  have hpackage : IsIdentifier "geometry".toList := identifier ⟨_, _, rfl, by decide⟩ (by decide)
  constructor
  · have hname : IsIdentifier "Point".toList := identifier ⟨_, _, rfl, by decide⟩ (by decide)
    refine ((find_ofFolder absolute distinct hpackage hname ["msg"]).1 _).2 ⟨["Point.msg"], ?_, ?_⟩
    · exact fileAt_nestedPoints.2 (.inr ⟨rfl, rfl⟩)
    · intro path' text' hfile
      rcases fileAt_nestedPoints.1 hfile with ⟨hpath, -⟩ | ⟨hpath, -⟩
      · obtain ⟨rfl, -⟩ := List.append_inj' (show path' ++ _ = ["b"] ++ _ from (List.cons.inj hpath).2) rfl
        exact .inr (.rel (Text.bytes_lt_bytes_iff.2 (by decide)))
      · obtain ⟨rfl, -⟩ := List.append_inj' (show path' ++ _ = ["Point.msg"] ++ _ from (List.cons.inj hpath).2) rfl
        exact .inl rfl
  · have hname : IsIdentifier "Pose".toList := identifier ⟨_, _, rfl, by decide⟩ (by decide)
    refine ((find_ofFolder relative distinct hpackage hname []).2.2).2 ?_
    rintro ⟨path, text, hfile⟩
    rcases fileAt_nestedPoints.1 hfile with ⟨hpath, -⟩ | ⟨hpath, -⟩
    · obtain ⟨-, hlast⟩ := List.append_inj' (show path ++ _ = ["b"] ++ _ from (List.cons.inj hpath).2) rfl
      exact absurd hlast (by decide)
    · obtain ⟨-, hlast⟩ := List.append_inj' (show path ++ _ = ["Point.msg"] ++ _ from (List.cons.inj hpath).2) rfl
      exact absurd hlast (by decide)

end RosSchema

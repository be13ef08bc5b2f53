import RosSchema.FileTree
import RosSchema.Proofs.Text.ByteOrder

/-!
# Searching file trees

A search of a tree finds a file of a name exactly if there is one, at any depth. Of several it finds the first
one by its path: paths are compared name by name, and names by their bytes.
-/

namespace RosSchema

open Text (bytes bytes_lt_bytes_iff)

/-- The order of paths: by the bytes of the first names in which they differ. -/
def Earlier : List String → List String → Prop := List.Lex fun a b => bytes a < bytes b

theorem Earlier.asymm {path path' : List String} (h : Earlier path path') : ¬ Earlier path' path := by
  intro h'
  induction h with
  | nil => cases h'
  | rel hlt =>
    cases h' with
    | rel hgt => exact List.lt_asymm hlt hgt
    | cons _ => exact List.lt_irrefl _ hlt
  | cons _ ih =>
    cases h' with
    | rel hgt => exact List.lt_irrefl _ hgt
    | cons h' => exact ih h'

namespace Entry

inductive FileAt (text : String) : Entry → List String → Prop where
  | here : FileAt text (.file text) []
  | inside {name : String} {e : Entry} {entries : List (String × Entry)} {path : List String}
      (member : (name, e) ∈ entries) (file : FileAt text e path) : FileAt text (.folder entries) (name :: path)

inductive Distinct : Entry → Prop where
  | file (text : String) : Distinct (.file text)
  | folder {entries : List (String × Entry)} (names : (entries.map Prod.fst).Nodup)
      (inner : ∀ entry ∈ entries, Distinct entry.2) : Distinct (.folder entries)

inductive Ascending : Entry → Prop where
  | file (text : String) : Ascending (.file text)
  | folder {entries : List (String × Entry)} (names : entries.Pairwise fun a b => a.1 < b.1)
      (inner : ∀ entry ∈ entries, Ascending entry.2) : Ascending (.folder entries)

variable {e : Entry} {entries : List (String × Entry)} {path : List String} {text file name : String}

/-! ## Files by their paths -/

theorem fileAt_file {text' : String} : FileAt text (.file text') path ↔ path = [] ∧ text' = text := by
  constructor
  · rintro ⟨⟩
    exact ⟨rfl, rfl⟩
  · rintro ⟨rfl, rfl⟩
    exact .here

theorem not_fileAt_folder_nil : ¬ FileAt text (.folder entries) [] := by
  rintro ⟨⟩

theorem fileAt_folder_cons : FileAt text (.folder entries) (name :: path) ↔
    ∃ e, (name, e) ∈ entries ∧ FileAt text e path := by
  constructor
  · rintro ⟨⟩
    exact ⟨_, ‹_›, ‹_›⟩
  · rintro ⟨e, member, file⟩
    exact .inside member file

theorem not_fileAt_empty : ¬ FileAt text (.folder []) path := by
  rintro (_ | ⟨member, -⟩)
  cases member

/-- A file of a folder is in the first entry or in another one. -/
theorem fileAt_cons : FileAt text (.folder ((name, e) :: entries)) path ↔
    (∃ rest, path = name :: rest ∧ FileAt text e rest) ∨ FileAt text (.folder entries) path := by
  constructor
  · rintro (_ | ⟨member, hfile⟩)
    rcases List.mem_cons.1 member with heq | member
    · cases heq
      exact .inl ⟨_, rfl, hfile⟩
    · exact .inr (.inside member hfile)
  · rintro (⟨rest, rfl, hfile⟩ | _ | ⟨member, hfile⟩)
    · exact .inside List.mem_cons_self hfile
    · exact .inside (List.mem_cons_of_mem _ member) hfile

theorem fileAt_file_cons {text' : String} :
    FileAt text (.folder ((name, .file text') :: entries)) (path ++ [file]) ↔
      (path = [] ∧ name = file ∧ text' = text) ∨ FileAt text (.folder entries) (path ++ [file]) := by
  rw [fileAt_cons]
  refine or_congr_left ⟨?_, ?_⟩
  · rintro ⟨rest, hpath, hfile⟩
    obtain ⟨rfl, rfl⟩ := fileAt_file.1 hfile
    obtain ⟨rfl, hname⟩ := List.append_inj' (show path ++ [file] = [] ++ [name] from hpath) rfl
    exact ⟨rfl, (List.cons.inj hname).1.symm, rfl⟩
  · rintro ⟨rfl, rfl, rfl⟩
    exact ⟨[], rfl, .here⟩

theorem fileAt_folder_cons_cons {inner : List (String × Entry)} :
    FileAt text (.folder ((name, .folder inner) :: entries)) (path ++ [file]) ↔
      (∃ path', path = name :: path' ∧ FileAt text (.folder inner) (path' ++ [file])) ∨
        FileAt text (.folder entries) (path ++ [file]) := by
  rw [fileAt_cons]
  refine or_congr_left ⟨?_, ?_⟩
  · rintro ⟨rest, hpath, hfile⟩
    rcases List.append_eq_cons_iff.1 hpath with ⟨rfl, heq⟩ | ⟨path', rfl, rfl⟩
    · obtain ⟨-, rfl⟩ := List.cons.inj heq
      exact absurd hfile not_fileAt_folder_nil
    · exact ⟨path', rfl, hfile⟩
  · rintro ⟨path', rfl, hfile⟩
    exact ⟨_, rfl, hfile⟩

/-! ## Sorting -/

theorem sortAll_eq_map (entries : List (String × Entry)) :
    sortAll entries = entries.map fun entry => (entry.1, entry.2.sort) := by
  induction entries with
  | nil => rfl
  | cons entry entries ih => rw [sortAll, ih, List.map_cons]

theorem sort_folder (entries : List (String × Entry)) : sort (.folder entries) =
    .folder ((entries.map fun entry => (entry.1, entry.2.sort)).mergeSort comesBefore) := by
  rw [sort, sortAll_eq_map]

theorem mem_sorted {entry : String × Entry} :
    entry ∈ (entries.map fun entry => (entry.1, entry.2.sort)).mergeSort comesBefore ↔
      ∃ e, (entry.1, e) ∈ entries ∧ e.sort = entry.2 := by
  rw [List.mem_mergeSort, List.mem_map]
  constructor
  · rintro ⟨⟨name, e⟩, he, rfl⟩
    exact ⟨e, he, rfl⟩
  · rintro ⟨e, he, heq⟩
    exact ⟨_, he, Prod.ext rfl heq⟩

/-- Sorting moves no file to another path. -/
theorem fileAt_sort : FileAt text e.sort path ↔ FileAt text e path := by
  induction path generalizing e with
  | nil =>
    cases e with
    | file text => rw [sort]
    | folder entries => exact iff_of_false (by rw [sort]; exact not_fileAt_folder_nil) not_fileAt_folder_nil
  | cons name path ih =>
    cases e with
    | file text => rw [sort]
    | folder entries =>
      simp only [sort_folder, fileAt_folder_cons, mem_sorted]
      constructor
      · rintro ⟨_, ⟨e, he, rfl⟩, hfile⟩
        exact ⟨e, he, ih.1 hfile⟩
      · rintro ⟨e, he, hfile⟩
        exact ⟨e.sort, ⟨e, he, rfl⟩, ih.2 hfile⟩

/-- Entries with names of their own come in the order of their names. -/
theorem pairwise_mergeSort (h : (entries.map Prod.fst).Nodup) :
    (entries.mergeSort comesBefore).Pairwise fun a b => a.1 < b.1 := by
  have hsorted : (entries.mergeSort comesBefore).Pairwise fun a b => comesBefore a b := by
    refine List.pairwise_mergeSort (fun a b c hab hbc => ?_) (fun a b => ?_) entries
    · simp only [comesBefore, decide_eq_true_eq] at hab hbc ⊢
      exact hab.trans hbc
    · simpa only [comesBefore, Bool.or_eq_true, decide_eq_true_eq] using le_total a.1 b.1
  have hnames : (entries.mergeSort comesBefore).Pairwise fun a b => a.1 ≠ b.1 :=
    List.pairwise_map.1 (((List.mergeSort_perm entries comesBefore).map Prod.fst).nodup_iff.2 h)
  refine (hsorted.and hnames).imp fun ⟨hle, hne⟩ => ?_
  exact lt_of_le_of_ne (of_decide_eq_true hle) hne

theorem ascending_sort (h : e.Distinct) : e.sort.Ascending := by
  induction h with
  | file text =>
    rw [sort]
    exact .file text
  | @folder entries names inner ih =>
    rw [sort_folder]
    refine .folder (pairwise_mergeSort ?_) fun entry hentry => ?_
    · rw [List.map_map]
      exact names
    · obtain ⟨e, he, hsort⟩ := mem_sorted.1 hentry
      rw [← hsort]
      exact ih _ he

/-! ## Searching -/

/-- The entries of folders are searched one after another, and those of a folder before what comes after it. -/
theorem entries_induction {P : List (String × Entry) → Prop} (nil : P [])
    (file : ∀ name text rest, P rest → P ((name, .file text) :: rest))
    (folder : ∀ name inner rest, P inner → P rest → P ((name, .folder inner) :: rest)) : ∀ entries, P entries
  | [] => nil
  | (name, .file text) :: rest => file name text rest (entries_induction nil file folder rest)
  | (name, .folder inner) :: rest =>
    folder name inner rest (entries_induction nil file folder inner) (entries_induction nil file folder rest)

/-- A search finds nothing only if there is no file of the name. -/
theorem searchAll?_eq_none (h : searchAll? file entries = none) (path : List String) (text : String) :
    ¬ FileAt text (.folder entries) (path ++ [file]) := by
  induction entries using entries_induction generalizing path with
  | nil => exact not_fileAt_empty
  | file name text' rest ih =>
    rw [searchAll?] at h
    split at h
    · cases h
    · next hne =>
      rw [fileAt_file_cons]
      rintro (⟨-, hname, -⟩ | hfile)
      · exact hne hname
      · exact ih h path hfile
  | folder name inner rest ihInner ihRest =>
    rw [searchAll?, search?] at h
    obtain ⟨hinner, hrest⟩ := (Option.orElse_eq_none _ _).1 h
    rw [fileAt_folder_cons_cons]
    rintro (⟨path', -, hfile⟩ | hfile)
    · exact ihInner hinner path' hfile
    · exact ihRest hrest path hfile

@[mk_iff]
structure FirstFile (file : String) (e : Entry) (path : List String) (text : String) : Prop where
  fileAt : FileAt text e (path ++ [file])
  first : ∀ path' text', FileAt text' e (path' ++ [file]) →
    path' = path ∨ Earlier (path ++ [file]) (path' ++ [file])

/-- What is in an entry comes before what is in entries of greater names. -/
theorem earlier_of_fileAt (h : ∀ entry ∈ entries, name < entry.1) {path' : List String}
    (hfile : FileAt text (.folder entries) path') (path : List String) : Earlier (name :: path) path' := by
  cases hfile with
  | inside member _ => exact .rel (bytes_lt_bytes_iff.2 (h _ member))

/-- An entry without files of a name does not change which of them is the first. -/
theorem FirstFile.cons (h : FirstFile file (.folder entries) path text)
    (others : ∀ path text, FileAt text (.folder ((name, e) :: entries)) (path ++ [file]) →
      FileAt text (.folder entries) (path ++ [file])) :
    FirstFile file (.folder ((name, e) :: entries)) path text where
  fileAt := fileAt_cons.2 (.inr h.fileAt)
  first path' text' hfile := h.first path' text' (others path' text' hfile)

/-- A search of entries in order finds the first file of the name. -/
theorem exists_firstFile_of_searchAll? (ascending : (folder entries).Ascending)
    (h : searchAll? file entries = some text) : ∃ path, FirstFile file (.folder entries) path text := by
  induction entries using entries_induction with
  | nil => cases h
  | file name text' rest ih =>
    obtain _ | ⟨names, inner⟩ := ascending
    obtain ⟨hname, hnames⟩ := List.pairwise_cons.1 names
    obtain ⟨-, hinner⟩ := List.forall_mem_cons.1 inner
    rw [searchAll?] at h
    split at h
    · next heq =>
      cases h
      refine ⟨[], fileAt_file_cons.2 (.inl ⟨rfl, heq, rfl⟩), fun path' text' hfile => ?_⟩
      rcases fileAt_file_cons.1 hfile with ⟨rfl, -⟩ | hfile
      · exact .inl rfl
      · exact .inr (heq ▸ earlier_of_fileAt hname hfile [])
    · next hne =>
      obtain ⟨path, hpath⟩ := ih (.folder hnames hinner) h
      refine ⟨path, hpath.cons fun path' text' hfile => ?_⟩
      exact (fileAt_file_cons.1 hfile).resolve_left fun ⟨_, heq, _⟩ => hne heq
  | folder name inner rest ihInner ihRest =>
    obtain _ | ⟨names, hinner⟩ := ascending
    obtain ⟨hname, hnames⟩ := List.pairwise_cons.1 names
    obtain ⟨hinner, hrest⟩ := List.forall_mem_cons.1 hinner
    rw [searchAll?, search?] at h
    rcases (Option.orElse_eq_some _ _ _).1 h with h | ⟨hnone, h⟩
    · -- all files of the other entries come after those of the folder
      obtain ⟨path, hpath⟩ := ihInner hinner h
      refine ⟨name :: path, fileAt_folder_cons_cons.2 (.inl ⟨path, rfl, hpath.fileAt⟩), ?_⟩
      intro path' text' hfile
      rcases fileAt_folder_cons_cons.1 hfile with ⟨inside, rfl, hinside⟩ | hfile
      · exact (hpath.first inside text' hinside).imp (congrArg _) .cons
      · exact .inr (earlier_of_fileAt hname hfile _)
    · obtain ⟨path, hpath⟩ := ihRest (.folder hnames hrest) h
      refine ⟨path, hpath.cons fun path' text' hfile => ?_⟩
      exact (fileAt_folder_cons_cons.1 hfile).resolve_left fun ⟨inside, _, hfile⟩ =>
        searchAll?_eq_none hnone inside text' hfile

/-! ## Searching a tree -/

theorem search?_eq_none (h : search? file e = none) (path : List String) (text : String) :
    ¬ FileAt text e (path ++ [file]) := by
  cases e with
  | file text' => simp [fileAt_file]
  | folder entries =>
    rw [search?] at h
    exact searchAll?_eq_none h path text

theorem exists_firstFile (ascending : e.Ascending) (h : search? file e = some text) :
    ∃ path, FirstFile file e path text := by
  cases e with
  | file text' => cases h
  | folder entries => exact exists_firstFile_of_searchAll? ascending h

/-- No two files of a tree have one path. -/
theorem FileAt.unique (distinct : e.Distinct) {text' : String} (h : FileAt text e path) (h' : FileAt text' e path) :
    text = text' := by
  induction h with
  | here =>
    cases h'
    rfl
  | @inside name e entries path member _ ih =>
    obtain _ | ⟨names, inner⟩ := distinct
    obtain _ | ⟨member', h'⟩ := h'
    cases List.inj_on_of_nodup_map names member member' rfl
    exact ih (inner _ member) h'

theorem FirstFile.unique (distinct : e.Distinct) {path' : List String} {text' : String}
    (h : FirstFile file e path text) (h' : FirstFile file e path' text') : text = text' := by
  rcases h.first path' text' h'.fileAt with rfl | hlt
  · exact h.fileAt.unique distinct h'.fileAt
  · rcases h'.first path text h.fileAt with rfl | hgt
    · exact h.fileAt.unique distinct h'.fileAt
    · exact absurd hgt (Earlier.asymm hlt)

/-- The search of a tree, with folders in order, finds the first file of a name. -/
theorem search?_sort_eq_some (distinct : e.Distinct) :
    search? file e.sort = some text ↔ ∃ path, FirstFile file e path text := by
  have hfirst {text : String} (h : search? file e.sort = some text) : ∃ path, FirstFile file e path text := by
    obtain ⟨path, hpath⟩ := exists_firstFile (ascending_sort distinct) h
    exact ⟨path, fileAt_sort.1 hpath.fileAt, fun path' text' hfile =>
      hpath.first path' text' (fileAt_sort.2 hfile)⟩
  refine ⟨hfirst, fun ⟨path, hpath⟩ => ?_⟩
  cases h : search? file e.sort with
  | none => exact absurd (fileAt_sort.2 hpath.fileAt) (search?_eq_none h path text)
  | some text' =>
    obtain ⟨path', hpath'⟩ := hfirst h
    rw [hpath.unique distinct hpath']

/-- The search of a tree, with folders in order, finds nothing only if there is no file of the name. -/
theorem search?_sort_eq_none (distinct : e.Distinct) :
    search? file e.sort = none ↔ ∀ path text, ¬ FileAt text e (path ++ [file]) := by
  refine ⟨fun h path text hfile => search?_eq_none h path text (fileAt_sort.2 hfile), fun none => ?_⟩
  cases h : search? file e.sort with
  | none => rfl
  | some text =>
    obtain ⟨path, hpath⟩ := (search?_sort_eq_some distinct).1 h
    exact absurd hpath.fileAt (none path text)

end Entry

end RosSchema

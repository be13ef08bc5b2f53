import RosSchema.Bundle

/-!
# File trees

A tree of folders and text files, with the reading and writing of files by their paths. A package is a
folder under a root, and the definition of a type is the first file of its name in the package, folders
being searched in the order of their names before what comes after them.
-/

namespace RosSchema

inductive Entry where
  | file (text : String)
  | folder (entries : List (String × Entry))

inductive PathError where
  | missing
  | notFolder
  | isFolder
  deriving DecidableEq, Repr

/-- The wording of an error, with the number that the operating system has for it. -/
def PathError.message : PathError → String
  | missing => "No such file or directory (os error 2)"
  | notFolder => "Not a directory (os error 20)"
  | isFolder => "Is a directory (os error 21)"

namespace Entry

/-- The entry at the end of a list of names. -/
def at? : Entry → List String → Except PathError Entry
  | e, [] => .ok e
  | .file _, _ :: _ => .error .notFolder
  | .folder entries, name :: rest =>
    match entries.lookup name with
    | some e => e.at? rest
    | none => .error .missing

/-- The entries of a folder, of which a file has none. -/
def entries : Entry → List (String × Entry)
  | .file _ => []
  | .folder entries => entries

/-- Put a file at the end of a list of names. Folders on the way that do not exist are made. -/
def put (text : String) : List String → Entry → Entry
  | [], _ => .file text
  | name :: rest, e =>
    let inner := put text rest ((e.entries.lookup name).getD (.folder []))
    if e.entries.any (·.1 == name) then
      .folder (e.entries.map fun entry => if entry.1 == name then (name, inner) else entry)
    else .folder (e.entries ++ [(name, inner)])

/-- Entries are ordered by the code points of their names. -/
def comesBefore (a b : String × Entry) : Bool := a.1 ≤ b.1

mutual

def sort : Entry → Entry
  | .file text => .file text
  | .folder entries => .folder ((sortAll entries).mergeSort comesBefore)

def sortAll : List (String × Entry) → List (String × Entry)
  | [] => []
  | (name, e) :: rest => (name, e.sort) :: sortAll rest

end

mutual

/-- The text of the first file of a name in a tree. A folder of that name is searched like any other. -/
def search? (file : String) : Entry → Option String
  | .file _ => none
  | .folder entries => searchAll? file entries

def searchAll? (file : String) : List (String × Entry) → Option String
  | [] => none
  | (name, .file text) :: rest => if name = file then some text else searchAll? file rest
  | (_, .folder entries) :: rest => (search? file (.folder entries)) <|> searchAll? file rest

end

mutual

/-- The number of entries of a tree and of the characters in its files. -/
def weight : Entry → Nat
  | .file text => text.length + 1
  | .folder entries => weightAll entries + 1

def weightAll : List (String × Entry) → Nat
  | [] => 0
  | (_, e) :: rest => e.weight + weightAll rest

end

end Entry

/-- A tree of files, and the names that lead to the folder where relative paths start. -/
structure Disk where
  root : Entry
  here : List String

/-- The package of a file, by the names that lead to it: the name of its folder, or of the folder above
if that is `msg`. -/
def packageOfNames? (names : List String) : Option String :=
  match names.dropLast.reverse with
  | [] => none
  | name :: above => if name == "msg" then above.head? else some name

namespace Disk

def step (d : Disk) (names : List String) (part : String) : Except PathError (List String) := do
  match ← d.root.at? names with
  | .file _ => throw .notFolder
  | .folder entries =>
    if part == "" || part == "." then return names
    else if part == ".." then return names.dropLast
    else if (entries.lookup part).isSome then return names ++ [part]
    else throw .missing

def parts (path : String) : List String := (path.toList.splitOn '/').map String.ofList

/-- The names that lead to the parts of a path. An absolute path starts with an empty part. -/
def follow (d : Disk) (parts : List String) : Except PathError (List String) :=
  let start := if parts.head? = some "" then [] else d.here
  parts.foldlM d.step start

def locate (d : Disk) (path : String) : Except PathError (List String) :=
  if path == "" then .error .missing else d.follow (parts path)

def entry (d : Disk) (path : String) : Except PathError Entry := do
  d.root.at? (← d.locate path)

def read (d : Disk) (path : String) : Except PathError String := do
  match ← d.entry path with
  | .file text => return text
  | .folder _ => throw .isFolder

/-- Write a file at a path. Its folder has to exist. -/
def write (d : Disk) (path text : String) : Except PathError Disk :=
  match d.entry path with
  | .ok (.file _) => do return { d with root := d.root.put text (← d.locate path) }
  | .ok (.folder _) => .error .isFolder
  | .error .missing => do
    let all := parts path
    let inFolder := all.getLast? == some ""
    let all := if inFolder then all.dropLast else all
    let folder ← d.follow all.dropLast
    if inFolder then throw .isFolder
    match all.getLast? with
    | some name => return { d with root := d.root.put text (folder ++ [name]) }
    | none => throw .missing
  | .error e => .error e

def packageOfFile? (d : Disk) (path : String) : Option String :=
  match d.locate path with
  | .error _ => none
  | .ok names => packageOfNames? names

end Disk

/-- The part of a type name after its last slash. -/
def localName (type : String) : String :=
  String.ofList (Text.before '/' type.toList.reverse).reverse

/-- The text of a type in the packages under a root: the first file of its name in its package. -/
def findDefinition (d : Disk) (root type : String) : Option String :=
  match d.entry (root ++ "/" ++ packageOf type) with
  | .ok package => package.sort.search? (localName type ++ ".msg")
  | .error _ => none

/-- The library of the packages under a root. A name with a text comes from one of the texts, seen from
one of the packages. -/
def Library.ofFolder (d : Disk) (root : String) : Library :=
  ⟨fun type => .ok (findDefinition d root type), Nat.pow (d.root.weight + 2) 2⟩

end RosSchema

import RosSchema.Schema

/-!
# Bundles

A text in lines only names the types that it uses. A bundle is that text with the texts of all types it
needs, each once, breadth first in the order of first use. `gather` collects them from a library, and
`bundle` writes them one after the other.
-/

namespace RosSchema

inductive BundleError where
  /-- A text is wrong. -/
  | parse (context : String) (cause : Error)
  /-- A type has no text. -/
  | notFound (type : String)
  /-- The library failed. -/
  | library (message : String)
  deriving DecidableEq, Repr

def BundleError.message : BundleError → String
  | parse context cause =>
    let inner := cause.message
    s!"failed to parse {context}: {inner}"
  | notFound type => s!"failed to load definition for type {type}"
  | library message => message

/-- The texts of types. -/
structure Library where
  /-- The text of a type by its full name, if there is one, or why that cannot be told. -/
  find : String → Except String (Option String)
  /-- A number that is not exceeded by the names with a text that one bundle can need. -/
  size : Nat

/-- A library of named texts, the first of a name counting. -/
def Library.ofList (texts : List (String × String)) : Library :=
  ⟨fun name => .ok (texts.lookup name), texts.length⟩

/-- The package of a full type name: its part before the first slash. -/
def packageOf (type : String) : String := String.ofList (Text.before '/' type.toList)

/-- The full name of a type that a definition of a package uses. In ROS 1 a bare `Header` is the one
of `std_msgs`. -/
def qualify (d : Dialect) (package type : String) : String :=
  if type.toList.contains '/' then type
  else if type == "Header" && d == .ros1 then "std_msgs/Header"
  else s!"{package}/{type}"

/-- The full names of the types that a text of a package uses. -/
def neededTypes (d : Dialect) (package text : String) : Except Error (List String) := do
  let definitions ← parse text { Options.ofDialect d with keepTypes := true }
  return (referencedTypes definitions).map (qualify d package)

/-- Names added to those that were met before, each once. -/
def meet (met : List String) (names : List String) : List String :=
  names.foldl (fun met name => if name ∈ met then met else met ++ [name]) met

structure Gathered where
  asked : List String := []
  texts : Except BundleError (List (String × String)) := .ok []

/-- Walk from the names that were met but not asked for yet, with the number of them that were asked
for. The first argument bounds the names that can be found. -/
def gather (d : Dialect) (library : Library) : Nat → Nat → List String → Gathered
  | 0, position, met =>
    match met[position]? with
    | none => {}
    | some type => ⟨[type], .error (.notFound type)⟩
  | n + 1, position, met =>
    match met[position]? with
    | none => {}
    | some type =>
      match library.find type with
      | .error message => ⟨[type], .error (.library message)⟩
      | .ok none => ⟨[type], .error (.notFound type)⟩
      | .ok (some text) =>
        match neededTypes d (packageOf type) text with
        | .error e => ⟨[type], .error (.parse s!"definition of {type}" e)⟩
        | .ok names =>
          let others := gather d library n (position + 1) (meet met names)
          ⟨type :: others.asked, others.texts.map ((type, text) :: ·)⟩

def bundleText (root : String) (texts : List (String × String)) : String :=
  let part (entry : String × String) : List Char :=
    divider ++ '\n' :: "MSG: ".toList ++ entry.1.toList ++ '\n' :: entry.2.toList ++ ['\n']
  String.ofList (root.toList ++ '\n' :: texts.flatMap part)

/-- The bundle of a text of a package, and the names that the library was asked for. -/
def bundle (d : Dialect) (library : Library) (package root : String) :
    List String × Except BundleError String :=
  if !d.isLineOriented then
    ([], .error (.parse "root definition" (.unsupportedDialect d.name)))
  else
    match neededTypes d package root with
    | .error e => ([], .error (.parse "root definition" e))
    | .ok names =>
      let gathered := gather d library (library.size + root.length + 1) 0 (meet [] names)
      (gathered.asked, gathered.texts.map (bundleText root))

end RosSchema

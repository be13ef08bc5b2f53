import RosSchema.Cli.Arguments
import RosSchema.FileTree
import RosSchema.Json

/-!
# Running commands

A command turns the text of its input into the text to write, or fails with a message and the causes
of it. `run` does so on a file tree.
-/

namespace RosSchema.Cli

structure Failure where
  message : String
  causes : List String := []
  deriving DecidableEq, Repr

def indented (width : Nat) (text : String) : List Char :=
  ('\n' :: List.replicate width ' ').intercalate (text.toList.splitOn '\n')

/-- The text of a failure. A single cause is indented, and several are numbered. -/
def Failure.text (f : Failure) : String :=
  let numbered (entry : String × Nat) : List Char :=
    "\n    ".toList ++ Numeral.ofNat entry.2 ++ ": ".toList ++ indented 7 entry.1
  let causes := match f.causes with
    | [] => []
    | [cause] => "\n\nCaused by:\n    ".toList ++ indented 4 cause
    | causes => "\n\nCaused by:".toList ++ causes.zipIdx.flatMap numbered
  String.ofList ("Error: ".toList ++ f.message.toList ++ causes ++ ['\n'])

def Failure.ofError (e : Error) : Failure := ⟨e.message, e.causes.map (·.message)⟩

def Failure.ofBundleError (e : BundleError) : Failure :=
  match e with
  | .parse _ cause => ⟨e.message, cause.message :: cause.causes.map (·.message)⟩
  | _ => ⟨e.message, []⟩

/-- What a path can be followed by in the last name of it. -/
def fileName (path : String) : List Char :=
  ((path.toList.splitOn '/').filter fun part => part != [] && part != ['.']).getLast?.getD []

/-- The dialect of an input: as given, or else by the ending of the file name. -/
def Input.dialectOrGuess (i : Input) : Dialect :=
  match i.dialect with
  | some d => d
  | none =>
    let name := fileName i.path
    if name.length > 4 && ['.', 'i', 'd', 'l'].isSuffixOf name then .idl else .ros1

/-- The text that a command writes, given the text of its input, the package that its path suggests,
and the packages to look for types in. -/
def Command.output (c : Command) (text : String) (suggested : Option String) (library : Library) :
    Except Failure String :=
  let options := Options.ofDialect c.input.dialectOrGuess
  match c with
  | .parse _ keepTypes pretty => do
    let definitions ← (RosSchema.parse text { options with keepTypes }).mapError .ofError
    let json := Json.ofDefinitions definitions
    return String.ofList (if pretty then json.pretty 0 else json.compact)
  | .canonical _ => do
    return RosSchema.canonical (← (RosSchema.parse text options).mapError .ofError)
  | .deps _ _ package => do
    let some package := package <|> suggested
      | throw { message := "cannot infer the package from the input path, pass --package" }
    let bundled ← (bundle options.dialect library package text).2.mapError .ofBundleError
    return String.ofList (Text.trimRight bundled.toList)

def readFailure (path cause : String) : Failure := ⟨s!"failed to read {path}", [cause]⟩

def writeFailure (path cause : String) : Failure := ⟨s!"failed to write {path}", [cause]⟩

structure Outcome where
  exitCode : Nat
  stdout : String
  /-- The text of a failure. -/
  failure : Option String
  disk : Disk

def Input.read (i : Input) (stdin : String) (d : Disk) : Except Failure String :=
  if i.isStandard then .ok stdin
  else (d.read i.path).mapError fun e => readFailure i.path e.message

def Command.library (c : Command) (d : Disk) : Library :=
  match c with
  | .deps _ root _ => .ofFolder d root
  | _ => .ofList []

def Command.outputOn (c : Command) (stdin : String) (d : Disk) : Except Failure String := do
  let text ← c.input.read stdin d
  c.output text (d.packageOfFile? c.input.path) (c.library d)

def Command.run (c : Command) (stdin : String) (d : Disk) : Outcome :=
  let failed (f : Failure) : Outcome := ⟨1, "", some f.text, d⟩
  match c.outputOn stdin d with
  | .error f => failed f
  | .ok text =>
    match c.input.output with
    | none => ⟨0, text ++ "\n", none, d⟩
    | some path =>
      match d.write path (text ++ "\n") with
      | .ok d => ⟨0, "", none, d⟩
      | .error e => failed (writeFailure path e.message)

def usage : String :=
  "Usage: rosmsg [-v] parse|canonical|deps [OPTIONS] <INPUT>\n\n" ++
  "  -d, --dialect <DIALECT>  ros1msg, ros2msg or ros2idl\n" ++
  "  -o, --output <OUTPUT>    write to a file\n" ++
  "      --skip-type-fixup    parse: keep types as written\n" ++
  "      --pretty             parse: lay out the JSON on lines\n" ++
  "  -r, --root <ROOT>        deps: the folder of the packages\n" ++
  "  -p, --package <PACKAGE>  deps: the package of the input\n"

end RosSchema.Cli

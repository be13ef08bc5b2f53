import RosSchema.Dialect

/-!
# Command line arguments

The arguments select a command: to print the definitions of a text as JSON, to print its canonical
text, or to bundle it with the types that it needs. Options stand before or after the input, with
values after an equality sign, right after a short name, or in the next argument.
-/

namespace RosSchema.Cli

structure Input where
  path : String
  dialect : Option Dialect
  /-- The path to write to, if it is not the standard output. -/
  output : Option String
  deriving DecidableEq, Repr

def Input.isStandard (i : Input) : Bool :=
  match i.path.toList.splitOn '/' with
  | ['-'] :: rest => rest.all fun part => part == [] || part == ['.']
  | _ => false

inductive Command where
  | parse (input : Input) (keepTypes pretty : Bool)
  | canonical (input : Input)
  | deps (input : Input) (root : String) (package : Option String)
  deriving DecidableEq, Repr

inductive Request where
  | command (c : Command)
  | help
  deriving DecidableEq, Repr

def Command.input : Command → Input
  | parse input _ _ | canonical input | deps input _ _ => input

/-- An option: its long name, the letter of its short name, and whether a value belongs to it. -/
structure Opt where
  long : String
  short : Option Char
  takesValue : Bool
  deriving DecidableEq, Repr

inductive Arg where
  | flag (long : String)
  | option (long value : String)
  | plain (text : String)
  deriving DecidableEq, Repr

def globalOptions : List Opt := [⟨"verbose", some 'v', false⟩, ⟨"help", some 'h', false⟩]

def inputOptions : List Opt :=
  globalOptions ++ [⟨"dialect", some 'd', true⟩, ⟨"output", some 'o', true⟩]

def parseOptions : List Opt :=
  inputOptions ++ [⟨"skip-type-fixup", none, false⟩, ⟨"pretty", none, false⟩]

def depsOptions : List Opt := inputOptions ++ [⟨"root", some 'r', true⟩, ⟨"package", some 'p', true⟩]

/-- An argument that could be an option is no value of the option before it. -/
def isValue (arg : String) : Bool := arg == "-" || arg.toList.head? != some '-'

/-- Short options in one argument. The flags it holds, and the option at its end that takes a value,
with the value if it is in the argument as well. -/
def readCluster (options : List Opt) : List Char → Option (List Arg × Option (String × Option String))
  | [] => some ([], none)
  | c :: rest =>
    match options.find? (·.short == some c) with
    | none => none
    | some o =>
      if o.takesValue then
        match rest with
        | [] => some ([], some (o.long, none))
        | '=' :: value => some ([], some (o.long, some (String.ofList value)))
        | value => some ([], some (o.long, some (String.ofList value)))
      else (readCluster options rest).map fun (args, last) => (.flag o.long :: args, last)

def readLong (options : List Opt) (text : List Char) :
    Option (List Arg × Option (String × Option String)) :=
  let name := String.ofList (text.takeWhile (· != '='))
  match options.find? (·.long == name), text.dropWhile (· != '=') with
  | none, _ => none
  | some o, [] => if o.takesValue then some ([], some (name, none)) else some ([.flag name], none)
  | some o, _ :: value =>
    if o.takesValue then some ([], some (name, some (String.ofList value))) else none

/-- The options of one argument, if it is no plain one. -/
def readOptions? (options : List Opt) (arg : String) :
    Option (Option (List Arg × Option (String × Option String))) :=
  match arg.toList with
  | '-' :: '-' :: text => some (readLong options text)
  | '-' :: c :: text => some (readCluster options (c :: text))
  | _ => none

/-- The arguments of a command, recognised. After two dashes all of them are plain. -/
def readArgs (options : List Opt) : List String → Option (List Arg)
  | [] => some []
  | "--" :: rest => some (rest.map .plain)
  | arg :: rest =>
    match readOptions? options arg with
    | none => (readArgs options rest).map (.plain arg :: ·)
    | some none => none
    | some (some (args, none)) => (readArgs options rest).map (args ++ ·)
    | some (some (args, some (name, some value))) =>
      (readArgs options rest).map (args ++ .option name value :: ·)
    | some (some (args, some (name, none))) =>
      match rest with
      | [] => none
      | value :: rest =>
        if isValue value then (readArgs options rest).map (args ++ .option name value :: ·) else none

def valuesOf (args : List Arg) (name : String) : List String :=
  args.filterMap fun
    | .option long value => if long == name then some value else none
    | _ => none

/-- The value of an option that is given at most once. -/
def optionalValue (args : List Arg) (name : String) : Option (Option String) :=
  match valuesOf args name with
  | [] => some none
  | [value] => some (some value)
  | _ => none

/-- The path of an option that is given at most once, and not as an empty text. -/
def optionalPath (args : List Arg) (name : String) : Option (Option String) :=
  match optionalValue args name with
  | some (some "") => none
  | other => other

def flag (args : List Arg) (name : String) : Option Bool :=
  match (args.filter (· == .flag name)).length with
  | 0 => some false
  | 1 => some true
  | _ => none

/-- The input of a command: one plain argument and the options for it. -/
def readInput (args : List Arg) : Option Input := do
  let plain := args.filterMap fun
    | .plain text => some text
    | _ => none
  let [path] := plain | none
  guard (path != "")
  let dialect ← match ← optionalValue args "dialect" with
    | none => some none
    | some name => (Dialect.ofName name).toOption.map some
  return { path, dialect, output := ← optionalPath args "output" }

def optionsOf? (name : String) : Option (List Opt) :=
  match name with
  | "parse" => some parseOptions
  | "canonical" => some inputOptions
  | "deps" => some depsOptions
  | _ => none

def readCommand (name : String) (rest : List String) : Option Request := do
  let args ← readArgs (← optionsOf? name) rest
  if args.contains (.flag "help") then return .help
  let input ← readInput args
  match name with
  | "parse" =>
    return .command (.parse input (← flag args "skip-type-fixup") (← flag args "pretty"))
  | "canonical" => return .command (.canonical input)
  | _ =>
    let root ← (← optionalPath args "root")
    return .command (.deps input root (← optionalValue args "package"))

def readHelp : List String → Option Request
  | [] => some .help
  | [name] => if name == "help" || (optionsOf? name).isSome then some .help else none
  | _ => none

/-- The request of all arguments. Only options that stand everywhere come before a command. -/
def readRequest : List String → Option Request
  | [] => none
  | arg :: rest =>
    match readOptions? globalOptions arg with
    | none => if arg == "help" then readHelp rest else readCommand arg rest
    | some (some (args, none)) => if args.contains (.flag "help") then some .help else readRequest rest
    | some _ => none

end RosSchema.Cli

import RosSchema.Cli.Run

/-!
# The program

Reads the arguments, the input and the packages, runs the command and writes what it gives.
-/

namespace RosSchema.Cli

/-- The wording of an error of the operating system, whose number can come with a minus. -/
def osMessage : IO.Error → String
  | .noFileOrDirectory .. => PathError.missing.message
  | .inappropriateType _ code _ =>
    (if code = 20 || code = -20 then PathError.notFolder else PathError.isFolder).message
  | e => toString e

def realPath? (path : String) : IO (Option String) := do
  try return some (← IO.FS.realPath path).toString
  catch _ => return none

/-- Read an entry of a folder with all that is under it. Only definitions are read as texts. -/
partial def loadEntry (e : IO.FS.DirEntry) : IO (String × Entry) := do
  if ← e.path.isDir then
    let inner ← e.path.readDir
    return (e.fileName, .folder (← inner.toList.mapM loadEntry))
  else if e.fileName.endsWith ".msg" then return (e.fileName, .file (← IO.FS.readFile e.path))
  else return (e.fileName, .file "")

/-- The packages under a folder, as a file tree with nothing else in it. What is no folder has none. -/
def loadPackages (root : String) : IO Disk := do
  let entries ← try (← IO.FS.realPath root).readDir catch _ => pure #[]
  return ⟨.folder [("packages", .folder (← entries.toList.mapM loadEntry))], []⟩

def loadLibrary : Command → IO Library
  | .deps _ root _ => do return .ofFolder (← loadPackages root) "packages"
  | _ => return .ofList []

def loadPackage (path : String) : IO (Option String) := do
  match ← realPath? path with
  | none => return none
  | some real =>
    return packageOfNames? (((real.toList.splitOn '/').filter (· != [])).map String.ofList)

def loadText (i : Input) : IO (Except Failure String) := do
  if i.isStandard then return .ok (← (← IO.getStdin).readToEnd)
  else
    try return .ok (← IO.FS.readFile i.path)
    catch e => return .error (readFailure i.path (osMessage e))

def deliver (i : Input) (text : String) : IO (Except Failure Unit) := do
  match i.output with
  | none => return .ok (← IO.print (text ++ "\n"))
  | some path =>
    try return .ok (← IO.FS.writeFile path (text ++ "\n"))
    catch e => return .error (writeFailure path (osMessage e))

def Command.perform (c : Command) : IO (Except Failure Unit) := do
  match ← loadText c.input with
  | .error f => return .error f
  | .ok text =>
    match c.output text (← loadPackage c.input.path) (← loadLibrary c) with
    | .error f => return .error f
    | .ok output => deliver c.input output

end RosSchema.Cli

open RosSchema.Cli in
def main (args : List String) : IO UInt32 := do
  match readRequest args with
  | none =>
    IO.eprint usage
    return 2
  | some .help =>
    IO.print usage
    return 0
  | some (.command c) =>
    match ← c.perform with
    | .ok _ => return 0
    | .error f =>
      IO.eprint f.text
      return 1

import Machining.CommandLine.Execution

/-!
# The program

Reads the files a run asks for, and prints and writes what it puts out.
-/

set_option autoImplicit false

open Machining Machining.CommandLine

/-- The text of a file, if it can be read. -/
def readText? (path : String) : IO (Option String) := do
  try
    return some (← IO.FS.readFile path)
  catch _ =>
    return none

/-- The file of the user's own configuration, if there is one. -/
def findUserConfig : IO (Option String) := do
  let directory ← match ← IO.getEnv "XDG_CONFIG_HOME" with
    | some directory => pure (some directory)
    | none => pure ((← IO.getEnv "HOME").map (· ++ "/.config"))
  match directory.map userConfig with
  | none => return none
  | some path => return (← readText? path).map fun _ => path

/-- Report the causes of a failure. -/
def report (fault : RunFault) : IO UInt32 := do
  IO.eprintln ("Error: " ++ "\nCaused by: ".intercalate fault.chain)
  return 1

/-- Print and write one thing after the other. -/
def putOut : List Product → IO UInt32
  | [] => return 0
  | .print text :: rest => do
    IO.print text
    putOut rest
  | .file path text :: rest => do
    let written ← try
        IO.FS.writeFile path text
        pure true
      catch _ => pure false
    if written then putOut rest else report .unwritable

/-- Simulate the program that the options name. -/
def simulateFiles (o : RunOptions) : IO UInt32 := do
  let user ← findUserConfig
  let paths := [o.machine, o.program] ++ o.config.toList ++ user.toList
  let texts ← paths.mapM fun path => return (path, ← readText? path)
  match o.products (fun path => (texts.lookup path).bind id) user with
  | .ok products => putOut products
  | .error fault => report fault

/-- The command line program. -/
def main (args : List String) : IO UInt32 := do
  match Request.ofArguments args with
  | .run o => simulateFiles o
  | .version | .build =>
    IO.println versionText
    return 0
  | .help =>
    IO.println "Usage: cncsim run <PROGRAM> --machine <MACHINE> [OPTIONS]"
    return 0
  | .misuse =>
    IO.eprintln "Usage: cncsim run <PROGRAM> --machine <MACHINE> [OPTIONS]"
    return 2

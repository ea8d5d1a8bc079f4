import Machining.Decimal.Reading

/-!
# Arguments

The arguments of the program name a command and its options.  They are taken from left to right,
and the first one that asks for help or the version, or that has no place, decides.  The value of
an option follows it, or stands behind an equals sign in the same argument; an option may be given
once.
-/

set_option autoImplicit false

namespace Machining.CommandLine

/-- What a run is asked to do: the files it takes, the time step in seconds, where the report and
the mesh go, and whether the summary is a document. -/
structure RunOptions where
  program : String
  machine : String
  config : Option String
  timeStep : Option Float
  report : Option String
  mesh : Option String
  json : Bool
  deriving Inhabited

/-- What the arguments ask for; `misuse` is nothing that can be done. -/
inductive Request where
  | run (o : RunOptions)
  | version
  | build
  | help
  | misuse

/-- The arguments of a run seen so far. -/
structure Given where
  program : Option String := none
  machine : Option String := none
  config : Option String := none
  timeStep : Option Float := none
  report : Option String := none
  mesh : Option String := none
  json : Bool := false
  logJson : Bool := false

/-- The argument is an option, not a value: it begins with a dash and is more than one. -/
def isOption (arg : String) : Bool := arg.startsWith "-" && arg != "-"

/-- A long option as its name and the value in the same argument. -/
def splitLong (arg : String) : String × Option String :=
  let cs := arg.toList.drop 2
  match cs.dropWhile (· != '=') with
  | [] => (String.ofList cs, none)
  | _ :: value => (String.ofList (cs.takeWhile (· != '=')), some (String.ofList value))

namespace Given

/-- Fill an empty place with a path that is not empty. -/
def fill? (place : Option String) (path : String) : Option (Option String) :=
  if place.isSome || path.isEmpty then none else some (some path)

/-- Take the next argument that is no option. -/
def program? (g : Given) (path : String) : Option Given :=
  (fill? g.program path).map fun p => { g with program := p }

/-- The names of the options with a value. -/
def valueNames : List String := ["machine", "config", "time-step", "report", "mesh"]

/-- Take an option with its value. -/
def value? (g : Given) (name value : String) : Option Given :=
  match name with
  | "machine" => (fill? g.machine value).map fun p => { g with machine := p }
  | "config" => (fill? g.config value).map fun p => { g with config := p }
  | "report" => (fill? g.report value).map fun p => { g with report := p }
  | "mesh" => (fill? g.mesh value).map fun p => { g with mesh := p }
  | "time-step" =>
    if g.timeStep.isSome then none
    else (Double.read? value).map fun x => { g with timeStep := some x }
  | _ => none

/-- Take an option without a value. -/
def flag? (g : Given) (name : String) : Option Given :=
  match name with
  | "json" => if g.json then none else some { g with json := true }
  | "log-json" => if g.logJson then none else some { g with logJson := true }
  | _ => none

/-- What is asked for once all arguments are taken. -/
def request (g : Given) : Request :=
  match g.program, g.machine with
  | some program, some machine =>
    .run ⟨program, machine, g.config, g.timeStep, g.report, g.mesh, g.json⟩
  | _, _ => .misuse

end Given

/-- The arguments of a run after those already taken; after two dashes nothing is an option. -/
def runRequest (g : Given) (afterDashes : Bool) : List String → Request
  | [] => g.request
  | arg :: args =>
    if afterDashes || !isOption arg then
      match g.program? arg with
      | some g => runRequest g afterDashes args
      | none => .misuse
    else if arg = "--" then runRequest g true args
    else if arg.startsWith "--" then
      match splitLong arg with
      | ("help", none) => .help
      | (name, some value) =>
        match g.value? name value with
        | some g => runRequest g false args
        | none => .misuse
      | (name, none) =>
        if Given.valueNames.contains name then
          match args with
          | value :: args =>
            if isOption value then .misuse
            else match g.value? name value with
              | some g => runRequest g false args
              | none => .misuse
          | [] => .misuse
        else match g.flag? name with
          | some g => runRequest g false args
          | none => .misuse
    else if arg.startsWith "-h" then .help
    else .misuse

/-- The arguments of a command that takes none of its own. -/
def plainRequest (request : Request) (logJson : Bool) : List String → Request
  | [] => request
  | arg :: args =>
    if arg = "--help" || arg.startsWith "-h" then .help
    else if arg = "--log-json" && !logJson then plainRequest request true args
    else .misuse

/-- The names of the commands. -/
def commands : List String := ["run", "version", "help"]

/-- The arguments of a request for help: the name of a command or nothing. -/
def helpRequest : List String → Request
  | [] => .help
  | [name] => if commands.contains name then .help else .misuse
  | _ => .misuse

/-- What the arguments ask for; the option for log lines may come before the command. -/
def requestFrom (logJson : Bool) : List String → Request
  | [] => .misuse
  | arg :: args =>
    if arg = "run" then runRequest {} false args
    else if arg = "version" then plainRequest .build false args
    else if arg = "help" then helpRequest args
    else if arg = "--log-json" && !logJson then requestFrom true args
    else if arg = "--help" || (arg.startsWith "-h") then .help
    else if arg = "--version" || (arg.startsWith "-V") then .version
    else .misuse

/-- What the arguments ask for. -/
def Request.ofArguments (args : List String) : Request := requestFrom false args

end Machining.CommandLine

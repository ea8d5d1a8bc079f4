import Machining.CommandLine.Arguments
import Machining.Files.Tree
import Machining.Json.Writing
import Machining.Machine.Document
import Machining.Machine.Fault
import Machining.Settings.File
import Machining.Simulation.Summary
import Machining.Stock.Stl

/-!
# Execution

A run reads its files, simulates, and then has things to print and files to write, in order.  The
first step that fails ends it: with all that was put out before, and with the causes of the
failure from the outermost inwards.
-/

set_option autoImplicit false

namespace Machining.CommandLine

/-- The name of the program and its version. -/
def versionText : String := "cncsim 0.4.0"

/-- Where the configuration of a user is. -/
def userConfig (directory : String) : String := directory ++ "/cncsim/config.toml"

/-- What ends a run early. -/
inductive RunFault where
  | config (fault : SettingsFault)
  | timeStep (fault : SettingsFault)
  | unreadableMachine (path : String)
  | unsupportedMachine (path : String)
  | malformedMachine (format : DocumentFormat)
  | invalidMachine (path : String) (fault : MachineFault Float)
  | unreadableProgram (path : String)
  | stock (fault : StockFault Float)
  | unwritable

/-- The causes of a failure, outermost first. -/
def RunFault.chain : RunFault → List String
  | config fault => ["Failed to load configuration", fault.message]
  | timeStep fault => ["Invalid --time-step", fault.message]
  | unreadableMachine path => ["Failed to read machine file " ++ path]
  | unsupportedMachine path => ["Machine file must be .json or .toml: " ++ path]
  | malformedMachine format => [(SettingsFault.malformed format).message]
  | invalidMachine path fault => ["Invalid machine descriptor " ++ path, fault.message]
  | unreadableProgram path => ["Failed to read program " ++ path]
  | stock fault => [(MachineFault.stock fault).message]
  | unwritable => ["I/O error"]

/-- The machine of a file, given what can be read. -/
def loadMachine (read? : String → Option String) (path : String) :
    Except RunFault (Machine Float) := do
  let some text := read? path | .error (.unreadableMachine path)
  let some format := DocumentFormat.ofExtension? (Path.extension? path)
    | .error (.unsupportedMachine path)
  let machine? := match format with
    | .json => Machine.ofJson? text
    | .toml => Machine.ofToml? text
  let some machine := machine? | .error (.malformedMachine format)
  match machine.fault? with
  | some fault => .error (.invalidMachine path fault)
  | none => .ok machine

/-- Something a run puts out: a text to print or a file to write. -/
inductive Product where
  | print (text : String)
  | file (path text : String)

namespace RunOptions

/-- The configuration in force: the given file, or else the user's own if there is one, with the
given time step. -/
def loadConfig (o : RunOptions) (read? : String → Option String) (user : Option String) :
    Except RunFault (Config Float) := do
  let config ← match o.config <|> user with
    | some path => (Config.load read? path).mapError .config
    | none => .ok .default
  match o.timeStep with
  | some step => ({ config with timeStep := step }).check.mapError .timeStep
  | none => .ok config

/-- The collision report, to be printed where its path is a dash. -/
def reportProduct (s : Simulation Float) (path : String) : Product :=
  if path = "-" then .print (Report.table s.events ++ "\n")
  else .file path (Report.table s.events)

/-- The summary, as a document or as lines. -/
def summaryText (o : RunOptions) (s : Simulation Float) : String :=
  if o.json then Json.writeIndented s.summary.toNode ++ "\n"
  else String.join (s.lines.map (· ++ "\n"))

/-- What a run puts out, given what can be read and where the user's own configuration is. -/
def products (o : RunOptions) (read? : String → Option String) (user : Option String) :
    Except RunFault (List Product) := do
  let config ← o.loadConfig read? user
  let machine := config.override (← loadMachine read? o.machine)
  let some source := read? o.program | .error (.unreadableProgram o.program)
  let s ← (Simulation.run source machine config.timeStep config.removalPolicy).mapError .stock
  .ok <|
    ((o.report <|> config.reportPath).map (reportProduct s)).toList ++
    ((o.mesh <|> config.meshPath).map fun path =>
      Product.file path (Stl.ofStock s.stock config.meshKind)).toList ++
    [.print (o.summaryText s)]

end RunOptions

/-- What is left when the program ends; the causes of a failure stand outermost first. -/
structure Outcome where
  code : Nat
  printed : String
  causes : List String
  files : FileTree

namespace Outcome

/-- The end without a failure. -/
def success (printed : String) (files : FileTree) : Outcome := ⟨0, printed, [], files⟩

/-- The end with a failure. -/
def failure (printed : String) (fault : RunFault) (files : FileTree) : Outcome :=
  ⟨1, printed, fault.chain, files⟩

/-- Put out one thing after the other. -/
def ofProducts (printed : String) (files : FileTree) : List Product → Outcome
  | [] => success printed files
  | .print text :: rest => ofProducts (printed ++ text) files rest
  | .file path text :: rest =>
    match files.write? path text with
    | some files => ofProducts printed files rest
    | none => failure printed .unwritable files

/-- The program with the given arguments, among the given files. -/
def ofArguments (args : List String) (files : FileTree) (userDirectory : String) : Outcome :=
  match Request.ofArguments args with
  | .run o =>
    let user := userConfig userDirectory
    match o.products files.read? (if files.holds user then some user else none) with
    | .ok products => ofProducts "" files products
    | .error fault => failure "" fault files
  | .version => success (versionText ++ "\n") files
  | .build => success (versionText ++ "\n") files
  | .help => success "" files
  | .misuse => ⟨2, "", [], files⟩

end Outcome

end Machining.CommandLine

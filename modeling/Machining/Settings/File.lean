import Machining.Files.Path
import Machining.Json.Reading
import Machining.Json.Writing
import Machining.Settings.Document
import Machining.Toml.Reading
import Machining.Toml.Writing

/-!
# Configuration files

The extension of its name decides in which of two notations a configuration file is written.
Loading checks the notation first, then reads, and lets only a valid configuration through;
saving checks the configuration first, then the notation, and then makes the directory of the file
and writes it.

* `Config.load` — the configuration of a file, or what is wrong;
* `Config.save` — the text of a file, or what is wrong;
* `Config.saveTo` — the files once it is written.
-/

set_option autoImplicit false

namespace Machining

/-- A notation for documents. -/
inductive DocumentFormat
  | json
  | toml
  deriving Repr, DecidableEq, Inhabited

/-- The notation an extension stands for. -/
def DocumentFormat.ofExtension? : Option String → Option DocumentFormat
  | some "json" => some json
  | some "toml" => some toml
  | _ => none

/-- What is wrong with a configuration file. -/
inductive SettingsFault
  | unsupported (extension : Option String)
  | unreadable
  | malformed (format : DocumentFormat)
  | invalid (s : Setting)
  deriving Repr, DecidableEq

/-- The wording of a fault. -/
def SettingsFault.message : SettingsFault → String
  | unsupported extension => "Unsupported config format: " ++ extension.getD "<none>"
  | unreadable => "Failed to load settings"
  | malformed .json => "JSON error"
  | malformed .toml => "TOML error"
  | invalid s => s.message

/-- What keeps a configuration from being saved: the configuration itself or the name of its file, a
directory that cannot be made, or a file that cannot be written. -/
inductive SavingFault
  | settings (fault : SettingsFault)
  | noDirectory
  | unwritable
  deriving Repr, DecidableEq

/-- The wording of a fault. -/
def SavingFault.message : SavingFault → String
  | settings fault => fault.message
  | noDirectory => "I/O error"
  | unwritable => "Failed to save settings"

namespace Config

/-- The configuration a text describes in a notation. -/
def ofText? (text : String) : DocumentFormat → Option (Config Float)
  | .json => (Json.read? text).bind (ofNode? Json.convention)
  | .toml => (Toml.read? text).bind (ofNode? Toml.convention)

/-- The text that describes a configuration in a notation. -/
def toText (c : Config Float) : DocumentFormat → String
  | .json => Json.writeIndented c.toNode
  | .toml => Toml.write c.tables

/-- The configuration itself if it is valid. -/
def check (c : Config Float) : Except SettingsFault (Config Float) :=
  match c.fault? with
  | some s => .error (.invalid s)
  | none => .ok c

/-- The notation of a file. -/
def formatOf (path : String) : Except SettingsFault DocumentFormat :=
  match DocumentFormat.ofExtension? (Path.extension? path) with
  | some format => .ok format
  | none => .error (.unsupported (Path.extension? path))

/-- The configuration of a file, given what can be read. -/
def load (read? : String → Option String) (path : String) :
    Except SettingsFault (Config Float) := do
  let format ← formatOf path
  match read? path with
  | none => .error .unreadable
  | some text =>
    match ofText? text format with
    | none => .error (.malformed format)
    | some c => c.check

/-- The text of a file that a configuration is saved in. -/
def save (c : Config Float) (path : String) : Except SettingsFault String := do
  let c ← c.check
  let format ← formatOf path
  .ok (c.toText format)

/-- The files with a directory made for a file, if its path names one, and whether that was done. -/
def prepare {σ : Type} (make : String → σ → Bool × σ) (path : String) (files : σ) : Bool × σ :=
  match Path.parent? path with
  | some directory => make directory files
  | none => (true, files)

/-- Save a configuration in a file: what is wrong, and the files afterwards.  What `make` does to
the files is to make a directory and those above it, as needed, what `write` does is to put a text
in a file, and each says whether that was done. -/
def saveTo {σ : Type} (make : String → σ → Bool × σ) (write : String → String → σ → Bool × σ)
    (c : Config Float) (path : String) (files : σ) : Except SavingFault Unit × σ :=
  match c.save path with
  | .error fault => (.error (.settings fault), files)
  | .ok text =>
    let prepared := prepare make path files
    if prepared.1 then
      let written := write path text prepared.2
      (if written.1 then .ok () else .error .unwritable, written.2)
    else (.error .noDirectory, prepared.2)

end Config

end Machining

import Reexport.Disk
import Reexport.Glob
import Reexport.Toml

/-!
# Settings

What a run is told to do. Every setting has a default, so a settings file may be
empty or missing; a setting that is not known, or has the wrong type, is refused.
-/

namespace Reexport

/-- How a report is written. -/
inductive ReportFormat where
  | json
  | text
  deriving DecidableEq, Repr, Inhabited

/-- The word for a format. -/
def ReportFormat.label : ReportFormat → String
  | .json => "json"
  | .text => "text"

/-- The format that a word stands for. -/
def ReportFormat.ofLabel? (label : String) : Option ReportFormat :=
  [ReportFormat.json, .text].find? fun format => format.label == label

/-- What a run is told to do. -/
structure Settings where
  /-- Report and write nothing. -/
  dryRun : Bool
  /-- The directory of the root manifest. -/
  root : String
  /-- Manifests and modules to rewrite; none means all. -/
  included : List String
  /-- Paths that are left out of the tree. -/
  excluded : List String
  /-- Whether a collision makes the run fail. -/
  failOnCollision : Bool
  /-- Lists that are wider get a line for each name. -/
  maxWidth : Nat
  format : ReportFormat
  /-- Where the report goes, if not to standard output. -/
  report : Option String
  /-- How many units are scanned at a time. -/
  jobs : Option Nat
  /-- How many levels below the root are visited. -/
  maxDepth : Option Nat
  deriving DecidableEq, Repr, Inhabited

namespace Settings

/-- The settings of a run that is told nothing. -/
def defaults : Settings :=
  ⟨false, "src", [], [], false, 100, .json, none, none, none⟩

/-- The name of the settings file. -/
def defaultFile : String := "export-synth.toml"

/-! ## Reading settings -/

/-- A truth value. -/
def boolean? : Toml.Value → Option Bool
  | .boolean b => some b
  | _ => none

/-- A text. -/
def text? : Toml.Value → Option String
  | .text s => some s
  | _ => none

/-- A list of texts. -/
def texts? : Toml.Value → Option (List String)
  | .array items => items.mapM text?
  | _ => none

/-- A number. -/
def number? : Toml.Value → Option Nat
  | .integer n => if 0 ≤ n then some n.toNat else none
  | _ => none

/-- A value that says nothing more. -/
def isEmpty : Toml.Value → Bool
  | .array [] => true
  | .table _ [] => true
  | _ => false

/-- A report format: its name, or a table with its name as the only key. -/
def format? : Toml.Value → Option ReportFormat
  | .text s => ReportFormat.ofLabel? s
  | .table _ [(name, value)] => if isEmpty value then ReportFormat.ofLabel? name else none
  | _ => none

/-- The settings with one of them read from a file. -/
def put? (settings : Settings) (key : String) (value : Toml.Value) : Option Settings :=
  match key with
  | "dry_run" => (boolean? value).map fun b => { settings with dryRun := b }
  | "root" => (text? value).map fun s => { settings with root := s }
  | "include" => (texts? value).map fun items => { settings with included := items }
  | "exclude" => (texts? value).map fun items => { settings with excluded := items }
  | "fail_on_collision" => (boolean? value).map fun b => { settings with failOnCollision := b }
  | "max_width" => (number? value).map fun n => { settings with maxWidth := n }
  | "format" => (format? value).map fun format => { settings with format := format }
  | "report" => (text? value).map fun s => { settings with report := some s }
  | "jobs" => (number? value).map fun n => { settings with jobs := some n }
  | "max_depth" => (number? value).map fun n => { settings with maxDepth := some n }
  | _ => none

/-- The settings of a document. -/
def ofDocument? (document : String) : Option Settings := do
  let entries ← Toml.parse? document
  entries.foldlM (fun settings (key, value) => settings.put? key value) defaults

/-- What is said about a document that holds no settings. -/
def documentFault : String := "TOML parse error"

/-- The settings of the document in file `path`. -/
def parse (path document : String) : Except Problem Settings :=
  match ofDocument? document with
  | some settings => .ok settings
  | none => .error (.invalidSettings path documentFault)

/-- The settings in file `path`; there need not be such a file. -/
def load (disk : Disk) (path : String) : Except Problem Settings :=
  match disk.readText path with
  | .ok document => parse path document
  | .error .missing => .ok defaults
  | .error fault => .error (.invalidSettings path fault.message)

/-! ## Checking settings -/

/-- Refuses settings that make a run meaningless; `path` is the file to blame. -/
def validate (settings : Settings) (path : String) : Except Problem Unit := do
  if settings.maxWidth = 0 then
    throw (.invalidSettings path "max_width must be at least 1")
  if settings.jobs = some 0 then
    throw (.invalidSettings path "jobs must be at least 1")
  let _ ← Glob.parseAll settings.included
  let _ ← Glob.parseAll settings.excluded

end Settings

end Reexport

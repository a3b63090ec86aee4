import Reexport.Job

/-!
# The command line

Reads the arguments, settles the settings, does the job and writes the report.
Arguments are taken one by one, so the first fault among them decides.

`execute` is the whole program as a function of its arguments and the disk.
-/

namespace Reexport.CommandLine

/-! ## Options -/

/-- Options without a value. -/
inductive Switch where
  | dryRun
  | failOnCollision
  | quiet
  | version
  | help
  deriving DecidableEq, Repr, Inhabited

/-- Options with a value. -/
inductive Setting where
  | root
  | config
  | included
  | excluded
  | maxWidth
  | format
  | report
  | maxDepth
  | jobs
  deriving DecidableEq, Repr, Inhabited

/-- An option. -/
inductive Opt where
  | switch (switch : Switch)
  | setting (setting : Setting)
  deriving DecidableEq, Repr, Inhabited

/-- The option with a long name. -/
def ofLong? (name : String) : Option Opt :=
  match name with
  | "root" => some (.setting .root)
  | "config" => some (.setting .config)
  | "dry-run" => some (.switch .dryRun)
  | "include" => some (.setting .included)
  | "exclude" => some (.setting .excluded)
  | "fail-on-collision" => some (.switch .failOnCollision)
  | "max-width" => some (.setting .maxWidth)
  | "format" => some (.setting .format)
  | "report" => some (.setting .report)
  | "max-depth" => some (.setting .maxDepth)
  | "jobs" => some (.setting .jobs)
  | "quiet" => some (.switch .quiet)
  | "help" => some (.switch .help)
  | "version" => some (.switch .version)
  | _ => none

/-- The option with a letter. -/
def ofLetter? (letter : Char) : Option Opt :=
  match letter with
  | 'r' => some (.setting .root)
  | 'c' => some (.setting .config)
  | 'n' => some (.switch .dryRun)
  | 'i' => some (.setting .included)
  | 'e' => some (.setting .excluded)
  | 'f' => some (.setting .format)
  | 'j' => some (.setting .jobs)
  | 'q' => some (.switch .quiet)
  | 'h' => some (.switch .help)
  | 'V' => some (.switch .version)
  | _ => none

/-! ## Reading arguments -/

/-- What the arguments say. -/
structure Arguments where
  root : Option String
  config : Option String
  dryRun : Bool
  included : List String
  excluded : List String
  failOnCollision : Bool
  maxWidth : Option Nat
  format : Option ReportFormat
  report : Option String
  maxDepth : Option Nat
  jobs : Option Nat
  quiet : Bool
  deriving DecidableEq, Repr, Inhabited

/-- The arguments of an empty command line. -/
def Arguments.none : Arguments :=
  ⟨.none, .none, false, [], [], false, .none, .none, .none, .none, .none, false⟩

/-- Why there is no job to do. -/
inductive Stop where
  | usage
  | version
  | help
  deriving DecidableEq, Repr, Inhabited

/-- A value that may be set only once. -/
def setOnce {α : Type} (old : Option α) (new? : Option α) : Except Stop (Option α) :=
  match old, new? with
  | .none, some new => .ok (some new)
  | _, _ => .error .usage

/-- A switch that may be set only once. -/
def turnOn (old : Bool) : Except Stop Bool :=
  if old then .error .usage else .ok true

/-- A path; an empty text is none. -/
def path? (text : String) : Option String :=
  if text.isEmpty then .none else some text

/-- The value of decimal digits. -/
def digits? (digits : List Char) : Option Nat :=
  if digits.isEmpty || !digits.all Char.isDigit then .none
  else some (digits.foldl (fun n c => 10 * n + (c.toNat - '0'.toNat)) 0)

/-- A number of at most 64 bits, perhaps with a plus sign. -/
def number? (text : String) : Option Nat :=
  let digits := match text.toList with
    | '+' :: digits => digits
    | digits => digits
  (digits? digits).filter fun n => n < 18446744073709551616

/-- Turns on an option. -/
def Arguments.turnOn (args : Arguments) (switch : Switch) : Except Stop Arguments :=
  match switch with
  | .dryRun => (CommandLine.turnOn args.dryRun).map fun b => { args with dryRun := b }
  | .failOnCollision =>
    (CommandLine.turnOn args.failOnCollision).map fun b => { args with failOnCollision := b }
  | .quiet => (CommandLine.turnOn args.quiet).map fun b => { args with quiet := b }
  | .version => .error .version
  | .help => .error .help

/-- Sets an option. Patterns add up; everything else may be set only once. -/
def Arguments.set (args : Arguments) (setting : Setting) (text : String) : Except Stop Arguments :=
  match setting with
  | .root => (setOnce args.root (path? text)).map fun v => { args with root := v }
  | .config => (setOnce args.config (path? text)).map fun v => { args with config := v }
  | .included => .ok { args with included := args.included ++ [text] }
  | .excluded => .ok { args with excluded := args.excluded ++ [text] }
  | .maxWidth => (setOnce args.maxWidth (number? text)).map fun v => { args with maxWidth := v }
  | .format =>
    (setOnce args.format (ReportFormat.ofLabel? text)).map fun v => { args with format := v }
  | .report => (setOnce args.report (path? text)).map fun v => { args with report := v }
  | .maxDepth => (setOnce args.maxDepth (number? text)).map fun v => { args with maxDepth := v }
  | .jobs => (setOnce args.jobs (number? text)).map fun v => { args with jobs := v }

/-- What has been read so far. -/
structure Reader where
  args : Arguments
  /-- The option that the next argument is the value of. -/
  pending : Option Setting
  /-- Options have ended. -/
  ended : Bool
  deriving DecidableEq, Repr, Inhabited

/-- The value that is attached to a letter, perhaps after `=`. -/
def attached : List Char → String
  | '=' :: text => String.ofList text
  | text => String.ofList text

/-- Reads the letters of one argument. A letter whose option takes a value takes
    the letters after it, or else the next argument. -/
def readLetters (args : Arguments) : List Char → Except Stop Reader
  | [] => .ok ⟨args, .none, false⟩
  | letter :: rest =>
    match ofLetter? letter with
    | .none => .error .usage
    | some (.switch switch) =>
      match args.turnOn switch with
      | .error stop => .error stop
      | .ok args => readLetters args rest
    | some (.setting setting) =>
      if rest.isEmpty then .ok ⟨args, some setting, false⟩
      else (args.set setting (attached rest)).map fun args => ⟨args, .none, false⟩

/-- Reads a long option: a name, and a value after `=`. -/
def readLong (args : Arguments) (text : List Char) : Except Stop Reader :=
  let name := text.takeWhile (· != '=')
  match ofLong? (String.ofList name), text.drop name.length with
  | some (.switch switch), [] => (args.turnOn switch).map fun args => ⟨args, .none, false⟩
  | some (.setting setting), [] => .ok ⟨args, some setting, false⟩
  | some (.setting setting), _ :: value =>
    (args.set setting (String.ofList value)).map fun args => ⟨args, .none, false⟩
  | _, _ => .error .usage

/-- Reads an argument. There are no operands. -/
def Reader.read (reader : Reader) (arg : String) : Except Stop Reader :=
  if reader.ended then .error .usage
  else match reader.pending, arg.toList with
    | .none, ['-', '-'] => .ok { reader with ended := true }
    | .none, '-' :: '-' :: text => readLong reader.args text
    | .none, '-' :: letter :: rest => readLetters reader.args (letter :: rest)
    | .none, _ => .error .usage
    | some _, '-' :: _ :: _ => .error .usage
    | some setting, _ =>
      (reader.args.set setting arg).map fun args => ⟨args, .none, false⟩

/-- Reads all arguments. -/
def read (line : List String) : Except Stop Arguments := do
  let reader ← line.foldlM Reader.read ⟨.none, .none, false⟩
  if reader.pending.isSome then throw .usage
  return reader.args

/-! ## Settings -/

/-- The settings file. -/
def Arguments.configPath (args : Arguments) : String :=
  args.config.getD Settings.defaultFile

/-- Settings with the arguments taken into account: lists are extended, and
    everything else wins over the file. -/
def Arguments.merge (args : Arguments) (settings : Settings) : Settings where
  dryRun := settings.dryRun || args.dryRun
  root := args.root.getD settings.root
  included := settings.included ++ args.included
  excluded := settings.excluded ++ args.excluded
  failOnCollision := settings.failOnCollision || args.failOnCollision
  maxWidth := args.maxWidth.getD settings.maxWidth
  format := args.format.getD settings.format
  report := args.report <|> settings.report
  jobs := args.jobs <|> settings.jobs
  maxDepth := args.maxDepth <|> settings.maxDepth

/-- The settings of the file and the arguments together. A file that is asked for
    has to be there. -/
def settle (args : Arguments) (disk : Disk) : Except Problem Settings := do
  if args.config.isSome && !disk.holds args.configPath then
    throw (.invalidSettings args.configPath "does not exist")
  let loaded ← Settings.load disk args.configPath
  let settings := args.merge loaded
  settings.validate args.configPath
  return settings

/-! ## Running -/

/-- How the program ends. -/
structure Exit where
  code : Nat
  stdout : String
  stderr : List String
  disk : Disk
  deriving Repr, Inhabited

/-- A failure after these remarks. -/
def failed (log : List String) (stdout message : String) (disk : Disk) : Exit :=
  ⟨ExitStatus.failure.code, stdout, log ++ ["Error: " ++ message], disk⟩

/-- Writes a report, and goes on with what was written to standard output. A
    report that cannot be written is a failure. -/
def emit (report : Report) (format : ReportFormat) (destination : Option String)
    (log : List String) (disk : Disk) (next : (stdout : String) → Disk → Exit) : Exit :=
  match destination with
  | none => next (report.written format) disk
  | some path =>
    match disk.writeFile path (.text (report.written format)) with
    | .ok disk => next "" disk
    | .error fault =>
      failed log "" ("writing the report to " ++ path ++ ": " ++ fault.message) disk

/-- What the program is called. -/
def programName : String := "export-synth"

/-- The answer to a request for the version. -/
def versionText : String := programName ++ " 0.1.0\n"

/-- The answer to a request for help. -/
def helpText : String := Report.unlines [
  "Rewrite `pub use path::*;` into explicit export lists",
  "",
  "Usage: " ++ programName ++ " [OPTIONS]",
  "",
  "Options:",
  "  -r, --root <ROOT>            Directory holding the root manifest (lib.rs, main.rs or mod.rs)",
  "  -c, --config <CONFIG>        Configuration file",
  "  -n, --dry-run                Report without writing any file",
  "  -i, --include <INCLUDE>      Only rewrite manifests (relative path) or modules (crate::a::b) matching these globs",
  "  -e, --exclude <EXCLUDE>      Leave paths matching these globs out of the tree entirely",
  "      --fail-on-collision      Exit with failure when any collision is found",
  "      --max-width <MAX_WIDTH>  Wrap explicit lists longer than this",
  "  -f, --format <FORMAT>        Report format [possible values: json, text]",
  "      --report <REPORT>        Write the report to this file instead of stdout",
  "      --max-depth <MAX_DEPTH>  Directory levels below the root to descend into",
  "  -j, --jobs <JOBS>            Number of extraction threads",
  "  -q, --quiet                  No progress output on stderr",
  "  -h, --help                   Print help",
  "  -V, --version                Print version"]

/-- What is said about arguments that cannot be read. -/
def usageLines : List String :=
  ["error: invalid arguments", "", "Usage: " ++ programName ++ " [OPTIONS]", "",
    "For more information, try '--help'."]

/-- The exit of a command line that asks for no job. -/
def Stop.exit (stop : Stop) (disk : Disk) : Exit :=
  match stop with
  | .usage => ⟨2, "", usageLines, disk⟩
  | .version => ⟨0, versionText, [], disk⟩
  | .help => ⟨0, helpText, [], disk⟩

/-- The exit of a command line whose settings are not usable. Its report knows
    nothing but the arguments. -/
def refuse (args : Arguments) (p : Problem) (disk : Disk) : Exit :=
  let report := (Report.new (args.root.getD Settings.defaults.root) args.dryRun
    args.failOnCollision).addProblem p
  emit report (args.format.getD .json) args.report [] disk fun stdout disk =>
    failed [] stdout p.message disk

/-- A command line that has been read. -/
inductive Prepared where
  | stop (exit : Exit)
  | go (args : Arguments) (settings : Settings)
  deriving Repr, Inhabited

/-- Reads the command line and the settings. -/
def prepare (line : List String) (disk : Disk) : Prepared :=
  match read line with
  | .error stop => .stop (stop.exit disk)
  | .ok args =>
    match settle args disk with
    | .error p => .stop (refuse args p disk)
    | .ok settings => .go args settings

/-- Remarks made before the job is started. -/
def opening (args : Arguments) (settings : Settings) (disk : Disk) : List String :=
  (if disk.holds args.configPath then
    ["Loaded configuration from '" ++ args.configPath ++ "'"] else []) ++
  ["Synthesizing exports under " ++ settings.root ++ Report.dryRunMark settings.dryRun]

/-- Remarks that are made unless they are not wanted. -/
def Arguments.remarks (args : Arguments) (lines : List String) : List String :=
  if args.quiet then [] else lines

/-- Reports what came of the job, which was started with `disk`. -/
def conclude (args : Arguments) (settings : Settings) (disk : Disk)
    (result : Except Problem Outcome) : Exit :=
  let opened := args.remarks (opening args settings disk)
  match result with
  | .error p =>
    let report := (Report.new settings.root settings.dryRun settings.failOnCollision).addProblem p
    emit report settings.format settings.report opened disk fun stdout disk =>
      failed opened stdout p.message disk
  | .ok outcome =>
    let report := outcome.report
    let log := opened ++ args.remarks outcome.log
    emit report settings.format settings.report log outcome.disk fun stdout disk =>
      ⟨report.exitStatus.code, stdout,
        log ++ args.remarks (report.timings.map fun t => "  " ++ Report.timingText t), disk⟩

/-- The whole program. -/
def execute (line : List String) (disk : Disk) : Exit :=
  match prepare line disk with
  | .stop exit => exit
  | .go args settings => conclude args settings disk ((Job.ofSettings settings).run disk)

end Reexport.CommandLine

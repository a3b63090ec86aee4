import Reexport.CommandLine

/-!
# The program

Everything is worked out on a picture of the disk. This is the part around it: it
takes the picture of what the command line can mean, prints what comes out, and
carries the changes over to the disk.
-/

namespace Reexport.Main

/-- A picture of the disk while it is being taken. -/
structure Snapshot where
  disk : Disk
  /-- The directories whose entries are on it. -/
  listed : List Disk.Place

/-- The target of a link that leads nowhere. -/
def nowhere : String := "/nonexistent"

/-- What sort of entry lies at a place. -/
def sortOf? (place : Disk.Place) : IO (Option IO.FS.FileType) := do
  try
    let path := (← IO.currentDir) / place.path
    return some (← path.symlinkMetadata).type
  catch _ => return none

/-- What a link means. -/
def targetOf (place : Disk.Place) : IO String := do
  try
    return (← IO.FS.realPath place.path).toString
  catch _ => return nowhere

/-- Adds the entry at a place; the bytes of a file only if they are `wanted`. -/
def addEntry (snapshot : Snapshot) (place : Disk.Place) (wanted : Bool) : IO Snapshot := do
  let known := match snapshot.disk.node? place with
    | none => false
    | some (.file _) => !wanted
    | some _ => true
  if known then return snapshot
  let put (node : Node) : Snapshot := { snapshot with disk := snapshot.disk.put place node }
  match ← sortOf? place with
  | none => return snapshot
  | some .dir => return put .dir
  | some .symlink => return put (.link (← targetOf place))
  | some .file =>
    if wanted then return put (.file (.ofBytes (← IO.FS.readBinFile place.path)))
    else return put (.file (.binary []))
  | some .other => return put (.file (.binary []))

/-- Adds what lies on the way of a path. -/
partial def follow (snapshot : Snapshot) (place : Disk.Place) : List Disk.Step → IO Snapshot
  | [] => return snapshot
  | .here :: rest => follow snapshot place rest
  | .up :: rest => follow snapshot place.dropLast rest
  | .enter name :: rest => do
    let snapshot ← addEntry snapshot (place ++ [name]) true
    match snapshot.disk.node? (place ++ [name]) with
    | some .dir => follow snapshot (place ++ [name]) rest
    | some (.link target) => follow snapshot [] (Disk.steps target ++ rest)
    | _ => return snapshot

/-- Adds what a path leads to. -/
def addPath (snapshot : Snapshot) (path : String) : IO Snapshot :=
  follow snapshot (Disk.startOf snapshot.disk.cwd path) (Disk.steps path)

/-- Adds what lies below a directory, as far as modules can be there. -/
partial def addBelow (snapshot : Snapshot) (place : Disk.Place) : IO Snapshot := do
  if snapshot.listed.contains place then return snapshot
  let mut snapshot := { snapshot with listed := place :: snapshot.listed }
  for entry in ← ((← IO.currentDir) / place.path).readDir do
    let name := entry.fileName
    snapshot ← addEntry snapshot (place ++ [name]) (name.endsWith ".rs")
    if let some (.link target) := snapshot.disk.node? (place ++ [name]) then
      snapshot ← addPath snapshot target
    if Text.isModuleName name then
      if let .ok (inner, .dir) := snapshot.disk.find (Disk.Place.path (place ++ [name])) then
        snapshot ← addBelow snapshot inner
  return snapshot

/-- Adds a source tree. -/
def addTree (snapshot : Snapshot) (root : String) : IO Snapshot := do
  let snapshot ← addPath snapshot root
  match snapshot.disk.find root with
  | .ok (place, .dir) => addBelow snapshot place
  | _ => return snapshot

/-- The picture with only the working directory. -/
def start : IO Snapshot := do
  let cwd := (← IO.currentDir).toString
  let names := (Disk.steps cwd).filterMap fun
    | .enter name => some name
    | .here | .up => none
  addPath ⟨⟨names, []⟩, []⟩ cwd

/-- The bytes of a file. -/
def bytesOf : Content → ByteArray
  | .text text => text.toUTF8
  | .binary bytes => ⟨bytes.toArray⟩

/-- Carries the changes over to the disk. A link that became a file goes first. -/
def carryOver (before after : Disk) : IO Unit := do
  for (place, node) in Disk.changes before after do
    match node with
    | some (.file content) =>
      if let some (.link _) := before.node? place then IO.FS.removeFile place.path
      IO.FS.writeBinFile place.path (bytesOf content)
    | _ => pure ()

/-- Prints what the program says, and changes the disk. -/
def finish (before : Disk) (exit : CommandLine.Exit) : IO UInt32 := do
  carryOver before exit.disk
  for line in exit.stderr do IO.eprintln line
  IO.print exit.stdout
  (← IO.getStdout).flush
  return UInt32.ofNat exit.code

/-- The milliseconds between two readings of the clock. -/
def millis (start stop : Nat) : Double :=
  .ofFloat (Float.ofNat (stop - start) / 1000000.0)

/-- Does a job phase by phase, with the clock running. -/
def runTimed (job : Job) (disk : Disk) : IO (Except Problem Outcome) := do
  let started ← IO.monoNanosNow
  match ← IO.lazyPure fun _ => job.walk disk with
  | .error p => return .error p
  | .ok walked =>
    let walkDone ← IO.monoNanosNow
    let resolved ← IO.lazyPure fun _ => resolve walked.surveyed.tree
    let resolveDone ← IO.monoNanosNow
    let outcome ← IO.lazyPure fun _ => job.rewrite walked resolved disk
    let rewriteDone ← IO.monoNanosNow
    let durations : Job.Durations :=
      ⟨millis started walkDone, millis walkDone resolveDone, millis resolveDone rewriteDone⟩
    return .ok (Job.timed durations outcome)

/-- Runs the program. -/
def run (line : List String) : IO UInt32 := do
  let mut snapshot ← start
  if let .ok args := CommandLine.read line then
    for path in args.configPath :: args.report.toList do
      snapshot ← addPath snapshot path
  match CommandLine.prepare line snapshot.disk with
  | .stop exit => finish snapshot.disk exit
  | .go args settings =>
    for path in settings.report.toList do
      snapshot ← addPath snapshot path
    snapshot ← addTree snapshot settings.root
    let result ← runTimed (.ofSettings settings) snapshot.disk
    finish snapshot.disk (CommandLine.conclude args settings snapshot.disk result)

end Reexport.Main

/-- Runs the program with its command line arguments. -/
def main (line : List String) : IO UInt32 := Reexport.Main.run line

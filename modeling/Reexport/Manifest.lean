import Reexport.Disk
import Reexport.Edit
import Reexport.Problem
import Reexport.Scan

/-!
# Manifests on disk

A unit is scanned from the text of its file. A manifest is rewritten only if its
file still holds the text that was scanned, and then as a whole: the new text goes
to a temporary file next to it, which is moved to where the manifest lies. Every
stage of that can fail, and a `Course` says which do.
-/

namespace Reexport

/-- What is said about a unit that is not well formed. -/
def malformedUnit : String := "cannot parse string into token stream"

/-- Reads and scans a unit. -/
def scanFile (disk : Disk) (path : String) : Except Problem Scan :=
  match disk.readText path with
  | .error fault => .error (.unreadable path fault.message)
  | .ok source =>
    match scan path source with
    | .error line => .error (.malformed path line malformedUnit)
    | .ok found => .ok found

/-- What becomes of a manifest. -/
inductive FileOutcome where
  /-- The new text is the old one. -/
  | unchanged
  /-- It would be written, were this not a dry run. -/
  | wouldChange
  | written
  /-- It would be written, had the run not been interrupted. -/
  | interrupted
  deriving DecidableEq, Repr, Inhabited

/-- The word for an outcome in reports. -/
def FileOutcome.label : FileOutcome → String
  | .unchanged => "unchanged"
  | .wouldChange => "would_change"
  | .written => "written"
  | .interrupted => "interrupted"

/-- How manifests are rewritten. -/
structure Rewriter where
  /-- Write nothing. -/
  dryRun : Bool
  /-- Lists that are wider get a line for each name. -/
  maxWidth : Nat
  /-- Stop writing. -/
  interrupted : Bool
  deriving DecidableEq, Repr, Inhabited

/-- A manifest after its edits. -/
structure Applied where
  outcome : FileOutcome
  planned : Planned
  /-- The disk afterwards. -/
  disk : Disk
  deriving Repr, Inhabited

namespace Rewriter

/-! ## Stages -/

/-- The stages of replacing a file. -/
inductive Stage where
  /-- The file is read, to compare it with what was scanned. -/
  | read
  /-- The permissions of the file are read. -/
  | inspect
  /-- The temporary file is created. -/
  | create
  /-- It gets the new text. -/
  | fill
  /-- The text reaches the disk. -/
  | sync
  /-- It gets the permissions of the file. -/
  | permit
  /-- It takes the place of the file. -/
  | move
  deriving DecidableEq, Repr

/-- How replacing a file goes. -/
structure Course where
  /-- The name that is picked for the temporary file. -/
  name : Disk → String
  /-- What is said at a stage that fails. -/
  fault? : Stage → Option String

namespace Course

/-- No stage fails, and the name of the temporary file is free. -/
def smooth : Course := ⟨Disk.freeName, fun _ => none⟩

/-- Goes on after a stage, unless that fails; then the disk is `undone`. -/
def pass (course : Course) (stage : Stage) (undone : Disk) (next : Except String Unit × Disk) :
    Except String Unit × Disk :=
  match course.fault? stage with
  | some message => (.error message, undone)
  | none => next

/-- Where the temporary file for a place lies. -/
def temporary (course : Course) (disk : Disk) (place : Disk.Place) : Disk.Place :=
  place.dropLast ++ [course.name disk]

end Course

/-- Puts a text in the place of a file by way of a temporary file. -/
def replaceIn (course : Course) (disk : Disk) (path text : String) : Except String Unit × Disk :=
  course.pass .inspect disk <|
    match disk.find path, disk.locate false path with
    | .ok _, .ok place =>
      let temporary := course.temporary disk place
      course.pass .create disk <|
        if (disk.node? temporary).isSome then (.error "File exists (os error 17)", disk)
        else
          let created := disk.put temporary (.file (.text ""))
          let filled := created.put temporary (.file (.text text))
          course.pass .fill (created.discard temporary) <|
            course.pass .sync (filled.discard temporary) <|
              course.pass .permit (filled.discard temporary) <|
                course.pass .move (filled.discard temporary) (.ok (), filled.move temporary place)
    | .error fault, _ => (.error fault.message, disk)
    | .ok _, .error fault => (.error fault.message, disk)

/-- The same if the file still holds `analysed`. -/
def exchangeIn (course : Course) (disk : Disk) (path analysed text : String) :
    Except String Unit × Disk :=
  course.pass .read disk <|
    match disk.readText path with
    | .error fault => (.error fault.message, disk)
    | .ok found =>
      if found = analysed then replaceIn course disk path text
      else (.error "file changed on disk since it was scanned", disk)

/-! ## Applying edits -/

/-- Applies edits to the manifest at `path`, which held `analysed` when it was
    scanned, with the disk that every result leaves behind. -/
def applyIn (rewriter : Rewriter) (course : Course) (disk : Disk) (path analysed : String)
    (edits : List Edit) : Except Problem (FileOutcome × Planned) × Disk :=
  match planEdits analysed edits rewriter.maxWidth with
  | .error offset =>
    (.error (.ambiguous path (Text.lineAt analysed.toList offset) "*"
      "re-export no longer holds a wildcard"), disk)
  | .ok planned =>
    if planned.text = analysed then (.ok (.unchanged, planned), disk)
    else if rewriter.dryRun then (.ok (.wouldChange, planned), disk)
    else if rewriter.interrupted then (.ok (.interrupted, planned), disk)
    else
      let (exchanged, after) := exchangeIn course disk path analysed planned.text
      ((exchanged.map fun () => (.written, planned)).mapError (.unwritable path), after)

/-- Applies edits where no stage fails. -/
def apply (rewriter : Rewriter) (disk : Disk) (path analysed : String) (edits : List Edit) :
    Except Problem Applied :=
  let (result, after) := rewriter.applyIn .smooth disk path analysed edits
  result.map fun (outcome, planned) => ⟨outcome, planned, after⟩

end Rewriter

end Reexport

import Reexport.Path

/-!
# Disks

A disk holds directories, files and links, each at a place: the names on the way
to it from the top. A path is a text, and what it means depends on the disk,
because a link on the way leads somewhere else. `locate` follows a path to a
place; every operation that takes a path goes through it.

All operations are pure: those that change something return a new disk.
-/

namespace Reexport

/-- What a file holds. -/
inductive Content where
  | text (text : String)
  /-- Bytes that are not text. -/
  | binary (bytes : List UInt8)
  deriving DecidableEq, Repr, Inhabited

/-- Bytes as text if they are text. -/
def Content.ofBytes (bytes : ByteArray) : Content :=
  match String.fromUTF8? bytes with
  | some s => .text s
  | none => .binary bytes.toList

/-- What lies at a place. -/
inductive Node where
  | dir
  | file (content : Content)
  | link (target : String)
  deriving DecidableEq, Repr, Inhabited

/-- The names on the way from the top of the disk. -/
abbrev Disk.Place := List String

/-- The absolute path of a place. -/
def Disk.Place.path (place : Disk.Place) : String :=
  "/" ++ "/".intercalate place

/-- Directories, files and links. -/
structure Disk where
  /-- Where relative paths start. -/
  cwd : Disk.Place
  /-- What lies where; nothing lies at a place that is not listed, apart from the
      top directory. -/
  entries : List (Disk.Place × Node)
  deriving Repr, Inhabited

namespace Disk

/-! ## Places -/

/-- What lies at a place. -/
def node? (disk : Disk) (place : Place) : Option Node :=
  if place = [] then some .dir else disk.entries.lookup place

/-- The disk with `node` at a place. -/
def put (disk : Disk) (place : Place) (node : Node) : Disk :=
  { disk with entries := (place, node) :: disk.entries.filter fun (p, _) => p != place }

/-- The disk without a place and all that lies below it. -/
def erase (disk : Disk) (place : Place) : Disk :=
  { disk with entries := disk.entries.filter fun (p, _) => !place.isPrefixOf p }

/-- The disk without the entry at a place. -/
def discard (disk : Disk) (place : Place) : Disk :=
  { disk with entries := disk.entries.filter fun (p, _) => p != place }

/-- Moves what lies at one place to another, where it replaces what lies there. -/
def move (disk : Disk) (source target : Place) : Disk :=
  match disk.node? source with
  | some node => (disk.discard source).put target node
  | none => disk

/-- A name that is longer than all names on the disk, so nothing has it. -/
def freeName (disk : Disk) : String :=
  let names := disk.entries.flatMap fun (place, _) => place
  ".tmp" ++ String.ofList (names.map String.toList).flatten

/-- The name of an entry of directory `place`, for one of its own entries. -/
def nameIn? (place entry : Place) : Option String :=
  if entry.dropLast = place then entry.getLast? else none

/-- The names in a directory, in character order. -/
def names (disk : Disk) (place : Place) : List String :=
  (disk.entries.filterMap fun (entry, _) => nameIn? place entry).mergeSort fun a b => a ≤ b

/-! ## Paths -/

/-- Why an operation fails. -/
inductive Fault where
  | missing
  | notDirectory
  | isDirectory
  | tooManyLinks
  /-- The file is no text. -/
  | notText
  deriving DecidableEq, Repr, Inhabited

/-- The fault in words. -/
def Fault.message : Fault → String
  | .missing => "No such file or directory (os error 2)"
  | .notDirectory => "Not a directory (os error 20)"
  | .isDirectory => "Is a directory (os error 21)"
  | .tooManyLinks => "Too many levels of symbolic links (os error 40)"
  | .notText => "stream did not contain valid UTF-8"

/-- One step of a path. -/
inductive Step where
  /-- Stay, in what has to be a directory. -/
  | here
  | up
  | enter (name : String)
  deriving DecidableEq, Repr, Inhabited

/-- The step of one piece of a path. -/
def Step.ofPiece (piece : List Char) : Step :=
  if piece = [] ∨ piece = ['.'] then .here
  else if piece = ['.', '.'] then .up
  else .enter (String.ofList piece)

/-- The steps of a path. -/
def steps (path : String) : List Step :=
  (Path.pieces path.toList).map .ofPiece

/-- Where the steps of a path start when it is met in directory `place`. -/
def startOf (place : Place) (path : String) : Place :=
  if Path.isAbsolute path then [] else place

/-- Takes steps from a place. The last name need not be there. A link is handed
    to `jump`, with the steps that are left; one in the last place is handed over
    only if `follow`. -/
def advance (disk : Disk) (follow : Bool) (jump : Place → List Step → Except Fault Place) :
    Place → List Step → Except Fault Place
  | place, [] => .ok place
  | place, step :: rest =>
    match disk.node? place with
    | none => .error .missing
    | some .dir =>
      match step with
      | .here => disk.advance follow jump place rest
      | .up => disk.advance follow jump place.dropLast rest
      | .enter name =>
        match disk.node? (place ++ [name]) with
        | some (.link target) =>
          if rest = [] ∧ ¬ follow then .ok (place ++ [name])
          else jump (startOf place target) (steps target ++ rest)
        | _ => disk.advance follow jump (place ++ [name]) rest
    | some _ => .error .notDirectory

/-- Takes steps from a place, through fewer than `links` links. -/
def travel (disk : Disk) (follow : Bool) : (links : Nat) → Place → List Step → Except Fault Place
  | 0, _, _ => .error .tooManyLinks
  | links + 1, place, path => disk.advance follow (disk.travel follow links) place path

/-- The number of links that a path may lead through. -/
def maxLinks : Nat := 40

/-- The place that a path means, whether or not there is something. A link in the
    last place is followed only if `follow`. -/
def locate (disk : Disk) (follow : Bool) (path : String) : Except Fault Place :=
  if path.isEmpty then .error .missing
  else disk.travel follow (maxLinks + 1) (startOf disk.cwd path) (steps path)

/-- The place that a path means and what lies there, which is never a link. -/
def find (disk : Disk) (path : String) : Except Fault (Place × Node) := do
  let place ← disk.locate true path
  match disk.node? place with
  | some node => .ok (place, node)
  | none => .error .missing

/-- Whether a path leads to something. -/
def holds (disk : Disk) (path : String) : Bool :=
  (disk.find path).isOk

/-! ## Reading and writing -/

/-- The text of a file. -/
def readText (disk : Disk) (path : String) : Except Fault String := do
  match ← disk.find path with
  | (_, .file (.text text)) => .ok text
  | (_, .file (.binary _)) => .error .notText
  | _ => .error .isDirectory

/-- A path without separators at its end. -/
def trimSeparators (path : String) : String :=
  String.ofList (path.toList.reverse.dropWhile (· == '/')).reverse

/-- Writes a file, through a link if there is one. A path with a separator at its
    end means a directory and cannot be written. -/
def writeFile (disk : Disk) (path : String) (content : Content) : Except Fault Disk :=
  if path.endsWith "/" then do
    let _ ← disk.locate false (trimSeparators path)
    .error .isDirectory
  else do
    let place ← disk.locate true path
    match disk.node? place with
    | some .dir => .error .isDirectory
    | _ => .ok (disk.put place (.file content))

/-- The disk with directories at all places from the top to `place`, where
    nothing lies there yet. -/
def putDirs (disk : Disk) (place : Place) : Disk :=
  (List.range place.length).foldl (fun disk n =>
    if (disk.node? (place.take (n + 1))).isNone then disk.put (place.take (n + 1)) .dir
    else disk) disk

/-! ## Changes -/

/-- The places, apart from directories, where two disks differ, with what lies
    there on the second, in the order of their paths. -/
def changes (before after : Disk) : List (Place × Option Node) :=
  let isEntry : Place × Node → Bool := fun (_, node) => node != .dir
  let set := (after.entries.filter fun (place, node) =>
    isEntry (place, node) && before.node? place != some node).map fun (place, node) =>
      (place, some node)
  let removed := (before.entries.filter fun (place, node) =>
    isEntry (place, node) && (after.node? place == none || after.node? place == some .dir)).map
      fun (place, _) => (place, none)
  (set ++ removed).mergeSort fun (a, _) (b, _) => a.path ≤ b.path

end Disk

end Reexport

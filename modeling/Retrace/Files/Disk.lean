import Retrace.Assoc
import Retrace.Files.Host
import Retrace.Files.Path

/-! A machine in memory: a tree of files, a working directory, and what was printed. -/
namespace Retrace

inductive Entry
  | file (bytes : ByteArray)
  | directory (entries : List (String × Entry))

namespace Entry

def at? : List String → Entry → Option Entry
  | [], e => some e
  | name :: names, .directory entries => (entries.lookup name).bind (at? names)
  | _, .file _ => none

/-- Puts an entry under a list of names, in directories that are there. -/
def put (new : Entry) : List String → Entry → Entry
  | [], _ => new
  | name :: names, .directory entries =>
    .directory (upsert name (put new names ((entries.lookup name).getD (.directory []))) entries)
  | _, e => e

end Entry

/-- A tree of files with the names that lead to the working directory, innermost first. -/
structure Disk where
  root : Entry
  here : List String

namespace Disk

/-- An empty working directory in a directory of its own. -/
def empty : Disk := ⟨.directory [("home", .directory [])], ["home"]⟩

def at? (d : Disk) (place : List String) : Option Entry := d.root.at? place.reverse

/-- Follows the pieces of a path from a place. Only the last may be missing. -/
def walk (d : Disk) : List String → List String → Except FileError (List String)
  | place, [] => .ok place
  | place, piece :: rest =>
    match d.at? place with
    | none => .error .notFound
    | some (.file _) => .error .notDirectory
    | some (.directory _) =>
      if piece = "" ∨ piece = "." then d.walk place rest
      else if piece = ".." then d.walk place.tail rest
      else if 255 < piece.utf8ByteSize then .error .nameTooLong
      else d.walk (piece :: place) rest

def place (d : Disk) (path : String) : Except FileError (List String) :=
  if path.contains '\x00' then .error .nul
  else if path = "" then .error .notFound
  else if 4096 ≤ path.utf8ByteSize then .error .nameTooLong
  else d.walk (if path.startsWith "/" then [] else d.here) (path.splitOn "/")

def entry (d : Disk) (path : String) : Except FileError Entry := do
  match d.at? (← d.place path) with
  | some e => return e
  | none => throw .notFound

def read (d : Disk) (path : String) : Except FileError ByteArray := do
  match ← d.entry path with
  | .file bytes => return bytes
  | .directory _ => throw .isDirectory

def isDirectory (d : Disk) (path : String) : Bool :=
  match d.entry path with
  | .ok (.directory _) => true
  | _ => false

def present (d : Disk) (path : String) : Bool := (d.entry path).isOk

/-- A slash at the end asks for a directory, which a file cannot replace. -/
def write (d : Disk) (path : String) (bytes : ByteArray) : Except FileError Disk := do
  let trimmed := String.ofList (path.toList.reverse.dropWhile (· = '/')).reverse
  let place ← d.place (if trimmed = "" then path else trimmed)
  if path.endsWith "/" then throw .isDirectory
  match d.at? place with
  | some (.directory _) => throw .isDirectory
  | _ => return { d with root := Entry.put (.file bytes) place.reverse d.root }

def makeDirectory (d : Disk) (path : String) : Except FileError Disk := do
  let trimmed := String.ofList (path.toList.reverse.dropWhile (· = '/')).reverse
  let place ← d.place (if trimmed = "" then path else trimmed)
  match d.at? place with
  | some _ => throw .exists
  | none => return { d with root := Entry.put (.directory []) place.reverse d.root }

/-- A directory that is there already is as good as a new one. -/
def orPresent (d : Disk) (path : String) (made : Except FileError Disk) : Except FileError Disk :=
  if d.isDirectory path then .ok d else made

/-- Makes a directory, and first the one it is to lie in if that is missing. -/
def makeDirectories (d : Disk) : Nat → String → Except FileError Disk
  | 0, _ => .error .notFound
  | depth + 1, path =>
    if path = "" then .ok d
    else match d.makeDirectory path with
      | .ok d => .ok d
      | .error .notFound => do
        let d ← d.makeDirectories depth (Path.parent path)
        d.orPresent path (d.makeDirectory path)
      | .error e => d.orPresent path (.error e)

end Disk

/-- A disk, a clock that stands still, and what was printed. -/
structure Machine where
  disk : Disk
  time : String
  printed : String

instance : Host (StateM Machine) where
  read path := return (← get).disk.read path
  write path text := do
    let m ← get
    match m.disk.write path text.toUTF8 with
    | .ok disk => set { m with disk }; return .ok ()
    | .error e => return .error e
  present path := return (← get).disk.present path
  isDirectory path := return (← get).disk.isDirectory path
  makeDirectories path := do
    let m ← get
    match m.disk.makeDirectories ((path.splitOn "/").length + 1) path with
    | .ok disk => set { m with disk }; return .ok ()
    | .error e => return .error e
  now := return (← get).time
  print text := modify fun m => { m with printed := m.printed ++ text }

end Retrace

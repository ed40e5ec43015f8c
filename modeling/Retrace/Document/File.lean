import Retrace.Document
import Retrace.Files.Host
import Retrace.Files.Path

/-! Documents in files. -/
namespace Retrace

/-- Why a document is not written. -/
inductive SaveError
  | emptyPath
  | directory (path : String)
  /-- The directory that the file is to lie in cannot be made. -/
  | parent (path : String) (error : FileError)
  | file (error : FileError)
deriving DecidableEq

namespace SaveError

def message : SaveError → String
  | .emptyPath => "Invalid output path: Path is empty"
  | .directory path => "Invalid output path: Path is a directory: " ++ path
  | .parent path e =>
    "Invalid output path: Cannot create directory " ++ path ++ ": " ++ e.message
  | .file e => "Failed to write file: " ++ e.message

/-- The wordings from the outermost cause to the innermost. -/
def chain : SaveError → List String
  | .file e => [(SaveError.file e).message, e.message]
  | e => [e.message]

end SaveError

/-- Why a document is not read. -/
inductive LoadError
  | file (error : FileError)
  /-- What was opened has no content, as a directory has not. -/
  | content
  | json (error : Json.ReadError)

namespace LoadError

/-- A file that cannot be read is worded like one that cannot be written. -/
def message : LoadError → String
  | .file e => (SaveError.file e).message
  | .content => "Failed to serialize JSON: " ++ FileError.isDirectory.message
  | .json e => "Failed to serialize JSON: " ++ e.message

end LoadError

namespace Document

variable {m : Type → Type} [Monad m] [Host m]

def checkPath (path : String) : m (Except SaveError Unit) := do
  if path = "" then return .error .emptyPath
  if ← Host.isDirectory path then return .error (.directory path)
  return .ok ()

/-- Makes the directory that a file is to lie in, if it is missing. -/
def makeParent (path : String) : m (Except SaveError Unit) := do
  let parent := Path.parent path
  if parent = "" then return .ok ()
  if ← Host.present parent then return .ok ()
  return (← Host.makeDirectories parent).mapError (.parent parent)

def save (d : Document) (path : String) : m (Except SaveError Unit) := do
  if let .error e ← checkPath path then return .error e
  if let .error e ← makeParent path then return .error e
  return (← Host.write path d.text).mapError .file

def load (path : String) : m (Except LoadError Document) := do
  match ← Host.read path with
  | .ok bytes => return (ofBytes bytes).mapError .json
  | .error .isDirectory => return .error .content
  | .error e => return .error (.file e)

end Document
end Retrace

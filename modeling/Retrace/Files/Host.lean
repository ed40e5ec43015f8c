/-! What commands need of the machine they run on: files, a clock and a place to print. -/
namespace Retrace

/-- Why a file cannot be used. -/
inductive FileError
  | notFound
  | exists
  | notDirectory
  | isDirectory
  | nameTooLong
  | nul
  | notText
  | other (message : String)
deriving DecidableEq

def FileError.message : FileError → String
  | .notFound => "No such file or directory (os error 2)"
  | .exists => "File exists (os error 17)"
  | .notDirectory => "Not a directory (os error 20)"
  | .isDirectory => "Is a directory (os error 21)"
  | .nameTooLong => "File name too long (os error 36)"
  | .nul => "file name contained an unexpected NUL byte"
  | .notText => "stream did not contain valid UTF-8"
  | .other message => message

/-- A machine whose actions are of the monad `m`. -/
class Host (m : Type → Type) where
  read : String → m (Except FileError ByteArray)
  /-- Makes a file or replaces what is in it. -/
  write : String → String → m (Except FileError Unit)
  present : String → m Bool
  isDirectory : String → m Bool
  /-- Makes a directory and those it is to lie in. -/
  makeDirectories : String → m (Except FileError Unit)
  /-- The time as it is written into documents. -/
  now : m String
  print : String → m Unit

namespace Host

def readText [Monad m] [Host m] (path : String) : m (Except FileError String) := do
  match ← read path with
  | .error e => return .error e
  | .ok bytes =>
    match String.fromUTF8? bytes with
    | some text => return .ok text
    | none => return .error .notText

end Host
end Retrace

import Retrace.CommandLine
import Retrace.Text.Timestamp
import Std.Time.DateTime.Timestamp

/-! The program: a command line on the machine it is started on. -/
namespace Retrace

/-- The cause that an error code of the system stands for; codes come with either sign. -/
def FileError.ofCode (code : UInt32) (details : String) : FileError :=
  match min code (0 - code) with
  | 2 => .notFound
  | 17 => .exists
  | 20 => .notDirectory
  | 21 => .isDirectory
  | 36 => .nameTooLong
  | n => .other (details ++ " (os error " ++ toString n ++ ")")

def FileError.ofIO : IO.Error → FileError
  | .noFileOrDirectory _ code details | .alreadyExists _ code details
  | .inappropriateType _ code details | .resourceExhausted _ code details
  | .permissionDenied _ code details | .invalidArgument _ code details => .ofCode code details
  | e => .other e.toString

def attempt (action : IO α) : IO (Except FileError α) := do
  match ← action.toBaseIO with
  | .ok a => return .ok a
  | .error e => return .error (.ofIO e)

def succeeds (action : IO α) : IO Bool := return (← action.toBaseIO).isOk

instance : Host IO where
  read path := attempt (IO.FS.readBinFile path)
  write path text := attempt (IO.FS.writeFile path text)
  present path := succeeds (IO.FS.realPath path)
  isDirectory path := succeeds (IO.FS.realPath (path ++ "/."))
  makeDirectories path := attempt (IO.FS.createDirAll path)
  now := do
    let time ← Std.Time.Timestamp.now
    return Text.timestamp time.toNanosecondsSinceUnixEpoch.val.toNat
  print text := IO.print text

end Retrace

open Retrace in
def main (words : List String) : IO UInt32 := do
  let config ← IO.getEnv "TRACE_STEPPER_CONFIG"
  let coloured := (← (← IO.getStdout).isTty) && (← IO.getEnv "NO_COLOR").isNone
  let outcome : Outcome ← CommandLine.run config coloured words
  IO.eprint outcome.errors
  return outcome.code.toUInt32

import Retrace.Document.File
import Retrace.Session.Summary
import Retrace.Settings

/-! What can be asked of a recording in a file: to check it, to write its document, to show a step. -/
namespace Retrace

/-- Why a command fails. -/
inductive CommandError
  | noTrace
  | noOutput
  | outputIsTrace
  | settings (path : String) (error : SettingsError)
  | trace (path : String) (error : FileError)
  | recording (error : RecordingError)
  | replay (error : ReplayError)
  | document (error : SaveError)

/-- The wordings from the outermost cause to the innermost. -/
def CommandError.chain : CommandError → List String
  | .noTrace => ["Trace path cannot be empty"]
  | .noOutput => ["Output path cannot be empty"]
  | .outputIsTrace => ["Output path must differ from the trace path"]
  | .settings path e => ("Failed to load config " ++ path) :: e.chain
  | .trace path e => ["Failed to read trace file " ++ path, e.message]
  | .recording e => ["Failed to parse raw trace", e.message]
  | .replay e => ["Cannot visualize this trace", e.message]
  | .document e => "Failed to write canonical trace" :: e.chain

/-- The files that a command reads. -/
structure Inputs where
  trace : String
  config : Option String
deriving DecidableEq

/-- Whether a document may be asked for: both paths are given and are not the same. -/
def checkOutput (trace output : String) : Except CommandError Unit :=
  if trace = "" then .error .noTrace
  else if output = "" then .error .noOutput
  else if Path.same trace output then .error .outputIsTrace
  else .ok ()

namespace Commands

abbrev Command (m : Type → Type) := ExceptT CommandError m

variable {m : Type → Type} [Monad m] [Host m]

def settings : Option String → Command m Settings
  | none => return .default
  | some path => ExceptT.mk do return (← Settings.load path).mapError (.settings path)

def openSession (inputs : Inputs) : Command m Session := do
  let settings ← settings inputs.config
  let text ← ExceptT.mk do
    return (← Host.readText inputs.trace).mapError (.trace inputs.trace)
  let recording ← liftExcept ((Recording.ofText text).mapError .recording)
  liftExcept ((Session.ofRecording settings.maxSteps recording).mapError .replay)
where
  liftExcept {α : Type} (r : Except CommandError α) : Command m α := ExceptT.mk (pure r)

def inspect (inputs : Inputs) (output : String) : Command m Unit := do
  let session ← openSession inputs
  let time ← (Host.now : m String)
  let document := Document.ofSession time session
  ExceptT.mk do return (← document.save output).mapError .document

def report (s : Session) : String :=
  let cells := (s.steps.getLast?.map fun step => step.heap.size).getD 0
  let depth := (s.steps.map fun step => step.stack.length).foldl max 0
  "✓ Valid trace\n" ++
    "  Steps: " ++ toString s.total ++ "\n" ++
    "  Heap objects: " ++ toString cells ++ "\n" ++
    "  Max stack depth: " ++ toString depth ++ "\n"

def print (text : String) : Command m Unit := (Host.print text : m Unit)

def validate (inputs : Inputs) : Command m Unit := do
  print ("Validating trace: " ++ inputs.trace ++ "\n")
  print (report (← openSession inputs))

def step (inputs : Inputs) (index : Int64) (coloured : Bool) : Command m Unit := do
  let session ← openSession inputs
  print ((session.move (.goTo index)).summary coloured ++ "\n")

def version : String := "0.1.0"

def versionText : String :=
  "Trace Stepper v" ++ version ++ "\n" ++
    "Canonical trace schema: v" ++ Document.currentVersion ++ "\n\n" ++
    "Step-through reconstruction of interpreter execution traces.\n"

end Commands
end Retrace

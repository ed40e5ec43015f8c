import Retrace.Invocation

/-! Running a command line: what it prints, what it complains about, and the code it ends with. -/
namespace Retrace

/-- How a run ends. -/
structure Outcome where
  code : UInt8
  errors : String
deriving DecidableEq

namespace Outcome

def success : Outcome := ⟨0, ""⟩

/-- Indents the lines of a cause after the first. -/
def indent (margin : String) (text : String) : String :=
  ("\n" ++ margin).intercalate (text.splitOn "\n")

/-- The causes below the outermost, numbered if there are several. -/
def causes : List String → String
  | [] => ""
  | [cause] => "\n\nCaused by:\n    " ++ indent "    " cause
  | chain =>
    "\n\nCaused by:" ++ String.join (chain.zipIdx.map fun (cause, i) =>
      "\n" ++ String.ofList (List.replicate (5 - (toString i).length) ' ') ++ toString i ++ ": " ++
        indent "       " cause)

def complaint : List String → String
  | [] => ""
  | outermost :: chain => "Error: " ++ outermost ++ causes chain ++ "\n"

def failure (e : CommandError) : Outcome := ⟨1, complaint e.chain⟩

def misuse (e : UsageError) : Outcome := ⟨2, "error: " ++ e.message ++ "\n"⟩

end Outcome

namespace CommandLine

def helpText : String :=
  "Usage: trace-stepper [--verbose] <TASK>\n\n" ++
    "  inspect -t <TRACE> [-o <OUTPUT>] [-c <CONFIG>]   write the canonical trace document\n" ++
    "  validate -t <TRACE> [-c <CONFIG>]                check that a trace normalizes\n" ++
    "  step -t <TRACE> [-i <INDEX>] [-c <CONFIG>]       print one step\n" ++
    "  version                                          print version information\n"

variable {m : Type → Type} [Monad m] [Host m]

def outcome (command : Commands.Command m Unit) : m Outcome := do
  match ← command.run with
  | .ok () => return .success
  | .error e => return .failure e

def perform (coloured : Bool) : Invocation → m Outcome
  | .help => do
    Host.print helpText
    return .success
  | .programVersion => do
    Host.print ("trace-stepper " ++ Commands.version ++ "\n")
    return .success
  | .inspect inputs output => outcome do
    ExceptT.mk (pure (checkOutput inputs.trace output))
    Commands.inspect inputs output
  | .validate inputs => outcome (Commands.validate inputs)
  | .step inputs index => outcome (Commands.step inputs index coloured)
  | .version => do
    Host.print Commands.versionText
    return .success

/-- Runs the words of a command line. `config` is what the environment names. -/
def run (config : Option String) (coloured : Bool) (words : List String) : m Outcome :=
  match Invocation.ofWords config words with
  | .ok invocation => perform coloured invocation
  | .error e => return .misuse e

end CommandLine
end Retrace

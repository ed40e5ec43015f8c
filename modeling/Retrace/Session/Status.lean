import Retrace.Snapshot.Basic

/-! What the program is doing at a step, in words. -/
namespace Retrace

inductive Status
  | noData
  | executing (line : UInt32)
  | calling (function : String)
  | returning (function : String)
  | raised (message : String)
  | completed
deriving DecidableEq

namespace Status

/-- What stands for the name of a function without one. -/
def named (function : String) : String := if function = "" then "anonymous" else function

/-- The status at a step. An exception counts even at the last step; else the last step is the end
of the program whatever its event is. -/
def at? (step : Option Snapshot) (atEnd : Bool) : Status :=
  match step with
  | none => noData
  | some s =>
    if s.event = .raise then raised (s.exception.getD "Unknown error")
    else if atEnd then completed
    else match s.event with
      | .call => calling (named s.funcName)
      | .leave => returning (named s.funcName)
      | _ => executing s.line

def text : Status → String
  | noData => "No execution data available"
  | executing line => "Executing line " ++ toString line
  | calling function => "Calling function: " ++ function
  | returning function => "Returning from function: " ++ function
  | raised message => "Exception: " ++ message
  | completed => "Program execution completed successfully"

def isError : Status → Bool
  | noData | raised _ => true
  | _ => false

end Status
end Retrace

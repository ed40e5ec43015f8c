import Retrace.Heap.Json
import Retrace.Recording.Event
import Retrace.Scope

/-! Recordings of an interpreter: a list of records, one for each event, with whatever the interpreter
chose to tell about it. Nothing in a record has to be there. -/
namespace Retrace

open Json (Read)

/-- A function call on the stack, as recorded. -/
structure Activation where
  frameId : Option UInt64
  funcName : Option String
  locals : Option Scope
  /-- The order in which the locals are shown. -/
  order : Option (List String)
  /-- The frames around this one, nearest first. -/
  parents : Option (List UInt64)
  identity : Option String

/-- One event, as recorded. -/
structure Record where
  line : Option UInt32
  event : Option Event
  funcName : Option String
  globals : Option Scope
  /-- The order in which the globals are shown. -/
  order : Option (List String)
  /-- The calls in progress, outermost first. -/
  stack : Option (List Activation)
  /-- Cells that the recording brings along, numbered by itself. -/
  heap : Option Heap
  /-- What the program has written so far. -/
  output : Option String
  exception : Option String

/-- A recording, with the text of the program if it came along. -/
structure Recording where
  source : Option String
  records : List Record

namespace Activation

def names : Json → Read (List String) := Json.toList Json.toText

def ids : Json → Read (List UInt64) := Json.toList Json.toUInt64

def fields : List (Json.Field Json) :=
  [.sometimes "frame_id" (Json.optional Json.toUInt64),
    .sometimes "func_name" (Json.optional Json.toText),
    .sometimes "locals" (Json.optional Scope.ofJson),
    .sometimes "ordered_varnames" (Json.optional names),
    .sometimes "parent_frame_id_list" (Json.optional ids),
    .sometimes "unique_hash" (Json.optional Json.toText)]

def ofJson (v : Json) : Read Activation := do
  let ms ← Json.recordFields "struct RawFrame" "fewer elements in array" fields v
  return {
    frameId := ← Json.Field.get? (Json.optional Json.toUInt64) "frame_id" ms
    funcName := ← Json.Field.get? (Json.optional Json.toText) "func_name" ms
    locals := ← Json.Field.get? (Json.optional Scope.ofJson) "locals" ms
    order := ← Json.Field.get? (Json.optional names) "ordered_varnames" ms
    parents := ← Json.Field.get? (Json.optional ids) "parent_frame_id_list" ms
    identity := ← Json.Field.get? (Json.optional Json.toText) "unique_hash" ms }

end Activation

namespace Record

def activations : Json → Read (List Activation) := Json.toList Activation.ofJson

def fields : List (Json.Field Json) :=
  [.sometimes "line" (Json.optional Json.toUInt32),
    .sometimes "event" (Json.optional Event.ofJson),
    .sometimes "func_name" (Json.optional Json.toText),
    .sometimes "globals" (Json.optional Scope.ofJson),
    .sometimes "ordered_globals" (Json.optional Activation.names),
    .sometimes "stack_to_render" (Json.optional activations),
    .sometimes "heap" (Json.optional Heap.ofJson),
    .sometimes "stdout" (Json.optional Json.toText),
    .sometimes "exception_msg" (Json.optional Json.toText)]

def ofMembers (members : List (String × Json)) : Read Record := do
  let ms ← Json.knownMembers fields [] members
  return {
    line := ← Json.Field.get? (Json.optional Json.toUInt32) "line" ms
    event := ← Json.Field.get? (Json.optional Event.ofJson) "event" ms
    funcName := ← Json.Field.get? (Json.optional Json.toText) "func_name" ms
    globals := ← Json.Field.get? (Json.optional Scope.ofJson) "globals" ms
    order := ← Json.Field.get? (Json.optional Activation.names) "ordered_globals" ms
    stack := ← Json.Field.get? (Json.optional activations) "stack_to_render" ms
    heap := ← Json.Field.get? (Json.optional Heap.ofJson) "heap" ms
    output := ← Json.Field.get? (Json.optional Json.toText) "stdout" ms
    exception := ← Json.Field.get? (Json.optional Json.toText) "exception_msg" ms }

end Record

/-- Why something is no recording. -/
inductive RecordingError
  | json (error : Json.ReadError)
  /-- An object without a list of steps. -/
  | noSteps
  /-- Neither a list nor an object. -/
  | notTrace (kind : String)
  | notObject (index : Nat) (kind : String)
  | step (index : Nat) (error : Json.ReadError)

namespace Recording

/-- The members of an object in which steps are looked for, in this order. -/
def stepNames : List String := ["trace", "steps", "execution_trace"]

/-- The list of steps of a recording: the recording itself, or the first member that is a list. -/
def stepList : Json → Except RecordingError (List Json)
  | .array steps => return steps
  | .object members =>
    match stepNames.findSome? fun name => (members.lookup name).bind Json.array? with
    | some steps => return steps
    | none => throw .noSteps
  | v => throw (.notTrace v.kind)

def sourceText (v : Json) : Option String := (v.member? "code").bind Json.string?

def readStep (index : Nat) : Json → Except RecordingError Record
  | .object members => (Record.ofMembers members).mapError (.step index)
  | v => throw (.notObject index v.kind)

/-- Reads steps from the `index`-th on, up to the first that fails. -/
def readSteps (index : Nat) : List Json → Except RecordingError (List Record)
  | [] => return []
  | v :: vs => return (← readStep index v) :: (← readSteps (index + 1) vs)

def ofJson (v : Json) : Except RecordingError Recording := do
  let records ← readSteps 0 (← stepList v)
  return ⟨sourceText v, records⟩

def ofText (text : String) : Except RecordingError Recording := do
  ofJson (← (Json.parse text).mapError .json)

end Recording

namespace RecordingError

/-- The wording. What is wrong with a JSON text is not told. -/
def message : RecordingError → String
  | .json _ => "JSON deserialization failed"
  | .noSteps => "Invalid trace format: Trace object has no step array (expected one of: " ++
      ", ".intercalate Recording.stepNames ++ ")"
  | .notTrace kind =>
    "Invalid trace format: Trace must be a JSON array or object, found " ++ kind
  | .notObject index kind => invalid index ("step must be a JSON object, found " ++ kind)
  | .step index error => invalid index error.message
where
  invalid (index : Nat) (reason : String) : String :=
    "Invalid raw step " ++ toString index ++ ": " ++ reason

end RecordingError
end Retrace

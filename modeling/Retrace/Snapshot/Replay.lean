import Retrace.Heap.Memory
import Retrace.Recording.Basic
import Retrace.Snapshot.Basic

/-! Replaying a recording: one pass in order, one snapshot for each record. A snapshot's heap starts
as the heap of the one before, so cells that were seen once stay in view. -/
namespace Retrace

namespace Memory

/-- Encodes named values from left to right into bindings. -/
def encodeBindings (m : Memory) (entries : List (String × Datum)) :
    SortedMap String Slot × Memory :=
  let (slots, m) := m.encodeEntries entries
  (SortedMap.ofList slots, m)

end Memory

namespace Frame

def defaultFuncName : String := "function"

/-- The frame of a recorded call at a position from the outermost. Locals are encoded as the declared
order names them, unbound names as `null`; without an order, as they were bound. -/
def ofActivation (m : Memory) (a : Activation) (position : Nat) (active : Bool) :
    Frame × Memory :=
  let scope := a.locals.getD ∅
  let order := a.order.getD scope.names
  let (locals, m) := m.encodeBindings (order.map fun name => (name, (scope.get? name).getD .null))
  ({ id := a.frameId.getD (position + 1).toUInt64
     funcName := a.funcName.getD defaultFuncName
     order
     locals
     parents := a.parents.getD []
     highlighted := active
     identity := a.identity.getD ("frame_" ++ toString position) }, m)

/-- The frames of a stack from a position on. The innermost one is running unless `idle`. -/
def ofStack (idle : Bool) (m : Memory) (position : Nat) : List Activation → List Frame × Memory
  | [] => ([], m)
  | a :: rest =>
    let (frame, m) := ofActivation m a position (rest.isEmpty && !idle)
    let (frames, m) := ofStack idle m (position + 1) rest
    (frame :: frames, m)

/-- The frames of a whole stack at an event. A function that returns is not running any more. -/
def ofActivations (m : Memory) (event : Event) (stack : List Activation) : List Frame × Memory :=
  ofStack (event = .leave) m 0 stack

end Frame

namespace Record

def moduleName : String := "<module>"

def defaultLine : UInt32 := 1

/-- The event of a record; a message of an exception makes it one. -/
def finalEvent (r : Record) : Event :=
  if r.exception.isSome then .raise else r.event.getD .step

def bindings (r : Record) : Scope := r.globals.getD ∅

/-- The declared order of the globals, or else the order in which they were bound. -/
def globalOrder (r : Record) : List String :=
  match r.order with
  | some (name :: names) => name :: names
  | _ => r.bindings.names

end Record

namespace Snapshot

/-- Memory at a record, with the cells merged that the record brings along. -/
def arrive (m : Memory) (r : Record) : Memory :=
  match r.heap with
  | some supplied => m.merge supplied
  | none => m

def ofRecord (m : Memory) (r : Record) : Snapshot × Memory :=
  let m := arrive m r
  let (globals, m) := m.encodeBindings r.bindings.entries
  let (stack, m) := Frame.ofActivations m r.finalEvent (r.stack.getD [])
  ({ line := r.line.getD Record.defaultLine
     event := r.finalEvent
     funcName := r.funcName.getD Record.moduleName
     globals
     order := r.globalOrder
     stack
     heap := m.heap
     output := r.output.getD ""
     exception := r.exception }, m)

end Snapshot

/-- Why a recording cannot be replayed. -/
inductive ReplayError
  /-- A step refers to a cell that its heap lacks. -/
  | dangling (step : Nat) (id : HeapId)
  | tooLong (steps limit : Nat)
deriving DecidableEq

def ReplayError.message : ReplayError → String
  | .dangling step id => "Step " ++ toString step ++ " references heap object " ++ toString id ++
      " which is not in its heap"
  | .tooLong steps limit => "Trace has " ++ toString steps ++
      " steps, which exceeds the limit of " ++ toString limit

namespace Recording

/-- The snapshots of records, the first of which is the step `index`. -/
def replayFrom (m : Memory) (index : Nat) : List Record → Except ReplayError (List Snapshot)
  | [] => .ok []
  | r :: rest =>
    let (s, m) := Snapshot.ofRecord m r
    match s.dangling? with
    | some id => .error (.dangling index id)
    | none => (s :: ·) <$> replayFrom m (index + 1) rest

def replay (limit : Option Nat) (records : List Record) : Except ReplayError (List Snapshot) :=
  match limit with
  | some limit =>
    if limit < records.length then .error (.tooLong records.length limit)
    else replayFrom ∅ 0 records
  | none => replayFrom ∅ 0 records

end Recording
end Retrace

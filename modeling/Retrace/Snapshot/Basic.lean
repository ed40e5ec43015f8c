import Retrace.Heap.Cell
import Retrace.Recording.Event

/-! Snapshots: the whole state of the program at one step, each on its own. -/
namespace Retrace

/-- A function call on the stack. -/
structure Frame where
  id : UInt64
  funcName : String
  /-- The locals in the order in which they are shown. -/
  order : List String
  locals : SortedMap String Slot
  /-- The frames around this one, nearest first; none for a call from the module. -/
  parents : List UInt64
  highlighted : Bool
  /-- Tells the frame from others over all steps. -/
  identity : String
deriving DecidableEq

/-- The state of the program at one step. -/
structure Snapshot where
  line : UInt32
  event : Event
  funcName : String
  globals : SortedMap String Slot
  /-- The globals in the order in which they are shown. -/
  order : List String
  /-- The calls in progress, outermost first. -/
  stack : List Frame
  /-- All cells seen so far. -/
  heap : Heap
  /-- What the program has written so far. -/
  output : String
  exception : Option String
deriving DecidableEq

def inOrder (order : List String) (bindings : SortedMap String Slot) : Slots :=
  order.filterMap fun name => (bindings.get? name).map fun slot => (name, slot)

namespace Frame

def parent? (f : Frame) : Option UInt64 := f.parents.head?

def localsInOrder (f : Frame) : Slots := inOrder f.order f.locals

end Frame

namespace Snapshot

def activeFrame? (s : Snapshot) : Option Frame := s.stack.find? Frame.highlighted

def lookup (s : Snapshot) (id : HeapId) : Option Cell := s.heap.get? id

def globalsInOrder (s : Snapshot) : Slots := inOrder s.order s.globals

def bindings (s : Snapshot) : List Slot :=
  s.globals.values ++ s.stack.flatMap fun f => f.locals.values

/-- The cells that globals and locals point at, ascending, each once. -/
def roots (s : Snapshot) : List HeapId :=
  (SortedMap.ofList ((s.bindings.filterMap Slot.target?).map fun id => (id, ()))).keys

/-- Follows references from a stack of cells, the last pushed first, to a cell that is not there.
Each visited cell is expanded once, so the pops are bounded by `fuel`, the number of references. -/
def search (heap : Heap) : Nat → List HeapId → List HeapId → Option HeapId
  | 0, _, _ => none
  | _ + 1, _, [] => none
  | fuel + 1, visited, id :: pending =>
    if visited.contains id then search heap fuel visited pending
    else match heap.get? id with
      | none => some id
      | some cell => search heap fuel (id :: visited) (cell.references.reverse ++ pending)

/-- A cell that can be reached and is not there. -/
def dangling? (s : Snapshot) : Option HeapId :=
  let roots := s.roots
  let references := s.heap.values.flatMap Cell.references
  search s.heap (roots.length + references.length) [] roots.reverse

end Snapshot
end Retrace

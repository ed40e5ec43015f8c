import Retrace.Heap.Json
import Retrace.Snapshot.Basic

/-! The JSON form of snapshots. Bindings are objects in the order of their names; a message of an
exception is left out when there is none. -/
namespace Retrace

open Json (Read)

def bindingsJson (bindings : SortedMap String Slot) : Json :=
  .object (bindings.toList.map fun (name, slot) => (name, slot.toJson))

/-- Bindings in a text; a repeated name takes the last slot. -/
def bindingsOfTree (t : Json.Tree) : Read (SortedMap String Slot) := do
  let slots ← t.toMembers fun key t => do return (← Json.Tree.keyName key, ← Slot.ofTree t)
  return SortedMap.ofList slots

def namesJson (names : List String) : Json := .array (names.map .string)

def namesOfTree (t : Json.Tree) : Read (List String) := t.toList Json.Tree.toText

namespace Frame

def toJson (f : Frame) : Json :=
  .object [("frame_id", .ofUInt64 f.id), ("func_name", .string f.funcName),
    ("ordered_varnames", namesJson f.order), ("encoded_locals", bindingsJson f.locals),
    ("parent_frame_id_list", .array (f.parents.map .ofUInt64)),
    ("is_highlighted", .bool f.highlighted), ("unique_hash", .string f.identity)]

def idsOfTree (t : Json.Tree) : Read (List UInt64) := t.toList Json.Tree.toUInt64

def fields : List (Json.Field Json.Tree) :=
  [.always "frame_id" Json.Tree.toUInt64, .always "func_name" Json.Tree.toText,
    .always "ordered_varnames" namesOfTree, .always "encoded_locals" bindingsOfTree,
    .always "parent_frame_id_list" idsOfTree, .always "is_highlighted" Json.Tree.toBool,
    .always "unique_hash" Json.Tree.toText]

def ofTree (t : Json.Tree) : Read Frame := do
  let ms ← t.recordFields "struct Frame" fields
  return {
    id := ← Json.Field.get Json.Tree.toUInt64 "frame_id" ms
    funcName := ← Json.Field.get Json.Tree.toText "func_name" ms
    order := ← Json.Field.get namesOfTree "ordered_varnames" ms
    locals := ← Json.Field.get bindingsOfTree "encoded_locals" ms
    parents := ← Json.Field.get idsOfTree "parent_frame_id_list" ms
    highlighted := ← Json.Field.get Json.Tree.toBool "is_highlighted" ms
    identity := ← Json.Field.get Json.Tree.toText "unique_hash" ms }

end Frame

namespace Snapshot

def toJson (s : Snapshot) : Json :=
  .object ([("line", .ofNat s.line.toNat), ("event", .string s.event.name),
    ("func_name", .string s.funcName), ("globals", bindingsJson s.globals),
    ("ordered_globals", namesJson s.order),
    ("stack_to_render", .array (s.stack.map Frame.toJson)), ("heap", s.heap.toJson),
    ("stdout", .string s.output)] ++
    (s.exception.map fun message => ("exception_msg", .string message)).toList)

def framesOfTree (t : Json.Tree) : Read (List Frame) := t.toList Frame.ofTree

def exceptionOfTree (t : Json.Tree) : Read (Option String) := t.optional Json.Tree.toText

def fields : List (Json.Field Json.Tree) :=
  [.always "line" Json.Tree.toUInt32, .always "event" Event.ofTree,
    .always "func_name" Json.Tree.toText, .always "globals" bindingsOfTree,
    .always "ordered_globals" namesOfTree, .always "stack_to_render" framesOfTree,
    .always "heap" Heap.ofTree, .always "stdout" Json.Tree.toText,
    .sometimes "exception_msg" exceptionOfTree]

def ofTree (t : Json.Tree) : Read Snapshot := do
  let ms ← t.recordFields "struct CanonicalStep" fields
  return {
    line := ← Json.Field.get Json.Tree.toUInt32 "line" ms
    event := ← Json.Field.get Event.ofTree "event" ms
    funcName := ← Json.Field.get Json.Tree.toText "func_name" ms
    globals := ← Json.Field.get bindingsOfTree "globals" ms
    order := ← Json.Field.get namesOfTree "ordered_globals" ms
    stack := ← Json.Field.get framesOfTree "stack_to_render" ms
    heap := ← Json.Field.get Heap.ofTree "heap" ms
    output := ← Json.Field.get Json.Tree.toText "stdout" ms
    exception := ← Json.Field.get? exceptionOfTree "exception_msg" ms }

end Snapshot
end Retrace

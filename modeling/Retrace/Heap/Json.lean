import Retrace.Heap.Cell
import Retrace.Json.Record

/-! The JSON form of heaps. A slot is a primitive or a reference; a cell is a union tagged by its
shape; a heap is an object whose names are numbers. -/
namespace Retrace

open Json (Read)

namespace Slot

def referenceJson (id : HeapId) : Json :=
  .object [("kind", .string "ref"), ("heap_id", .ofUInt64 id)]

def toJson : Slot → Json
  | .ref id => referenceJson id
  | .bool b => .bool b
  | .number n => .number n
  | .string s => .string s
  | .null => .null

/-- Whether a value names the only variant of a reference, by its name or by its index. -/
def isReferenceTag : Json → Bool
  | .string s => s = "ref"
  | .number (.unsigned n) => n = 0
  | _ => false

/-- The cell that a value refers to: an array of tag and number, or an object with both, each once,
among whatever other members. -/
def reference? : Json → Option HeapId
  | .array [tag, id] => if isReferenceTag tag then id.toUInt64.toOption else none
  | .object members =>
    match members.filter (·.1 = "kind"), members.filter (·.1 = "heap_id") with
    | [(_, tag)], [(_, id)] => if isReferenceTag tag then id.toUInt64.toOption else none
    | _, _ => none
  | _ => none

def ofJson (v : Json) : Read Slot :=
  match reference? v, v with
  | some id, _ => return .ref id
  | none, .bool b => return .bool b
  | none, .number n => return .number n
  | none, .string s => return .string s
  | none, .null => return .null
  | none, _ => Json.fail (.noShape "Value")

/-- A slot in a text, whatever its flaws are. -/
def ofTree (t : Json.Tree) : Read Slot := do ofJson (← Read.ofText t.toJson)

/-- A slot in a text that has to be a reference. -/
def referenceOfTree (t : Json.Tree) : Read HeapId := do
  let ((), content) ← t.tagged "ReferenceRepr" "kind" [("ref", ())]
  let fields ← Json.variantFields "ReferenceRepr::Ref" [.always "heap_id" Json.toUInt64] content
  Json.Field.get Json.toUInt64 "heap_id" fields

end Slot

namespace Cell

def entriesJson (entries : Slots) : Json :=
  .array (entries.map fun (name, slot) => .array [.string name, slot.toJson])

def toJson : Cell → Json
  | .list elements =>
    .object [("type", .string "LIST"), ("elements", .array (elements.map Slot.toJson))]
  | .mapping entries => .object [("type", .string "DICT"), ("entries", entriesJson entries)]
  | .function name digest =>
    .object [("type", .string "FUNCTION"), ("name", .string name), ("body_digest", .string digest)]
  | .object className fields =>
    .object [("type", .string "INSTANCE"), ("class_name", .string className),
      ("fields", entriesJson fields)]

def entryOfJson : Json → Read (String × Slot)
  | .array [] => Json.fail (.length 0 "a tuple of size 2")
  | .array [name] => do
    discard name.toText
    Json.fail (.length 1 "a tuple of size 2")
  | .array (name :: slot :: more) => do
    let entry := (← name.toText, ← Slot.ofJson slot)
    if more ≠ [] then
      Json.fail (.length (more.length + 2) (Json.elements 2 ++ " in sequence"))
    return entry
  | v => Json.fail (.type v.found "a tuple of size 2")

/-- The shapes of cells. -/
inductive Shape
  | list
  | mapping
  | function
  | object

def tags : List (String × Shape) :=
  [("LIST", .list), ("DICT", .mapping), ("FUNCTION", .function), ("INSTANCE", .object)]

def ofFields (content : Json) : Shape → Read Cell
  | .list => do
    let elements := Json.toList Slot.ofJson
    let fields ← Json.variantFields "HeapObject::List" [.always "elements" elements] content
    return .list (← Json.Field.get elements "elements" fields)
  | .mapping => do
    let entries := Json.toList entryOfJson
    let fields ← Json.variantFields "HeapObject::Mapping" [.always "entries" entries] content
    return .mapping (← Json.Field.get entries "entries" fields)
  | .function => do
    let fields ← Json.variantFields "HeapObject::Function"
      [.always "name" Json.toText, .always "body_digest" Json.toText] content
    return .function (← Json.Field.get Json.toText "name" fields)
      (← Json.Field.get Json.toText "body_digest" fields)
  | .object => do
    let entries := Json.toList entryOfJson
    let fields ← Json.variantFields "HeapObject::Instance"
      [.always "class_name" Json.toText, .always "fields" entries] content
    return .object (← Json.Field.get Json.toText "class_name" fields)
      (← Json.Field.get entries "fields" fields)

def ofTree (t : Json.Tree) : Read Cell := do
  let (shape, content) ← t.tagged "HeapObject" "type" tags
  ofFields content shape

end Cell

namespace Heap

def idName (id : HeapId) : String := String.ofList (digits id.toNat)

def toJson (heap : Heap) : Json :=
  .object (heap.toList.map fun (id, cell) => (idName id, cell.toJson))

def idOfKey (key : Json.Key) : Read HeapId := do
  let (n, ends) ← Read.ofText key.number
  let id ← (Json.Found.number n).toUInt64
  if ends then return id else throw (.text .keyNotNumeric)

/-- A repeated number takes the last cell. -/
def ofTree (t : Json.Tree) : Read Heap := do
  let cells ← t.toMembers fun key t => do return (← idOfKey key, ← Cell.ofTree t)
  return SortedMap.ofList cells

def ofJson (v : Json) : Read Heap := ofTree v.tree

end Heap
end Retrace

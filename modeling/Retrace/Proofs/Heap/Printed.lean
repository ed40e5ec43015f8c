import Retrace.Heap.Json
import Retrace.Proofs.Json.RecordReading
import Retrace.Proofs.SortedMap

/-! Heaps read back, from their printed text and from their JSON form. A slot comes back from the
first of the shapes that fits its JSON form, a cell from the fields of its shape, and a cell number
from the digits of its name. -/
namespace Retrace

open Json

variable {P : Number → Prop}

/-! ### Slots -/

namespace Slot

def Respects (P : Number → Prop) : Slot → Prop
  | .number n => P n
  | _ => True

abbrev ReadsBack : Slot → Prop := Respects Number.ReadsBack

theorem nested_toJson (hP : ∀ n, P (.unsigned n)) {s : Slot} (h : s.Respects P) (room : Nat) :
    Nested P (room + 1) s.toJson := by
  cases s with
  | ref id =>
    refine .object ?_
    rw [List.forall_mem_cons, List.forall_mem_singleton]
    exact ⟨.string _ _, .number _ (hP id)⟩
  | bool b => exact .bool _ b
  | number n => exact .number _ h
  | string s => exact .string _ s
  | null => exact .null _

private theorem reference?_referenceJson (id : HeapId) : reference? (referenceJson id) = some id :=
  congrArg Except.toOption (toUInt64_ofUInt64 id)

/-- The form of a reference is the only one that is taken for a reference. -/
theorem ofJson_toJson (s : Slot) : ofJson s.toJson = .ok s := by
  cases s with
  | ref id =>
    simp only [toJson, ofJson, reference?_referenceJson]
    rfl
  | _ => rfl

theorem ofTree_printed (s : Slot) : ofTree s.toJson.printed = .ok s := by
  rw [ofTree, toJson_printed]
  exact ofJson_toJson s

end Slot

/-! ### Cells -/

namespace Cell

private theorem nested_slots (hP : ∀ n, P (.unsigned n)) {slots : List Slot}
    (h : ∀ s ∈ slots, s.Respects P) (room : Nat) :
    Nested P (room + 2) (.array (slots.map Slot.toJson)) :=
  .array_map fun _ hs => Slot.nested_toJson hP (h _ hs) room

private theorem nested_entries (hP : ∀ n, P (.unsigned n)) {entries : Slots}
    (h : ∀ e ∈ entries, e.2.Respects P) (room : Nat) : Nested P (room + 3) (entriesJson entries) := by
  refine .array_map fun e he => .array ?_
  rw [List.forall_mem_cons, List.forall_mem_singleton]
  exact ⟨.string _ _, Slot.nested_toJson hP (h e he) room⟩

theorem nested_toJson (hP : ∀ n, P (.unsigned n)) {c : Cell} (h : ∀ s ∈ c.slots, s.Respects P)
    (room : Nat) : Nested P (room + 4) c.toJson := by
  cases c with
  | list slots =>
    refine .object ?_
    rw [List.forall_mem_cons, List.forall_mem_singleton]
    exact ⟨.string _ _, nested_slots hP h (room + 1)⟩
  | mapping entries =>
    refine .object ?_
    rw [List.forall_mem_cons, List.forall_mem_singleton]
    exact ⟨.string _ _, nested_entries hP (List.forall_mem_map.1 h) room⟩
  | function name digest =>
    refine .object ?_
    rw [List.forall_mem_cons, List.forall_mem_cons, List.forall_mem_singleton]
    exact ⟨.string _ _, .string _ _, .string _ _⟩
  | object className fields =>
    refine .object ?_
    rw [List.forall_mem_cons, List.forall_mem_cons, List.forall_mem_singleton]
    exact ⟨.string _ _, .string _ _, nested_entries hP (List.forall_mem_map.1 h) room⟩

private theorem toList_slots (slots : List Slot) :
    Json.toList Slot.ofJson (.array (slots.map Slot.toJson)) = .ok slots :=
  toList_map fun s _ => s.ofJson_toJson

private theorem entryOfJson_toJson (e : String × Slot) :
    entryOfJson (.array [.string e.1, e.2.toJson]) = .ok e := by
  have hname : (Json.string e.1).toText = .ok e.1 := rfl
  simp only [entryOfJson, hname, Slot.ofJson_toJson, bind, Except.bind]
  rfl

private theorem toList_entriesJson (entries : Slots) :
    Json.toList entryOfJson (entriesJson entries) = .ok entries :=
  toList_map fun e _ => entryOfJson_toJson e

private theorem ofFields_list (slots : List Slot) :
    ofFields (.object [("elements", .array (slots.map Slot.toJson))]) .list =
      .ok (.list slots) := by
  have hfields : variantFields "HeapObject::List" [.always "elements" (Json.toList Slot.ofJson)]
      (.object [("elements", .array (slots.map Slot.toJson))]) =
        .ok [("elements", .array (slots.map Slot.toJson))] :=
    recordFields_of_fills _ _ (by decide) (.always (toList_slots slots) .nil)
  simp only [ofFields, hfields, bind, Except.bind]
  rw [Field.get_of_lookup rfl (toList_slots slots)]
  rfl

private theorem ofFields_mapping (entries : Slots) :
    ofFields (.object [("entries", entriesJson entries)]) .mapping = .ok (.mapping entries) := by
  have hfields : variantFields "HeapObject::Mapping" [.always "entries" (Json.toList entryOfJson)]
      (.object [("entries", entriesJson entries)]) = .ok [("entries", entriesJson entries)] :=
    recordFields_of_fills _ _ (by decide) (.always (toList_entriesJson entries) .nil)
  simp only [ofFields, hfields, bind, Except.bind]
  rw [Field.get_of_lookup rfl (toList_entriesJson entries)]
  rfl

private theorem ofFields_function (name digest : String) :
    ofFields (.object [("name", .string name), ("body_digest", .string digest)]) .function =
      .ok (.function name digest) := by
  have hname : (Json.string name).toText = .ok name := rfl
  have hdigest : (Json.string digest).toText = .ok digest := rfl
  have hfields : variantFields "HeapObject::Function"
      [.always "name" Json.toText, .always "body_digest" Json.toText]
      (.object [("name", .string name), ("body_digest", .string digest)]) =
        .ok [("name", .string name), ("body_digest", .string digest)] :=
    recordFields_of_fills _ _ (by decide) (.always hname (.always hdigest .nil))
  simp only [ofFields, hfields, bind, Except.bind]
  rw [Field.get_of_lookup rfl hname, Field.get_of_lookup rfl hdigest]
  rfl

private theorem ofFields_object (className : String) (fields : Slots) :
    ofFields (.object [("class_name", .string className), ("fields", entriesJson fields)])
      .object = .ok (.object className fields) := by
  have hname : (Json.string className).toText = .ok className := rfl
  have hfields : variantFields "HeapObject::Instance"
      [.always "class_name" Json.toText, .always "fields" (Json.toList entryOfJson)]
      (.object [("class_name", .string className), ("fields", entriesJson fields)]) =
        .ok [("class_name", .string className), ("fields", entriesJson fields)] :=
    recordFields_of_fills _ _ (by decide) (.always hname (.always (toList_entriesJson fields) .nil))
  simp only [ofFields, hfields, bind, Except.bind]
  rw [Field.get_of_lookup rfl hname, Field.get_of_lookup rfl (toList_entriesJson fields)]
  rfl

/-- A cell comes back from the tag of its shape and from its fields. -/
theorem ofTree_of_toJson {t : Tree} {c : Cell} (h : t.toJson = .ok c.toJson) :
    ofTree t = .ok c := by
  cases c with
  | list slots =>
    rw [ofTree, Tree.tagged_of_toJson _ rfl (by simp) h]
    exact ofFields_list slots
  | mapping entries =>
    rw [ofTree, Tree.tagged_of_toJson _ rfl (by simp) h]
    exact ofFields_mapping entries
  | function name digest =>
    rw [ofTree, Tree.tagged_of_toJson _ rfl (by simp) h]
    exact ofFields_function name digest
  | object className fields =>
    rw [ofTree, Tree.tagged_of_toJson _ rfl (by simp) h]
    exact ofFields_object className fields

end Cell

/-! ### Heaps -/

namespace Heap

theorem nested_toJson (hP : ∀ n, P (.unsigned n)) {heap : Heap}
    (h : ∀ c ∈ heap.values, ∀ s ∈ c.slots, s.Respects P) (room : Nat) :
    Nested P (room + 5) heap.toJson :=
  .object_map fun e he => Cell.nested_toJson hP (h e.2 (List.mem_map_of_mem he)) room

private theorem idOfKey_of_number {key : Key} {id : HeapId}
    (h : key.number = .ok (.unsigned id, true)) :
    idOfKey key = .ok id := by
  have hnumber : Read.ofText key.number = .ok (.unsigned id, true) := congrArg Read.ofText h
  have hid : (Found.number (.unsigned id)).toUInt64 = .ok id := toUInt64_ofUInt64 id
  simp only [idOfKey, hnumber, hid, bind, Except.bind]
  rfl

/-- The name of a cell spells its number and nothing else. -/
theorem idOfKey_printed (id : HeapId) : idOfKey (.printed (idName id)) = .ok id :=
  idOfKey_of_number (number_printed id)

private theorem idOfKey_ofName (id : HeapId) : idOfKey (.ofName (idName id)) = .ok id := by
  refine idOfKey_of_number ?_
  rw [Key.ofName, idName, String.toList_ofList]
  exact Key.readNumber_of_ok (Number.readsBack_unsigned id) List.isEmpty

/-- A heap comes back from a tree of its cells, however their numbers are spelled. -/
theorem ofTree_object (heap : Heap) (key : HeapId → Key) (tree : Cell → Tree)
    (hkey : ∀ id, idOfKey (key id) = .ok id) (htree : ∀ c, (tree c).toJson = .ok c.toJson) :
    ofTree (.object (heap.toList.map fun e => (key e.1, tree e.2)) .closed) = .ok heap := by
  have hcells : (Tree.object (heap.toList.map fun e => (key e.1, tree e.2)) .closed).toMembers
      (fun key t => do return (← idOfKey key, ← Cell.ofTree t)) = .ok heap.toList := by
    refine Tree.toMembers_object fun e _ => ?_
    rw [hkey, Cell.ofTree_of_toJson (htree e.2)]
    rfl
  rw [ofTree, hcells]
  exact congrArg Except.ok heap.ofList_toList

theorem ofTree_printed (heap : Heap) : ofTree heap.toJson.printed = .ok heap := by
  rw [toJson, printed, printedMembers_eq, List.map_map]
  exact ofTree_object heap (fun id => .printed (idName id)) (fun c => c.toJson.printed)
    idOfKey_printed fun c => toJson_printed c.toJson

theorem ofJson_toJson (heap : Heap) : ofJson heap.toJson = .ok heap := by
  rw [ofJson, toJson, tree, memberTrees_eq, List.map_map]
  exact ofTree_object heap (fun id => .ofName (idName id)) (fun c => c.toJson.tree)
    idOfKey_ofName fun c => toJson_tree c.toJson

end Heap
end Retrace

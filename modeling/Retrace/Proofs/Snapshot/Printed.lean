import Retrace.Proofs.Heap.Printed
import Retrace.Snapshot.Json

/-! Snapshots read back, part by part: bindings and names, frames, and the snapshot with or without
the message of an exception. -/
namespace Retrace

open Json

variable {P : Number → Prop}

/-! ### Bindings and names -/

theorem nested_bindings (hP : ∀ n, P (.unsigned n)) {bindings : SortedMap String Slot}
    (h : ∀ s ∈ bindings.values, s.Respects P) (room : Nat) :
    Nested P (room + 2) (bindingsJson bindings) :=
  .object_map fun e he => Slot.nested_toJson hP (h e.2 (List.mem_map_of_mem he)) room

private theorem bindingsOfTree_printed (bindings : SortedMap String Slot) :
    bindingsOfTree (bindingsJson bindings).printed = .ok bindings := by
  have hslots : (bindingsJson bindings).printed.toMembers
      (fun key t => do return (← Tree.keyName key, ← Slot.ofTree t)) = .ok bindings.toList := by
    refine Tree.toMembers_printed fun e _ => ?_
    have hname : Tree.keyName (.printed e.1) = .ok e.1 := rfl
    rw [hname, Slot.ofTree_printed]
    rfl
  rw [bindingsOfTree, hslots]
  exact congrArg Except.ok bindings.ofList_toList

private theorem nested_names (names : List String) (room : Nat) :
    Nested P (room + 1) (namesJson names) :=
  .array_map fun name _ => .string room name

private theorem namesOfTree_printed (names : List String) :
    namesOfTree (namesJson names).printed = .ok names :=
  Tree.toList_printed fun name _ => Tree.toText_printed name

/-! ### Frames -/

namespace Frame

private theorem nested_ids (hP : ∀ n, P (.unsigned n)) (ids : List UInt64) (room : Nat) :
    Nested P (room + 1) (.array (ids.map .ofUInt64)) :=
  .array_map fun id _ => .number room (hP id)

private theorem idsOfTree_printed (ids : List UInt64) :
    idsOfTree (Json.array (ids.map .ofUInt64)).printed = .ok ids :=
  Tree.toList_printed fun id _ => Tree.toUInt64_printed id

theorem nested_toJson (hP : ∀ n, P (.unsigned n)) {f : Frame}
    (h : ∀ s ∈ f.locals.values, s.Respects P) (room : Nat) : Nested P (room + 3) f.toJson := by
  refine .object ?_
  simp only [List.forall_mem_cons]
  exact ⟨.number _ (hP f.id), .string _ _, nested_names f.order _, nested_bindings hP h room,
    nested_ids hP f.parents _, .bool _ _, .string _ _, List.forall_mem_nil _⟩

theorem ofTree_printed (f : Frame) : ofTree f.toJson.printed = .ok f := by
  have hid := Tree.toUInt64_printed f.id
  have hname := Tree.toText_printed f.funcName
  have horder := namesOfTree_printed f.order
  have hlocals := bindingsOfTree_printed f.locals
  have hparents := idsOfTree_printed f.parents
  have hhighlighted := Tree.toBool_printed f.highlighted
  have hidentity := Tree.toText_printed f.identity
  have hfields : f.toJson.printed.recordFields "struct Frame" fields = .ok (Tree.named _) :=
    Tree.recordFields_of_fills _ (by decide) (.always hid (.always hname (.always horder
      (.always hlocals (.always hparents (.always hhighlighted (.always hidentity .nil)))))))
  simp only [ofTree, hfields, bind, Except.bind]
  rw [Field.get_of_lookup rfl hid, Field.get_of_lookup rfl hname, Field.get_of_lookup rfl horder,
    Field.get_of_lookup rfl hlocals, Field.get_of_lookup rfl hparents,
    Field.get_of_lookup rfl hhighlighted, Field.get_of_lookup rfl hidentity]
  rfl

end Frame

/-! ### Snapshots -/

theorem Event.ofTree_printed (e : Event) : ofTree (Json.string e.name).printed = .ok e := by
  cases e <;> rfl

namespace Snapshot

/-- All slots of a snapshot: of its globals, its locals and its cells. -/
def slots (s : Snapshot) : List Slot := s.bindings ++ s.heap.values.flatMap Cell.slots

theorem nested_toJson (hP : ∀ n, P (.unsigned n)) {s : Snapshot}
    (h : ∀ slot ∈ s.slots, slot.Respects P) (room : Nat) : Nested P (room + 6) s.toJson := by
  simp only [slots, bindings, List.forall_mem_append, List.mem_flatMap, forall_exists_index,
    and_imp] at h
  obtain ⟨⟨hglobals, hlocals⟩, hheap⟩ := h
  have hstack : Nested P (room + 5) (.array (s.stack.map Frame.toJson)) :=
    .array_map fun f hf =>
      Frame.nested_toJson hP (fun slot hslot => hlocals slot f hf hslot) (room + 1)
  refine .object (List.forall_mem_append.2 ⟨?_, fun m hm => ?_⟩)
  · simp only [List.forall_mem_cons]
    exact ⟨.number _ (hP _), .string _ _, .string _ _, nested_bindings hP hglobals _,
      nested_names s.order _, hstack,
      Heap.nested_toJson hP (fun c hc slot hslot => hheap slot c hc hslot) room, .string _ _,
      List.forall_mem_nil _⟩
  · obtain ⟨message, -, rfl⟩ := Option.map_eq_some_iff.1 (Option.mem_toList.1 hm)
    exact .string _ message

private theorem framesOfTree_printed (stack : List Frame) :
    framesOfTree (Json.array (stack.map Frame.toJson)).printed = .ok stack :=
  Tree.toList_printed fun f _ => f.ofTree_printed

theorem ofTree_printed (s : Snapshot) : ofTree s.toJson.printed = .ok s := by
  obtain ⟨line, event, funcName, globals, order, stack, heap, output, exception⟩ := s
  have hline := Tree.toUInt32_printed line
  have hevent := event.ofTree_printed
  have hname := Tree.toText_printed funcName
  have hglobals := bindingsOfTree_printed globals
  have horder := namesOfTree_printed order
  have hstack := framesOfTree_printed stack
  have hheap := Heap.ofTree_printed heap
  have houtput := Tree.toText_printed output
  have hlast : Fills (Tree.named
      (exception.map fun message => ("exception_msg", Json.string message)).toList)
      [.sometimes "exception_msg" exceptionOfTree] := by
    cases exception with
    | none => exact .skip rfl .nil
    | some message => exact .sometimes (Tree.optional_toText_printed message) .nil
  have hfields : (toJson ⟨line, event, funcName, globals, order, stack, heap, output,
      exception⟩).printed.recordFields "struct CanonicalStep" fields = .ok (Tree.named _) :=
    Tree.recordFields_of_fills _ (by decide) (.always hline (.always hevent (.always hname
      (.always hglobals (.always horder (.always hstack (.always hheap (.always houtput
        hlast))))))))
  simp only [ofTree, hfields, bind, Except.bind]
  rw [Field.get_of_lookup rfl hline, Field.get_of_lookup rfl hevent, Field.get_of_lookup rfl hname,
    Field.get_of_lookup rfl hglobals, Field.get_of_lookup rfl horder,
    Field.get_of_lookup rfl hstack, Field.get_of_lookup rfl hheap, Field.get_of_lookup rfl houtput]
  cases exception <;> rfl

end Snapshot
end Retrace

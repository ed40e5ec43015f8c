import Retrace.Proofs.Datum.RoundTrip
import Retrace.Proofs.Heap.Printed
import Retrace.Proofs.Scope
import Retrace.Recording.Basic
import Retrace.Snapshot.Json

/-! Snapshots as records. A recording may be made of the JSON form of snapshots: a slot is read as
the value it shows, globals as they were bound, and the rest field by field. The locals are the
exception, for a record has them under another name. -/
namespace Retrace

open Json

/-! ### Bindings -/

namespace Slot

def datum : Slot → Datum
  | .ref id => .ref id
  | .bool b => .bool b
  | .number n => .number n
  | .string s => .string s
  | .null => .null

end Slot

namespace Datum

private theorem ofJson_slot (s : Slot) : ofJson s.toJson = .ok s.datum := by
  cases s with
  | ref id =>
    rw [Slot.toJson, Slot.referenceJson, ofJson_kind_ref, toUInt64_ofUInt64]
    rfl
  | _ => rfl

private theorem ofEntries_slots (slots : Slots) :
    ofEntries (slots.map fun e => (e.1, e.2.toJson)) =
      .ok (slots.map fun e => (e.1, e.2.datum)) := by
  rw [ofEntries_eq_ok_iff, RelatedEntries, List.forall₂_map_left_iff, List.forall₂_map_right_iff,
    List.forall₂_same]
  exact fun e _ => ⟨rfl, ofJson_slot e.2⟩

end Datum

namespace Scope

def ofBindings (bindings : SortedMap String Slot) : Scope :=
  ofList (bindings.toList.map fun e => (e.1, e.2.datum))

theorem entries_ofBindings (bindings : SortedMap String Slot) :
    (ofBindings bindings).entries = bindings.toList.map fun e => (e.1, e.2.datum) := by
  refine entries_ofList_of_nodup ?_
  rw [List.map_map]
  exact bindings.nodup_keys

private theorem ofJson_bindingsJson (bindings : SortedMap String Slot) :
    ofJson (bindingsJson bindings) = .ok (ofBindings bindings) :=
  ofJson_object_of_ofEntries (Datum.ofEntries_slots bindings.toList)

end Scope

/-! ### Frames -/

def Frame.asActivation (f : Frame) : Activation where
  frameId := some f.id
  funcName := some f.funcName
  locals := none
  order := some f.order
  parents := some f.parents
  identity := some f.identity

namespace Activation

private theorem names_namesJson (order : List String) : names (namesJson order) = .ok order :=
  toList_map fun _ _ => rfl

private theorem ofJson_frame (f : Frame) : ofJson f.toJson = .ok f.asActivation := by
  have hid : optional toUInt64 (ofUInt64 f.id) = .ok (some f.id) :=
    congrArg (some <$> ·) (toUInt64_ofUInt64 f.id)
  have hname : optional toText (.string f.funcName) = .ok (some f.funcName) := rfl
  have horder : optional names (namesJson f.order) = .ok (some f.order) :=
    congrArg (some <$> ·) (names_namesJson f.order)
  have hparents : optional ids (.array (f.parents.map .ofUInt64)) = .ok (some f.parents) :=
    congrArg (some <$> ·) (toList_map fun id _ => toUInt64_ofUInt64 id)
  have hidentity : optional toText (.string f.identity) = .ok (some f.identity) := rfl
  have hfields : recordFields "struct RawFrame" "fewer elements in array" fields f.toJson =
      .ok _ :=
    recordFields_of_fills_known _ _ (by decide) (.sometimes hid (.sometimes hname (.skip rfl
      (.sometimes horder (.sometimes hparents (.sometimes hidentity .nil))))))
  simp only [ofJson, hfields, bind, Except.bind]
  rw [Field.get?_of_lookup rfl hid, Field.get?_of_lookup rfl hname,
    Field.get?_of_lookup rfl horder, Field.get?_of_lookup rfl hparents,
    Field.get?_of_lookup rfl hidentity]
  rfl

end Activation

/-! ### Snapshots -/

theorem Event.ofJson_name (e : Event) : ofJson (.string e.name) = .ok e := by
  cases e <;> rfl

def Snapshot.asRecord (s : Snapshot) : Record where
  line := some s.line
  event := some s.event
  funcName := some s.funcName
  globals := some (.ofBindings s.globals)
  order := some s.order
  stack := some (s.stack.map Frame.asActivation)
  heap := some s.heap
  output := some s.output
  exception := s.exception

private theorem Record.activations_frames (stack : List Frame) :
    activations (.array (stack.map Frame.toJson)) = .ok (stack.map Frame.asActivation) :=
  mapM_map_eq_map fun f _ => Activation.ofJson_frame f

namespace Recording

/-- A snapshot lists the fields of a record, and no others. -/
theorem readStep_snapshot (index : Nat) (s : Snapshot) :
    readStep index s.toJson = .ok s.asRecord := by
  obtain ⟨line, event, funcName, globals, order, stack, heap, output, exception⟩ := s
  have hline : optional toUInt32 (.ofNat line.toNat) = .ok (some line) :=
    congrArg (some <$> ·) (toUInt32_ofNat line)
  have hevent : optional Event.ofJson (.string event.name) = .ok (some event) :=
    congrArg (some <$> ·) event.ofJson_name
  have hname : optional toText (.string funcName) = .ok (some funcName) := rfl
  have hglobals : optional Scope.ofJson (bindingsJson globals) =
      .ok (some (.ofBindings globals)) :=
    congrArg (some <$> ·) (Scope.ofJson_bindingsJson globals)
  have horder : optional Activation.names (namesJson order) = .ok (some order) :=
    congrArg (some <$> ·) (Activation.names_namesJson order)
  have hstack : optional Record.activations (.array (stack.map Frame.toJson)) =
      .ok (some (stack.map Frame.asActivation)) :=
    congrArg (some <$> ·) (Record.activations_frames stack)
  have hheap : optional Heap.ofJson heap.toJson = .ok (some heap) :=
    congrArg (some <$> ·) heap.ofJson_toJson
  have houtput : optional toText (.string output) = .ok (some output) := rfl
  have hlast : Fills (exception.map fun message => ("exception_msg", Json.string message)).toList
      [.sometimes "exception_msg" (optional toText)] := by
    cases exception with
    | none => exact .skip rfl .nil
    | some message => exact .sometimes (a := some message) rfl .nil
  have hmembers : knownMembers Record.fields [] _ = .ok _ :=
    knownMembers_of_fills (by decide) (.sometimes hline (.sometimes hevent (.sometimes hname
      (.sometimes hglobals (.sometimes horder (.sometimes hstack (.sometimes hheap
        (.sometimes houtput hlast)))))))) (List.Sublist.refl _) fun _ _ => List.not_mem_nil
  simp only [Snapshot.toJson, List.cons_append, List.nil_append, readStep, Record.ofMembers,
    hmembers, bind, Except.bind]
  rw [Field.get?_of_lookup rfl hline, Field.get?_of_lookup rfl hevent,
    Field.get?_of_lookup rfl hname, Field.get?_of_lookup rfl hglobals,
    Field.get?_of_lookup rfl horder, Field.get?_of_lookup rfl hstack,
    Field.get?_of_lookup rfl hheap, Field.get?_of_lookup rfl houtput]
  cases exception <;> rfl

theorem readSteps_snapshots (index : Nat) (ss : List Snapshot) :
    readSteps index (ss.map Snapshot.toJson) = .ok (ss.map Snapshot.asRecord) := by
  induction ss generalizing index with
  | nil => rfl
  | cons s ss ih =>
    rw [List.map_cons, readSteps, readStep_snapshot, ih]
    rfl

end Recording
end Retrace

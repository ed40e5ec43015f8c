import Retrace.Document
import Retrace.Proofs.Snapshot.Printed

/-! Documents read back from their own text. Only doubles are in the way: a number of 64 bits and a
string always come back, and the containers of a document are never more than eight deep. -/
namespace Retrace

open Json

def Slot.double? : Slot → Option Double
  | .number (.double x) => some x
  | _ => none

theorem Slot.respects_iff {P : Number → Prop} (hunsigned : ∀ n, P (.unsigned n))
    (hnegative : ∀ n, P (.negative n)) (s : Slot) :
    s.Respects P ↔ ∀ x ∈ s.double?, P (.double x) := by
  cases s with
  | number n =>
    cases n with
    | unsigned n => exact iff_of_true (hunsigned n) nofun
    | negative n => exact iff_of_true (hnegative n) nofun
    | double x => simp [Respects, double?]
  | _ => exact iff_of_true trivial nofun

namespace Document

def doubles (d : Document) : List Double :=
  d.steps.flatMap fun s => s.slots.filterMap Slot.double?

/-- What holds of whole numbers holds of all numbers of a document if it does of its doubles. -/
theorem respects_iff {P : Number → Prop} (hunsigned : ∀ n, P (.unsigned n))
    (hnegative : ∀ n, P (.negative n)) (d : Document) :
    (∀ s ∈ d.steps, ∀ slot ∈ s.slots, slot.Respects P) ↔ ∀ x ∈ d.doubles, P (.double x) := by
  simp only [Slot.respects_iff hunsigned hnegative, doubles, List.mem_flatMap, List.mem_filterMap,
    forall_exists_index, and_imp]
  exact ⟨fun h x s hs slot hslot hx => h s hs slot hslot x hx,
    fun h s hs slot hslot x hx => h x s hs slot hslot hx⟩

private theorem readsBack_of_doubles {d : Document}
    (h : ∀ x ∈ d.doubles, (Number.double x).ReadsBack) :
    ∀ s ∈ d.steps, ∀ slot ∈ s.slots, slot.ReadsBack :=
  (respects_iff Number.readsBack_unsigned Number.readsBack_negative d).2 h

theorem nested_toJson {P : Number → Prop} (hP : ∀ n, P (.unsigned n)) {d : Document}
    (h : ∀ s ∈ d.steps, ∀ slot ∈ s.slots, slot.Respects P) (room : Nat) :
    Nested P (room + 8) d.toJson := by
  have hsteps : Nested P (room + 7) (.array (d.steps.map Snapshot.toJson)) :=
    .array_map fun s hs => Snapshot.nested_toJson hP (h s hs) room
  refine .object (List.forall_mem_append.2 ⟨List.forall_mem_append.2 ⟨?_, fun m hm => ?_⟩, ?_⟩)
  · simp only [List.forall_mem_cons]
    exact ⟨.string _ _, .string _ _, .number _ (hP _), List.forall_mem_nil _⟩
  · obtain ⟨source, -, rfl⟩ := Option.map_eq_some_iff.1 (Option.mem_toList.1 hm)
    exact .string _ source
  · exact List.forall_mem_singleton.2 hsteps

private theorem readable_toJson {d : Document} (h : ∀ s ∈ d.steps, ∀ slot ∈ s.slots, slot.ReadsBack)
    (room : Nat) : Readable (room + 8) d.toJson :=
  nested_toJson Number.readsBack_unsigned h room

private theorem stepsOfTree_printed (steps : List Snapshot) :
    stepsOfTree (Json.array (steps.map Snapshot.toJson)).printed = .ok steps :=
  Tree.toList_printed fun s _ => s.ofTree_printed

theorem ofTree_printed (d : Document) : ofTree d.toJson.printed = .ok d := by
  obtain ⟨version, generatedAt, totalSteps, source, steps⟩ := d
  have hversion := Tree.toText_printed version
  have hgenerated := Tree.toText_printed generatedAt
  have htotal := Tree.toSize_printed totalSteps
  have hsteps := stepsOfTree_printed steps
  have hlast : Fills (Tree.named
      ((source.map fun source => ("source", Json.string source)).toList ++
        [("steps", .array (steps.map Snapshot.toJson))]))
      [.sometimes "source" sourceOfTree, .always "steps" stepsOfTree] := by
    cases source with
    | none => exact .skip rfl (.always hsteps .nil)
    | some source => exact .sometimes (Tree.optional_toText_printed source) (.always hsteps .nil)
  have hfields : (toJson ⟨version, generatedAt, totalSteps, source, steps⟩).printed.recordFields
      "struct TraceDocument" fields = .ok (Tree.named _) :=
    Tree.recordFields_of_fills _ (by decide) (.always hversion (.always hgenerated
      (.always htotal hlast)))
  simp only [ofTree, hfields, bind, Except.bind]
  rw [Field.get_of_lookup rfl hversion, Field.get_of_lookup rfl hgenerated,
    Field.get_of_lookup rfl htotal]
  cases source with
  | none =>
    rw [Field.get_of_lookup rfl hsteps]
    rfl
  | some source =>
    rw [Field.get_of_lookup rfl hsteps]
    rfl

theorem fromUTF8?_toUTF8 (s : String) : String.fromUTF8? s.toUTF8 = some s :=
  dif_pos s.isValidUTF8

/-- A document whose doubles read back is read, field for field, from the bytes of its text. -/
theorem ofBytes_text {d : Document} (h : ∀ x ∈ d.doubles, (Number.double x).ReadsBack) :
    ofBytes d.text.toUTF8 = .ok d := by
  have hread : ofText d.text.toList = .ok d := by
    have hreadable : Readable Tree.maxDepth d.toJson :=
      readable_toJson (readsBack_of_doubles h) 119
    rw [ofText, text, readText_pretty rfl hreadable, ofTree_printed]
  rw [ofBytes, fromUTF8?_toUTF8]
  exact hread

/-- Two steps, the second with an exception: a cell of every shape, one of them under the greatest
number, a reference to no cell, and two doubles. -/
def sample : Document where
  version := currentVersion
  generatedAt := "2024-01-01T00:00:00+00:00"
  totalSteps := 7
  source := some "x = \"a\\b\"\n\tprint(x)"
  steps := [
    { line := 1, event := .step, funcName := "<module>"
      globals := SortedMap.ofList [("x", .ref 2), ("é", .ref 10), ("", .null)]
      order := ["x", "y"]
      stack := [
        { id := 3, funcName := "f", order := ["n"]
          locals := SortedMap.ofList [("n", .number (.double ⟨false, 0x1999999999999a <<< 1018⟩))]
          parents := [1, 2], highlighted := true, identity := "f_3" }]
      heap := SortedMap.ofList [
        (2, .list [.bool true, .number (.double ⟨true, 5 <<< 1073⟩), .ref 99]),
        (10, .mapping [("k", .number (.unsigned 0)), ("k", .string "\x01/")]),
        (11, .function "f()" "pass"),
        (18446744073709551615, .object "C" [("me", .ref 18446744073709551615)])]
      output := "1\n", exception := none },
    { line := 2, event := .raise, funcName := "f", globals := ∅, order := [], stack := [], heap := ∅
      output := "", exception := some "ZeroDivisionError" }]

theorem sample_read :
    (∀ x ∈ sample.doubles, (Number.double x).ReadsBack) ∧
      sample.doubles = [⟨false, 0x1999999999999a <<< 1018⟩, ⟨true, 5 <<< 1073⟩] ∧
      ofBytes sample.text.toUTF8 = .ok sample := by
  have hdoubles : sample.doubles = [⟨false, 0x1999999999999a <<< 1018⟩, ⟨true, 5 <<< 1073⟩] := by
    decide +kernel
  have h : ∀ x ∈ sample.doubles, (Number.double x).ReadsBack := by
    rw [hdoubles, List.forall_mem_cons, List.forall_mem_singleton]
    exact ⟨by decide +kernel, by decide +kernel⟩
  exact ⟨h, hdoubles, ofBytes_text h⟩

end Document
end Retrace

import Retrace.Proofs.Memory.Known
import Retrace.Proofs.Memory.Merging
import Retrace.Proofs.Memory.Numbering

/-! Encoding what has been encoded. After values from JSON have been encoded into an empty memory, it
knows all that is inside them too, though the parts of a known value are passed over; and each cell
refers to the parts of its value as encoding them once more would. -/
namespace Retrace.Memory

open Datum Interner

variable {ds : List Datum}

private theorem decoded_of_mem_visits (hdecoded : ∀ d ∈ ds, d.Decoded) :
    ∀ p ∈ ds.flatMap visits, p.Decoded := by
  intro p hp
  obtain ⟨d, hd, hp⟩ := List.mem_flatMap.1 hp
  exact (hdecoded d hd).of_mem_visits hp

theorem encodeItems_empty_numbers (hdecoded : ∀ d ∈ ds, d.Decoded) :
    Numbers {p | p ∈ ds.flatMap visits} ∅ (ds.flatMap keys)
      ((∅ : Memory).encodeItems ds).2.interner :=
  (encodeItems_numbers (decoded_of_mem_visits hdecoded) (fun d _ => avoids_empty d)
    (fun d hd _ hp => List.mem_flatMap.2 ⟨d, hd, hp⟩) stored_empty (numbers_empty _)).1

theorem stored_encodeItems (ds : List Datum) : Stored ∅ ((∅ : Memory).encodeItems ds).2 :=
  (encodeItems_grows ds stored_empty).2

/-- All values that were met on the way are known. -/
theorem knows_of_mem_visits (hdecoded : ∀ d ∈ ds, d.Decoded) {v : Datum}
    (hv : v ∈ ds.flatMap visits) (hcomp : v.isComposite = true) :
    ∃ id, Knows ((∅ : Memory).encodeItems ds).2 v (.ref id) := by
  obtain ⟨d, hd, hv⟩ := List.mem_flatMap.1 hv
  have hkey : v.key ∈ ds.flatMap keys :=
    List.mem_flatMap.2 ⟨d, hd, List.mem_map_of_mem (List.mem_filter.2 ⟨hv, hcomp⟩)⟩
  have hfind := ((encodeItems_empty_numbers hdecoded).find?_iff v.key _).2 ⟨hkey, rfl⟩
  have hmem := mem_table_of_find? hfind
  exact ⟨_, .cell hcomp hmem ((stored_encodeItems ds).cell _ hmem (Set.notMem_empty _))⟩

/-- The parts of values with one key are known by the same slots, but for numbers. -/
theorem knows_parts_of_key_eq {m : Memory} {d e : Datum} (hd : d.Decoded) (he : e.Decoded)
    (hdc : d.isComposite = true) (hec : e.isComposite = true) (hkey : d.key = e.key)
    {slots : List Slot} (h : List.Forall₂ (Knows m) d.parts slots) :
    List.Forall₂ (fun p s => p.isComposite = true → Knows m p s) e.parts slots := by
  have halike := alike_parts_of_key_eq hd he hdc hec hkey
  generalize d.parts = ps, e.parts = qs at h halike
  induction halike generalizing slots with
  | nil => cases h; exact .nil
  | cons hpq _ ih =>
    cases h with
    | cons hs h =>
      refine .cons (fun hcomp => ?_) (ih h)
      exact hs.of_key_eq (hpq.isComposite_eq ▸ hcomp) hcomp hpq.key_eq

/-- Whatever values from JSON have been encoded into an empty memory: to encode a composite value from
among them, or from inside them, once more changes nothing. As long as numbers last, its cell holds
for each composite part of it the reference that this part is encoded as; and there are no cells but
those of such values. -/
theorem encode_again (hdecoded : ∀ d ∈ ds, d.Decoded) :
    let m := ((∅ : Memory).encodeItems ds).2
    (∀ w ∈ ds.flatMap visits, w.isComposite = true → ∃ id, m.encode w = (.ref id, m) ∧
      (m.interner.next < UInt64.size → ∃ c, m.heap.get? id = some c ∧
        List.Forall₂ (fun v s => v.isComposite = true → m.encode v = (s, m)) w.parts c.slots)) ∧
    ∀ id c, m.heap.get? id = some c → ∃ w ∈ ds.flatMap visits, m.encode w = (.ref id, m) ∧
      List.Forall₂ (fun v s => m.encode v = (s, m)) w.parts c.slots := by
  intro m
  have hrecorded := encodeItems_empty_recorded ds
  have hkeys := hrecorded.keys_nodup
  constructor
  · intro w hw hcomp
    obtain ⟨id, hid⟩ := knows_of_mem_visits hdecoded hw hcomp
    refine ⟨id, hid.encode_eq hkeys, fun hnext => ?_⟩
    have hdistinct := (encodeItems_extends ∅ ds).distinct hnext distinct_empty
    obtain ⟨e, he, hecomp, hkey, slots, hslots, hcell⟩ := hrecorded.exists_cell hdistinct hcomp hid
    refine ⟨_, hcell, ?_⟩
    rw [slots_cell hslots.length_eq.symm]
    have hdecoded' := decoded_of_mem_visits hdecoded
    have hparts := knows_parts_of_key_eq (hdecoded' e he) (hdecoded' w hw) hecomp hcomp hkey hslots
    exact hparts.imp fun v s hv hvcomp => (hv hvcomp).encode_eq hkeys
  · intro id c hc
    obtain ⟨w, hw, hcomp, hid, slots, hslots, rfl⟩ := hrecorded.cell id c hc
    have hknows : Knows m w (.ref id) := .cell hcomp hid ((SortedMap.contains_iff _ _).2 ⟨_, hc⟩)
    refine ⟨w, hw, hknows.encode_eq hkeys, ?_⟩
    rw [slots_cell hslots.length_eq.symm]
    exact hslots.imp fun v s hv => hv.encode_eq hkeys

/-- A list inside a mapping, inside an instance in another list, and by itself; and two callables. -/
def intertwined : List Datum :=
  let inner := Datum.list [.number (.unsigned 7)]
  [.mapping [("a", inner), ("f", .function "f" "x => x")],
    .list [.object "P" [("b", inner)], .function "g" ""], inner]

theorem decoded_intertwined : ∀ d ∈ intertwined, d.Decoded := by
  have hread : ∀ d ∈ intertwined, ofJson d.toJson.settle = .ok d := by
    simp only [intertwined, List.forall_mem_cons]
    exact ⟨rfl, rfl, rfl, List.forall_mem_nil _⟩
  exact fun d hd => ⟨_, hread d hd⟩

/-- The instance once more: it is inside a list, and the list inside it was known before it. -/
theorem intertwined_again :
    let m := ((∅ : Memory).encodeItems intertwined).2
    let w := Datum.object "P" [("b", .list [.number (.unsigned 7)])]
    (∀ d ∈ intertwined, d.Decoded) ∧ w ∈ intertwined.flatMap visits ∧
      w.isComposite = true ∧ m.interner.next < UInt64.size ∧
      ∃ id c, m.encode w = (.ref id, m) ∧ m.heap.get? id = some c ∧
        List.Forall₂ (fun v s => v.isComposite = true → m.encode v = (s, m)) w.parts c.slots
    := by
  intro m w
  have hw : w ∈ intertwined.flatMap visits := by
    simp [w, intertwined, visits, visitItems, visitEntries]
  have hnext : m.interner.next < UInt64.size := by decide
  obtain ⟨id, hid, hcell⟩ := (encode_again decoded_intertwined).1 w hw rfl
  obtain ⟨c, hc, hslots⟩ := hcell hnext
  exact ⟨decoded_intertwined, hw, rfl, hnext, id, c, hid, hc, hslots⟩

end Retrace.Memory

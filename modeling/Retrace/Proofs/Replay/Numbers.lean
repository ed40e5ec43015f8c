import Retrace.Proofs.Replay.Run
import Retrace.Proofs.Snapshot.Printed

/-! The numbers in snapshots. A replay shows no others than those of the values that its records bind
and of the cells that they bring along. -/
namespace Retrace

variable {P : Number → Prop}

/-! ### Numbers of values and of cells -/

namespace Datum

def Respects (P : Number → Prop) (d : Datum) : Prop := ∀ n, .number n ∈ d.visits → P n

theorem Respects.part {d p : Datum} (h : d.Respects P) (hp : p ∈ d.parts) : p.Respects P :=
  fun n hn => h n (mem_visits_of_part hp hn)

theorem Respects.slot {d : Datum} (h : d.Respects P) : d.slot.Respects P := by
  cases d with
  | number n => exact h n (mem_visits_self _)
  | _ => trivial

end Datum

def Cell.Respects (P : Number → Prop) (c : Cell) : Prop := ∀ s ∈ c.slots, s.Respects P

namespace Heap

def Respects (P : Number → Prop) (heap : Heap) : Prop :=
  ∀ id c, heap.get? id = some c → c.Respects P

theorem respects_empty : Respects P ∅ := fun _ _ h => nomatch h

theorem Respects.insert {heap : Heap} (h : Respects P heap) (id : HeapId) {c : Cell}
    (hc : c.Respects P) : Respects P (heap.insert id c) := by
  intro k c' hk
  rw [SortedMap.get?_insert] at hk
  split at hk
  · cases hk
    exact hc
  · exact h k c' hk

theorem Respects.overlay {heap supplied : Heap} (h : Respects P heap)
    (hsupplied : Respects P supplied) : Respects P (heap.overlay supplied) := by
  intro id c hc
  rw [SortedMap.get?_overlay, Option.or_eq_some_iff] at hc
  rcases hc with hc | ⟨-, hc⟩
  · exact hsupplied id c hc
  · exact h id c hc

end Heap

/-! ### Encoding -/

namespace Memory

variable {m : Memory} {d : Datum}

private theorem Knows.respects {s : Slot} (h : Knows m d s) (hd : d.Respects P) : s.Respects P := by
  cases h with
  | atom _ => exact hd.slot
  | cell _ _ _ => trivial

/-- A new cell has the numbers of the parts of its value. -/
theorem encode_respects (hd : d.Respects P) (h : Heap.Respects P m.heap) :
    Heap.Respects P (m.encode d).2.heap := by
  induction d using Datum.partsInduction generalizing m with
  | step d ih =>
    cases hcomp : d.isComposite with
    | false => rw [encode_of_atom m hcomp]; exact h
    | true =>
      obtain ⟨id, -, -, heq⟩ | ⟨id, m', hm', heq⟩ := encode_cases m hcomp
      · rw [heq]
        exact h
      · rw [heq]
        have hheap : Heap.Respects P (m'.encodeItems d.parts).2.heap :=
          encodeItems_keeps (I := fun m => Heap.Respects P m.heap)
            (fun p hp _ => ih p hp (hd.part hp)) (hm'.heap_eq ▸ h)
        refine hheap.insert id fun s hs => ?_
        rw [Datum.slots_cell (length_encodeItems _ _)] at hs
        obtain ⟨p, hp, hknows⟩ := exists_of_mem_right (encodeItems_knows m' d.parts) hs
        exact hknows.respects (hd.part hp)

private theorem encodeItems_respects {ds : List Datum} (hds : ∀ d ∈ ds, d.Respects P)
    (h : Heap.Respects P m.heap) : Heap.Respects P (m.encodeItems ds).2.heap :=
  encodeItems_keeps (I := fun m => Heap.Respects P m.heap)
    (fun d hd _ => encode_respects (hds d hd)) h

end Memory

/-! ### Records -/

/-- A record all of whose numbers have a property, those in the supplied cells included. -/
structure Record.Respects (P : Number → Prop) (r : Record) : Prop where
  data : ∀ d ∈ r.data, d.Respects P
  supplied : Heap.Respects P r.supplied

namespace Snapshot

private theorem ofRecord_respects {m : Memory} (h : Heap.Respects P m.heap) {r : Record}
    (hr : r.Respects P) : Heap.Respects P (ofRecord m r).2.heap := by
  rw [ofRecord_memory, arrive_eq]
  exact Memory.encodeItems_respects hr.data (h.overlay hr.supplied)

private theorem slots_respects {m : Memory} (h : Heap.Respects P m.heap) {r : Record}
    (hr : r.Respects P) : ∀ s ∈ (ofRecord m r).1.slots, s.Respects P := by
  intro s hs
  rcases List.mem_append.1 hs with hs | hs
  · obtain ⟨d, hd, hknows⟩ := (ofRecord_shows_known m r).exists_value hs
    exact hknows.respects (hr.data d hd)
  · obtain ⟨c, hc, hs⟩ := List.mem_flatMap.1 hs
    obtain ⟨id, hid⟩ := (SortedMap.mem_values_iff _ _).1 hc
    exact ofRecord_respects h hr id c hid s hs

end Snapshot

/-- What holds of all numbers in the records holds of all numbers in their snapshots. -/
theorem Recording.snapshots_respects {m : Memory} (h : Heap.Respects P m.heap)
    {records : List Record} (hrecords : ∀ r ∈ records, r.Respects P) :
    ∀ snapshot ∈ snapshots m records, ∀ s ∈ snapshot.slots, s.Respects P := by
  induction records generalizing m with
  | nil => exact List.forall_mem_nil _
  | cons r rest ih =>
    rw [List.forall_mem_cons] at hrecords
    rw [snapshots, List.forall_mem_cons]
    exact ⟨Snapshot.slots_respects h hrecords.1,
      ih (Snapshot.ofRecord_respects h hrecords.1) hrecords.2⟩

end Retrace

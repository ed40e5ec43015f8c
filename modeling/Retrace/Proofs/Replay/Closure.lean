import Retrace.Proofs.Replay.Run
import Retrace.Proofs.Snapshot.Search

/-! Only references that were recorded as such can dangle. The remembered cells of sound memory are
all there and point at remembered cells, so what is encoded never leads out of the heap. -/
namespace Retrace

namespace Memory

variable {data : Set Datum} {m : Memory}

/-- A slot that is a reference comes from a recorded reference or is a remembered number. -/
theorem Stands.mem_known {i : Interner} {d : Datum} {id : HeapId} (h : Stands i.table d (.ref id))
    (hd : d ≠ .ref id) : id ∈ i.known := by
  cases h with
  | cell _ hid => exact List.mem_map_of_mem hid
  | atom hatom hslot =>
    cases d with
    | ref id' =>
      cases Slot.eq_of_same hslot rfl
      exact absurd rfl hd
    | number n => cases hslot
    | list _ | mapping _ | function _ _ | object _ _ => cases hatom
    | _ => cases Slot.eq_of_same hslot rfl

/-- Without recorded references the remembered cells are closed. -/
theorem Sound.closed_known (h : Sound data ∅ m) (hparts : ∀ d ∈ data, ∀ id, .ref id ∉ d.parts) :
    Closed m.heap {id | id ∈ m.interner.known} := by
  intro id hid
  obtain ⟨e, he, rfl⟩ := List.mem_map.1 hid
  obtain ⟨d, hd, -, -, slots, hslots, hcell⟩ := h.built e he (Set.notMem_empty _)
  refine ⟨_, hcell, fun target htarget => ?_⟩
  rw [Cell.references, Datum.slots_cell hslots.length_eq.symm] at htarget
  obtain ⟨slot, hslot, htarget⟩ := List.mem_filterMap.1 htarget
  cases slot with
  | ref k =>
    cases htarget
    obtain ⟨p, hp, hs⟩ := exists_of_mem_right hslots hslot
    exact hs.mem_known fun heq => hparts d hd target (heq ▸ hp)
  | _ => cases htarget

end Memory

namespace Recording

variable {records : List Record}

/-- No reference dangles in the snapshot of a record without recorded references. -/
theorem ofRecord_dangling (hrefs : ∀ id, .ref id ∉ values records) {m : Memory}
    (h : Memory.Sound (values records) ∅ m) {r : Record} (hr : r ∈ records)
    (hnext : (Snapshot.ofRecord m r).2.interner.next < UInt64.size) :
    (Snapshot.ofRecord m r).1.dangling? = none := by
  obtain ⟨hsound, hshows⟩ :=
    Memory.ofRecord_sound h (fun d hd p hp => ⟨r, hr, d, hd, hp⟩) hnext
  refine (Snapshot.dangling?_eq_none_iff _).2 ⟨_, hsound.closed_known fun d hd id hid => ?_, ?_⟩
  · exact hrefs id (mem_values_of_mem_parts hd hid)
  · intro id hid
    obtain ⟨d, hd, hs⟩ := hshows.exists_value hid
    exact hs.mem_known fun heq => hrefs id (heq ▸ mem_values_of_mem_data hr hd)

/-- A recording that binds no references is accepted, whatever cells come along. -/
theorem replay_of_no_references (hrefs : ∀ id, .ref id ∉ values records)
    (hrange : InRange records) : replay none records = .ok (snapshots ∅ records) := by
  refine replay_of_no_dangling fun s hs => ?_
  obtain ⟨k, hk⟩ := List.mem_iff_getElem?.1 hs
  rw [getElem?_snapshots] at hk
  obtain ⟨r, hr, rfl⟩ := Option.map_eq_some_iff.1 hk
  exact ofRecord_dangling hrefs (sound_before (Set.Subset.refl _) hrange k)
    (List.mem_of_getElem? hr) (hrange.next_lt hr)

/-- A list gets the number 1, and is bound again when a cell that points nowhere takes this
number. -/
def detached : List Record :=
  let list := Datum.list [.bool true]
  [{ Record.blank with globals := some (Scope.ofList [("a", list)]) },
    { Record.blank with
      globals := some (Scope.ofList [("a", list)])
      heap := some (SortedMap.ofList [(1, .list [.ref 9])]) }]

theorem detached_accepted : (∀ id, .ref id ∉ values detached) ∧ InRange detached ∧
    replay none detached = .ok (snapshots ∅ detached) := by
  have hvalues : (detached.flatMap fun r => r.data.flatMap Datum.visits) =
      [.list [.bool true], .bool true, .list [.bool true], .bool true] := rfl
  have hrefs : ∀ id, .ref id ∉ values detached := by
    intro id h
    rw [mem_values_iff, hvalues] at h
    simp at h
  have hrange : InRange detached := by decide
  exact ⟨hrefs, hrange, replay_of_no_references hrefs hrange⟩

end Recording
end Retrace

import Mathlib.Data.List.Sort
import Retrace.Proofs.Memory.Numbering
import Retrace.Proofs.Recording.Origins

/-! The numbers in a recording that brings no cells along. They count the keys of all composite values
in the order in which a full visit first meets them, with no gap: nothing else decides them. -/
namespace Retrace

namespace Recording

/-- The composite values that records bind, with all composite values inside them: record by record,
the globals as they were bound, then each call from the outermost on, each value in front of its
parts. -/
def composites (records : List Record) : List Datum :=
  (records.flatMap fun r => r.data.flatMap Datum.visits).filter Datum.isComposite

def keys (records : List Record) : List String := (composites records).map Datum.key

theorem keys_append (rs rs' : List Record) : keys (rs ++ rs') = keys rs ++ keys rs' := by
  simp [keys, composites]

theorem keys_singleton (r : Record) : keys [r] = r.data.flatMap Datum.keys := by
  rw [keys, composites, List.flatMap_singleton, Datum.keys_flatMap]

private theorem keys_take_succ {records : List Record} {k : Nat} {r : Record}
    (h : records[k]? = some r) :
    keys (records.take (k + 1)) = keys (records.take k) ++ r.data.flatMap Datum.keys := by
  rw [List.take_add_one, h, Option.toList_some, keys_append, keys_singleton]

end Recording

/-- A snapshot whose cells have the numbers from one on, as many as there are keys, and whose
composite values refer to the ranks of their keys. Numbers are words; they are exact as long as the
keys are fewer than the words. -/
structure Snapshot.Numbered (keys : List String) (r : Record) (s : Snapshot) : Prop where
  contains_iff : ∀ id, s.heap.contains id = true ↔
    ∃ n, 1 ≤ n ∧ n ≤ keys.eraseDups.length ∧ id = n.toUInt64
  ids_eq : keys.eraseDups.length < UInt64.size →
    s.heap.keys.map UInt64.toNat = List.range' 1 keys.eraseDups.length
  shows : s.Shows (fun d slot => d.isComposite = true → slot = .ref (rank keys d.key).toUInt64) r

namespace Memory

open Interner

variable {data : Set Datum} {m : Memory} {r : Record}

private theorem merge_empty (m : Memory) : m.merge ∅ = m := rfl

private theorem arrive_of_no_cells (m : Memory) (h : r.supplied = ∅) : Snapshot.arrive m r = m := by
  rw [Snapshot.arrive_eq, h, merge_empty]

/-- A record that brings no cells along meets the keys of its values. -/
theorem ofRecord_numbers (hdecoded : ∀ d ∈ data, d.Decoded)
    (hdata : ∀ d ∈ r.data, ∀ p ∈ d.visits, p ∈ data) (hnone : r.supplied = ∅)
    (hm : Stored ∅ m) {keys : List String} (h : Numbers data ∅ keys m.interner) :
    Numbers data ∅ (keys ++ r.data.flatMap Datum.keys) (Snapshot.ofRecord m r).2.interner ∧
      (Snapshot.ofRecord m r).1.Shows (Ranked (keys ++ r.data.flatMap Datum.keys)) r := by
  obtain ⟨hnumbers, hslots⟩ :=
    encodeItems_numbers hdecoded (fun d _ => avoids_empty d) hdata hm h
  rw [Snapshot.ofRecord_memory, arrive_of_no_cells m hnone]
  refine ⟨hnumbers, Snapshot.ofRecord_shows ?_⟩
  rw [arrive_of_no_cells m hnone]
  exact hslots

/-- What has grown from nothing holds the cells of the numbers given out, and no others. -/
theorem Grows.contains_iff (h : Grows ∅ ∅ m) (hm : Stored ∅ m) (id : HeapId) :
    m.heap.contains id = true ↔ ∃ n, 1 ≤ n ∧ n < m.interner.next ∧ id = n.toUInt64 := by
  constructor
  · intro hid
    by_contra hnot
    rw [SortedMap.contains, h.get?_eq hnot] at hid
    cases hid
  · intro hissued
    obtain ⟨e, he, rfl⟩ := List.mem_map.1 (h.known id hissued)
    exact hm.cell e he (Set.notMem_empty _)

end Memory

namespace Recording

open Memory Interner

variable {records : List Record} {k : Nat}

/-- Memory before a record has grown from nothing, and has met all keys up to there. -/
theorem before_numbers (hdecoded : ∀ d ∈ values records, d.Decoded)
    (hnone : ∀ r ∈ records, r.supplied = ∅) (hk : k ≤ records.length) :
    Grows ∅ ∅ (before records k) ∧
      Numbers (values records) ∅ (keys (records.take k)) (before records k).interner := by
  induction k with
  | zero => exact ⟨.refl ∅ ∅, numbers_empty _⟩
  | succ k ih =>
    have hr : records[k]? = some records[k] := List.getElem?_eq_getElem hk
    have hmem : records[k] ∈ records := List.getElem_mem hk
    obtain ⟨hgrows, hnumbers⟩ := ih (Nat.le_of_lt hk)
    have hstored := stored_before records k
    have hstep := (ofRecord_grows hstored records[k]).1
    rw [arrive_of_no_cells _ (hnone _ hmem)] at hstep
    rw [before_succ hr, keys_take_succ hr]
    exact ⟨hgrows.trans hstep, (ofRecord_numbers hdecoded
      (fun d hd p hp => ⟨_, hmem, d, hd, hp⟩) (hnone _ hmem) hstored hnumbers).1⟩

private theorem ids_eq_of_contains_iff {heap : Heap} {n : Nat} (hn : n < UInt64.size)
    (h : ∀ id, heap.contains id = true ↔ ∃ m, 1 ≤ m ∧ m ≤ n ∧ id = m.toUInt64) :
    heap.keys.map UInt64.toNat = List.range' 1 n := by
  have hascending : (heap.keys.map UInt64.toNat).Pairwise (· < ·) := by
    rw [List.pairwise_map]
    exact heap.ascending_keys.imp fun hlt => UInt64.lt_iff_toNat_lt.1 hlt
  refine hascending.eq_of_mem_iff List.pairwise_lt_range' fun k => ?_
  rw [List.mem_map, List.mem_range'_1]
  constructor
  · rintro ⟨id, hid, rfl⟩
    obtain ⟨m, hm, hle, rfl⟩ := (h id).1 ((SortedMap.mem_keys_iff _ _).1 hid)
    rw [Nat.toUInt64, UInt64.toNat_ofNat_of_lt' (Nat.lt_of_le_of_lt hle hn)]
    omega
  · rintro ⟨hk, hlt⟩
    refine ⟨k.toUInt64, (SortedMap.mem_keys_iff _ _).2 ((h _).2 ⟨k, hk, by omega, rfl⟩), ?_⟩
    exact UInt64.toNat_ofNat_of_lt' (by omega)

/-- An accepted replay of a recording that was read and brings no cells along: each snapshot is
numbered by the keys of all composite values up to there. What is read from a text is settled. -/
theorem replay_numbered {v : Json} {recording : Recording} {limit : Option Nat}
    {ss : List Snapshot} (hread : ofJson v.settle = .ok recording)
    (hnone : ∀ r ∈ recording.records, r.supplied = ∅)
    (hreplay : replay limit recording.records = .ok ss) {r : Record}
    (hr : recording.records[k]? = some r) :
    ∃ s, ss[k]? = some s ∧ s.Numbered (keys (recording.records.take (k + 1))) r := by
  obtain rfl := (eq_snapshots_of_replay hreplay).1
  have hmem := List.mem_of_getElem? hr
  have hlt : k < recording.records.length := (List.getElem?_eq_some_iff.1 hr).1
  have hdecoded := decoded_of_ofJson hread
  have hstored := stored_before recording.records k
  obtain ⟨-, hbefore⟩ := before_numbers hdecoded hnone (Nat.le_of_lt hlt)
  have hshows := (ofRecord_numbers hdecoded (fun d hd p hp => ⟨r, hmem, d, hd, hp⟩)
    (hnone r hmem) hstored hbefore).2
  obtain ⟨hgrows, hafter⟩ := before_numbers (k := k + 1) hdecoded hnone hlt
  have hcontains := hgrows.contains_iff (stored_before recording.records (k + 1))
  simp only [hafter.next_eq, Nat.lt_succ_iff] at hcontains
  rw [before_succ hr, ← Snapshot.ofRecord_heap] at hcontains
  rw [← keys_take_succ hr] at hshows
  refine ⟨_, by rw [getElem?_snapshots, hr]; rfl, ?_⟩
  exact ⟨hcontains, fun hn => ids_eq_of_contains_iff hn hcontains, hshows⟩

/-- A mapping with a list and a callable, and the list again: beside it, inside another list, and in a
call behind an empty mapping. -/
def nested : Json :=
  let list := Json.array [.number (.unsigned 7)]
  let callable := Json.object [("$function", .object [("name", .string "f")])]
  .array
    [.object [("globals", .object [("a", .object [("x", list), ("f", callable)]), ("b", list)])],
      .object
        [("globals", .object [("a", .array [list, callable])]),
          ("stack_to_render", .array [.object
            [("locals", .object [("x", list), ("y", .object [])]),
              ("ordered_varnames", .array [.string "y", .string "x"])]])]]

def nestedRecords : List Record :=
  let list := Datum.list [.number (.unsigned 7)]
  let callable := Datum.function "f" ""
  [{ Record.blank with
      globals := some (Scope.ofList [("a", .mapping [("x", list), ("f", callable)]), ("b", list)]) },
    { Record.blank with
      globals := some (Scope.ofList [("a", .list [list, callable])])
      stack := some [⟨none, none, some (Scope.ofList [("x", list), ("y", .mapping [])]),
        some ["y", "x"], none, none⟩] }]

theorem nested_numbered : ∃ ss r s, ofJson nested.settle = .ok ⟨none, nestedRecords⟩ ∧
    (∀ r ∈ nestedRecords, r.supplied = ∅) ∧ replay none nestedRecords = .ok ss ∧
    nestedRecords[1]? = some r ∧ ss[1]? = some s ∧ (keys nestedRecords).eraseDups.length = 5 ∧
    s.Numbered (keys nestedRecords) r := by
  have hread : ofJson nested.settle = .ok ⟨none, nestedRecords⟩ := rfl
  have hnone : ∀ r ∈ nestedRecords, r.supplied = ∅ := by decide
  have hreplay : replay none nestedRecords = .ok (snapshots ∅ nestedRecords) :=
    replay_of_no_dangling (by decide)
  obtain ⟨s, hs, hnumbered⟩ := replay_numbered (k := 1) hread hnone hreplay rfl
  exact ⟨_, _, s, hread, hnone, hreplay, rfl, hs, by decide, hnumbered⟩

end Recording
end Retrace

import Retrace.Proofs.Replay.Run

/-! The heaps of successive snapshots. Each starts from the one before, takes over what its record
brings along, and beyond that gains only cells with greater numbers than all of these. -/
namespace Retrace

/-- A heap over an earlier one and supplied cells: the supplied cells stand verbatim, the earlier
ones stay where none is supplied, and all others have greater numbers than both. -/
structure Accumulates (earlier supplied heap : Heap) : Prop where
  supplied_stands : ∀ {id cell}, supplied.get? id = some cell → heap.get? id = some cell
  earlier_stays : ∀ {id cell}, supplied.contains id = false → earlier.get? id = some cell →
    heap.get? id = some cell
  fresh_above : ∀ {id old}, heap.contains id = true → earlier.contains id = false →
    supplied.contains id = false → earlier.contains old = true ∨ supplied.contains old = true →
      old < id

theorem Accumulates.contains {earlier supplied heap : Heap}
    (h : Accumulates earlier supplied heap) {id : HeapId} (hid : earlier.contains id = true) :
    heap.contains id = true := by
  obtain ⟨old, hold⟩ := (SortedMap.contains_iff _ _).1 hid
  cases hsupplied : supplied.contains id with
  | false => exact (SortedMap.contains_iff _ _).2 ⟨old, h.earlier_stays hsupplied hold⟩
  | true =>
    obtain ⟨new, hnew⟩ := (SortedMap.contains_iff _ _).1 hsupplied
    exact (SortedMap.contains_iff _ _).2 ⟨new, h.supplied_stands hnew⟩

namespace Memory

private theorem ofRecord_accumulates {data : Set Datum} {m : Memory} (h : Sound data ∅ m)
    {r : Record} (hnext : (Snapshot.ofRecord m r).2.interner.next < UInt64.size) :
    Accumulates m.heap r.supplied (Snapshot.ofRecord m r).1.heap := by
  have hgrows := (ofRecord_grows h.stored r).1
  have harrive := h.merge r.supplied
  rw [Snapshot.ofRecord_heap]
  rw [Snapshot.arrive_eq] at hgrows
  -- what stands on the heap after the merge stays while the values are encoded
  have hkeep {id : HeapId} {cell : Cell} (hcell : (m.merge r.supplied).heap.get? id = some cell) :
      (Snapshot.ofRecord m r).2.heap.get? id = some cell := by
    have hid := (SortedMap.contains_iff _ _).2 ⟨cell, hcell⟩
    rw [hgrows.get?_eq (harrive.not_issued hnext hid), hcell]
  refine ⟨fun hcell => hkeep ?_, fun hnot hcell => hkeep ?_, fun {id old} hid hnot hnot' hold => ?_⟩
  · rw [get?_merge, hcell]
    rfl
  · rw [get?_merge, (SortedMap.not_contains_iff _ _).1 hnot, hcell]
    rfl
  · have hissued : Issued (m.merge r.supplied) (Snapshot.ofRecord m r).2 id := by
      by_contra hnone
      rw [SortedMap.contains, hgrows.get?_eq hnone, ← SortedMap.contains, contains_merge] at hid
      simp [hnot, hnot'] at hid
    exact harrive.lt_of_issued hnext hissued ((contains_merge _ _ _).2 hold.symm)

end Memory

namespace Recording

/-- The heap in front of a snapshot: that of the one before, and none in front of the first. -/
def heapBefore (ss : List Snapshot) : Nat → Heap
  | 0 => ∅
  | k + 1 => (ss[k]?.map Snapshot.heap).getD ∅

/-- Snapshots, one for each record, whose heaps accumulate. -/
structure Cumulative (records : List Record) (ss : List Snapshot) : Prop where
  length_eq : ss.length = records.length
  accumulates : ∀ {k : Nat} {r : Record} {s : Snapshot}, records[k]? = some r →
    ss[k]? = some s → Accumulates (heapBefore ss k) r.supplied s.heap

/-- Snapshots whose cells last: none disappears, one changes only where another of its number is
supplied, and a supplied cell stays until then. -/
structure Persistent (records : List Record) (ss : List Snapshot) : Prop where
  contains_later : ∀ {j k : Nat} {s t : Snapshot} {id : HeapId}, j ≤ k → ss[j]? = some s →
    ss[k]? = some t → s.heap.contains id = true → t.heap.contains id = true
  supplied_of_changed : ∀ {k : Nat} {s t : Snapshot} {r : Record} {id : HeapId} {cell : Cell},
    ss[k]? = some s → ss[k + 1]? = some t → records[k + 1]? = some r →
    s.heap.get? id = some cell → t.heap.get? id ≠ some cell → r.supplied.contains id = true
  supplied_later : ∀ {j k : Nat} {r : Record} {t : Snapshot} {id : HeapId} {cell : Cell}, j ≤ k →
    records[j]? = some r → ss[k]? = some t → r.supplied.get? id = some cell →
    (∀ i r', j < i → i ≤ k → records[i]? = some r' → r'.supplied.contains id = false) →
    t.heap.get? id = some cell

variable {records : List Record} {ss : List Snapshot}

namespace Cumulative

/-- One snapshot and the next. -/
theorem step (h : Cumulative records ss) {k : Nat} {t : Snapshot} (ht : ss[k + 1]? = some t) :
    ∃ s r, ss[k]? = some s ∧ records[k + 1]? = some r ∧ Accumulates s.heap r.supplied t.heap := by
  have hlt : k + 1 < ss.length := (List.getElem?_eq_some_iff.1 ht).1
  have hs : ss[k]? = some ss[k] := List.getElem?_eq_getElem (Nat.lt_of_succ_lt hlt)
  have hr := List.getElem?_eq_getElem (h.length_eq ▸ hlt)
  have hstep := h.accumulates hr ht
  rw [heapBefore, hs] at hstep
  exact ⟨_, _, hs, hr, hstep⟩

/-- A cell stays for as long as none of its number is supplied. -/
theorem get?_later (h : Cumulative records ss) {j k : Nat} (hjk : j ≤ k) {s t : Snapshot}
    (hs : ss[j]? = some s) (ht : ss[k]? = some t) {id : HeapId} {cell : Cell}
    (hcell : s.heap.get? id = some cell)
    (hnot : ∀ i r, j < i → i ≤ k → records[i]? = some r → r.supplied.contains id = false) :
    t.heap.get? id = some cell := by
  induction k, hjk using Nat.le_induction generalizing t with
  | base => cases hs.symm.trans ht; exact hcell
  | succ k hjk ih =>
    obtain ⟨u, r, hu, hr, hstep⟩ := h.step ht
    have hbefore := ih hu fun i r' hi hle => hnot i r' hi (Nat.le_succ_of_le hle)
    exact hstep.earlier_stays (hnot _ r (Nat.lt_succ_of_le hjk) (Nat.le_refl _) hr) hbefore

private theorem persistent (h : Cumulative records ss) : Persistent records ss where
  contains_later {j k s t id} hjk hs ht hid := by
    induction k, hjk using Nat.le_induction generalizing t with
    | base => cases hs.symm.trans ht; exact hid
    | succ k hjk ih =>
      obtain ⟨u, r, hu, -, hstep⟩ := h.step ht
      exact hstep.contains (ih hu)
  supplied_of_changed {k s t r id cell} hs ht hr hcell hne := by
    obtain ⟨s', r', hs', hr', hstep⟩ := h.step ht
    cases hs.symm.trans hs'
    cases hr.symm.trans hr'
    by_contra hnot
    exact hne (hstep.earlier_stays (Bool.eq_false_of_not_eq_true hnot) hcell)
  supplied_later {j k r t id cell} hjk hr ht hcell hnot := by
    have hlt : j < ss.length := Nat.lt_of_le_of_lt hjk (List.getElem?_eq_some_iff.1 ht).1
    have hs := List.getElem?_eq_getElem hlt
    exact h.get?_later hjk hs ht ((h.accumulates hr hs).supplied_stands hcell) hnot

end Cumulative

theorem heapBefore_snapshots (records : List Record) {k : Nat} (hk : k ≤ records.length) :
    heapBefore (snapshots ∅ records) k = (before records k).heap := by
  cases k with
  | zero => rfl
  | succ k =>
    have hr := List.getElem?_eq_getElem hk
    rw [heapBefore, getElem?_snapshots, hr, before_succ hr]
    rfl

private theorem cumulative_snapshots (hrange : InRange records) :
    Cumulative records (snapshots ∅ records) where
  length_eq := length_snapshots ∅ records
  accumulates {k r s} hr hs := by
    rw [getElem?_snapshots, hr] at hs
    cases hs
    have hk : k ≤ records.length := Nat.le_of_lt (List.getElem?_eq_some_iff.1 hr).1
    rw [heapBefore_snapshots records hk]
    exact Memory.ofRecord_accumulates (sound_before (Set.Subset.refl _) hrange k)
      (hrange.next_lt hr)

/-- The heaps of an accepted replay accumulate, and so their cells last. -/
theorem replay_cumulative {limit : Option Nat} (h : replay limit records = .ok ss)
    (hrange : InRange records) : Cumulative records ss ∧ Persistent records ss := by
  rw [(eq_snapshots_of_replay h).1]
  have hcumulative := cumulative_snapshots hrange
  exact ⟨hcumulative, hcumulative.persistent⟩

/-- A list gets the number 1. Then a cell comes along under this number, and the list is bound
again. -/
def overwriting : List Record :=
  let list := Datum.list [.bool true]
  [{ Record.blank with globals := some (Scope.ofList [("a", list)]) },
    { Record.blank with
      globals := some (Scope.ofList [("a", .ref 1), ("b", list)])
      heap := some (SortedMap.ofList [(1, .list [.ref 5]), (5, .list [])]) }]

theorem overwriting_cumulative : ∃ ss, replay none overwriting = .ok ss ∧
    InRange overwriting ∧ Cumulative overwriting ss ∧ Persistent overwriting ss := by
  have hreplay : replay none overwriting = .ok (snapshots ∅ overwriting) :=
    replay_of_no_dangling (by decide)
  have hrange : InRange overwriting := by decide
  exact ⟨_, hreplay, hrange, replay_cumulative hreplay hrange⟩

end Recording
end Retrace

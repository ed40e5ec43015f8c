import Retrace.Proofs.Heap.Numbers
import Retrace.Proofs.Replay.Invalidation

/-! Numbers whose cells are replaced. Once another cell comes along under a number, no composite value
is encoded as that number again, where the two cells differ in more than the signs of zeros. -/
namespace Retrace

namespace Memory

variable {data : Set Datum} {m : Memory}

/-- A remembered number is none whose cell a merge changes. -/
theorem ne_of_mem_merge {supplied : Heap} {changed : HeapId}
    (hchanged : changed ∈ m.overwritten supplied) {e : String × HeapId}
    (he : e ∈ (m.merge supplied).interner.table) : e.2 ≠ changed := by
  rintro rfl
  exact not_leads_of_mem_merge hchanged he .refl

end Memory

namespace Cell

/-- Cells whose texts differ in more than the signs of zeros are not the same. -/
theorem not_same_of_compact_ne {old new : Cell}
    (h : old.absZero.toJson.compact ≠ new.absZero.toJson.compact) : old.same new = false := by
  refine Bool.eq_false_iff.2 fun hsame => h ?_
  rw [(same_iff old new).1 hsame]

end Cell

namespace Recording

variable {records : List Record} {k j : Nat}

/-- After a merge that changes a cell, its number is remembered for no key: those of that time are
forgotten, and later ones are above all cells. -/
theorem ne_of_mem_table (hrange : InRange records) {r : Record} (hr : records[k]? = some r)
    (hkj : k < j) (hj : j ≤ records.length) {changed : HeapId}
    (hchanged : changed ∈ (before records k).overwritten r.supplied) {e : String × HeapId}
    (he : e ∈ (before records j).interner.table) : e.2 ≠ changed := by
  rcases merged_or_above hrange hr hkj hj he with hkept | habove
  · exact Memory.ne_of_mem_merge hchanged hkept
  · have hsound (i : Nat) := sound_before (Set.Subset.refl (values records)) hrange i
    have hsupplied : r.supplied.contains changed = true :=
      (SortedMap.mem_keys_iff _ _).1 (List.mem_of_mem_filter hchanged)
    have hmerged : ((before records k).merge r.supplied).heap.contains changed = true :=
      (Memory.contains_merge _ _ _).2 (.inl hsupplied)
    have hlt : changed < e.2 := ((hsound k).merge r.supplied).lt_of_next_le (hsound j)
      (hrange.before j) he habove hmerged
    exact (UInt64.ne_of_lt hlt).symm

/-- In an accepted replay, from a step on whose supplied cells replace that of a number by one with
another text, no composite value is bound to this number, unless the texts differ in signs of zeros
only. -/
theorem replay_replaces {limit : Option Nat} {ss : List Snapshot}
    (hreplay : replay limit records = .ok ss) (hrange : InRange records) (hkj : k ≤ j)
    {r r' : Record} {s : Snapshot} (hr : records[k]? = some r) (hr' : records[j]? = some r')
    (hs : ss[j]? = some s) {id : HeapId} {old new : Cell}
    (hold : (heapBefore ss k).get? id = some old) (hnew : r.supplied.get? id = some new)
    (htexts : old.absZero.toJson.compact ≠ new.absZero.toJson.compact) {d : Datum}
    (hd : d.isComposite = true) : ¬ s.Holds r' d (.ref id) := by
  obtain rfl := (eq_snapshots_of_replay hreplay).1
  have hk : k ≤ records.length := Nat.le_of_lt (List.getElem?_eq_some_iff.1 hr).1
  have hj : j + 1 ≤ records.length := (List.getElem?_eq_some_iff.1 hr').1
  rw [heapBefore_snapshots records hk] at hold
  have hchanged : id ∈ (before records k).overwritten r.supplied :=
    Memory.mem_overwritten hold hnew (Cell.not_same_of_compact_ne htexts)
  intro hholds
  have hmem := mem_table_of_holds hrange hr' hs hd hholds
  exact ne_of_mem_table hrange hr (Nat.lt_succ_of_le hkj) hj hchanged hmem rfl

/-- A list with a zero gets the number 1. Then another list comes along under 1, and the list with the
zero is bound again, at once and in a later call. -/
def replaced (other : Number) : List Record :=
  let list := Datum.list [.number (.double ⟨false, 0⟩)]
  [{ Record.blank with globals := some (Scope.ofList [("a", list)]) },
    { Record.blank with
      globals := some (Scope.ofList [("a", list)])
      heap := some (SortedMap.ofList [(1, .list [.number other])]) },
    { Record.blank with
      stack := some [⟨none, none, some (Scope.ofList [("x", list)]), none, none, none⟩] }]

/-- The integer zero is another number than the zero with a point, so the list moves. -/
theorem integer_replaces :
    let list := Datum.list [.number (.double ⟨false, 0⟩)]
    let records := replaced (.unsigned 0)
    let ss := snapshots ∅ records
    let old := Cell.list [.number (.double ⟨false, 0⟩)]
    let new := Cell.list [.number (.unsigned 0)]
    replay none records = .ok ss ∧ InRange records ∧ ∃ r r' s, records[1]? = some r ∧
      records[2]? = some r' ∧ ss[2]? = some s ∧ (heapBefore ss 1).get? 1 = some old ∧
      r.supplied.get? 1 = some new ∧ old.absZero.toJson.compact ≠ new.absZero.toJson.compact ∧
      ¬ s.Holds r' list (.ref 1) ∧ s.Holds r' list (.ref 2) := by
  intro list records ss old new
  have hreplay : replay none records = .ok ss := replay_of_no_dangling (by decide)
  have hrange : InRange records := by decide
  have hold : (heapBefore ss 1).get? 1 = some old := rfl
  have hnew : records[1].supplied.get? 1 = some new := rfl
  have htexts : old.absZero.toJson.compact ≠ new.absZero.toJson.compact := by decide
  have hholds : ss[2].Holds records[2] list (.ref 2) :=
    @Snapshot.Holds.inCall _ _ _ _ 0 _ _ "x" rfl rfl (by decide) rfl rfl
  have hnot : ¬ ss[2].Holds records[2] list (.ref 1) :=
    replay_replaces hreplay hrange (Nat.le_succ 1) rfl rfl rfl hold hnew htexts rfl
  exact ⟨hreplay, hrange, _, _, _, rfl, rfl, rfl, hold, hnew, htexts, hnot, hholds⟩

/-- The zero below zero is written otherwise, and yet the list stays where it is. -/
theorem negative_zero_kept :
    let list := Datum.list [.number (.double ⟨false, 0⟩)]
    let records := replaced (.double ⟨true, 0⟩)
    let ss := snapshots ∅ records
    replay none records = .ok ss ∧ InRange records ∧
      ∃ r s old new, records[1]? = some r ∧ ss[1]? = some s ∧
        1 ∈ (before records 1).interner.known ∧ (heapBefore ss 1).get? 1 = some old ∧
        r.supplied.get? 1 = some new ∧ old.toJson.compact ≠ new.toJson.compact ∧
        s.Holds r list (.ref 1) := by
  intro list records ss
  have hreplay : replay none records = .ok ss := replay_of_no_dangling (by decide)
  have hholds : ss[1].Holds records[1] list (.ref 1) := @Snapshot.Holds.global _ _ _ _ "a" rfl rfl
  exact ⟨hreplay, by decide, _, _, _, _, rfl, rfl, by decide, rfl, rfl, by decide, hholds⟩

end Recording
end Retrace

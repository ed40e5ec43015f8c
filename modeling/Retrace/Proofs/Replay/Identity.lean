import Retrace.Proofs.Replay.CumulativeHeap

/-! Identity over a whole replay. A number that was given out for one key is never that of another,
even after the key has been forgotten; and a key keeps its number for as long as the cells that come
along agree with those already there. -/
namespace Retrace

namespace Memory

/-- While memory grows, an identity is an old one or has a number from the counter on. -/
theorem Grows.old_or_above {m m' : Memory} (h : Grows ∅ m m')
    (hnext : m'.interner.next < UInt64.size) {e : String × HeapId}
    (he : e ∈ m'.interner.table) :
    e ∈ m.interner.table ∨ m.interner.next ≤ e.2.toNat := by
  refine (h.table_new e he).imp_right fun hissued => ?_
  obtain ⟨n, hn, hlt, hid⟩ := hissued
  rw [hid, Nat.toUInt64, UInt64.toNat_ofNat_of_lt' (Nat.lt_trans hlt hnext)]
  exact hn

private theorem ofRecord_old_or_above {m : Memory} (h : Stored ∅ m) {r : Record}
    (hnext : (Snapshot.ofRecord m r).2.interner.next < UInt64.size) {e : String × HeapId}
    (he : e ∈ (Snapshot.ofRecord m r).2.interner.table) :
    e ∈ m.interner.table ∨ m.interner.next ≤ e.2.toNat := by
  have hgrows := (ofRecord_grows h r).1
  rw [Snapshot.arrive_eq] at hgrows
  rcases hgrows.old_or_above hnext he with hold | habove
  · rw [merge_table] at hold
    exact .inl (Interner.mem_forget_table.1 hold).1
  · exact .inr (Nat.le_trans (merge_next_le m r.supplied) habove)

/-- A record whose cells agree with the heap forgets no identity. -/
theorem ofRecord_keeps {m : Memory} (h : Stored ∅ m) {r : Record}
    (hagrees : m.heap.Agrees r.supplied) {e : String × HeapId} (he : e ∈ m.interner.table) :
    e ∈ (Snapshot.ofRecord m r).2.interner.table := by
  have hgrows := (ofRecord_grows h r).1
  rw [Snapshot.arrive_eq] at hgrows
  apply hgrows.table
  rw [merge_table_of_agrees hagrees]
  exact he

end Memory

namespace Recording

variable {records : List Record} {i j : Nat}

private theorem next_before_le (hij : i ≤ j) (hj : j ≤ records.length) :
    (before records i).interner.next ≤ (before records j).interner.next := by
  induction j, hij using Nat.le_induction with
  | base => exact Nat.le_refl _
  | succ j _ ih =>
    have hr : records[j]? = some records[j] := List.getElem?_eq_getElem hj
    rw [before_succ hr]
    exact Nat.le_trans (ih (Nat.le_of_lt hj)) (Memory.ofRecord_next_le (stored_before records j) _)

/-- An identity of later memory is one of earlier memory or has a number that was not given out by
then. -/
theorem before_old_or_above (hrange : InRange records) (hij : i ≤ j) (hj : j ≤ records.length)
    {e : String × HeapId} (he : e ∈ (before records j).interner.table) :
    e ∈ (before records i).interner.table ∨ (before records i).interner.next ≤ e.2.toNat := by
  induction j, hij using Nat.le_induction with
  | base => exact .inl he
  | succ j hij ih =>
    have hr : records[j]? = some records[j] := List.getElem?_eq_getElem hj
    rw [before_succ hr] at he
    rcases Memory.ofRecord_old_or_above (stored_before records j) (hrange.next_lt hr) he with
      hold | habove
    · exact ih (Nat.le_of_lt hj) hold
    · exact .inr (Nat.le_trans (next_before_le hij (Nat.le_of_lt hj)) habove)

/-- Identities stay through records whose cells agree with the heap. -/
theorem before_keeps (hij : i ≤ j) (hj : j ≤ records.length)
    (hagrees : ∀ k r, i ≤ k → k < j → records[k]? = some r →
      (before records k).heap.Agrees r.supplied)
    {e : String × HeapId} (he : e ∈ (before records i).interner.table) :
    e ∈ (before records j).interner.table := by
  induction j, hij using Nat.le_induction with
  | base => exact he
  | succ j hij ih =>
    have hr : records[j]? = some records[j] := List.getElem?_eq_getElem hj
    have hbefore := ih (Nat.le_of_lt hj) fun k r hk hlt => hagrees k r hk (Nat.lt_succ_of_lt hlt)
    rw [before_succ hr]
    exact Memory.ofRecord_keeps (stored_before records j)
      (hagrees j _ hij (Nat.lt_succ_self j) hr) hbefore

/-- A composite value that a snapshot shows is remembered after its record under its number. -/
theorem mem_table_of_holds (hrange : InRange records) {r : Record} {s : Snapshot}
    (hr : records[i]? = some r) (hs : (snapshots ∅ records)[i]? = some s) {d : Datum}
    (hd : d.isComposite = true) {id : HeapId} (hholds : s.Holds r d (.ref id)) :
    (d.key, id) ∈ (before records (i + 1)).interner.table := by
  have hsound := sound_before (Set.Subset.refl (values records)) hrange i
  have hshows := (Memory.ofRecord_sound hsound
    (fun d hd p hp => ⟨r, List.mem_of_getElem? hr, d, hd, hp⟩) (hrange.next_lt hr)).2
  rw [getElem?_snapshots, hr] at hs
  cases hs
  rw [before_succ hr]
  cases hshows.of_holds hholds with
  | atom hatom _ => exact absurd hd (by simp [hatom])
  | cell _ hid => exact hid

/-- Two composite values that are bound anywhere in an accepted replay have different numbers if
their keys differ, and the same number if their keys agree and no cell that came along in between
changed another. -/
theorem replay_identity {limit : Option Nat} {ss : List Snapshot}
    (hreplay : replay limit records = .ok ss) (hrange : InRange records) (hij : i ≤ j)
    {r r' : Record} {s t : Snapshot} (hr : records[i]? = some r) (hs : ss[i]? = some s)
    (hr' : records[j]? = some r') (ht : ss[j]? = some t) {d e : Datum}
    (hd : d.isComposite = true) (he : e.isComposite = true) {m n : HeapId}
    (hm : s.Holds r d (.ref m)) (hn : t.Holds r' e (.ref n)) :
    (d.key ≠ e.key → m ≠ n) ∧
      (d.key = e.key →
        (∀ k q, i < k → k ≤ j → records[k]? = some q → (heapBefore ss k).Agrees q.supplied) →
          m = n) := by
  obtain rfl := (eq_snapshots_of_replay hreplay).1
  have hj : j + 1 ≤ records.length := (List.getElem?_eq_some_iff.1 hr').1
  have hsound (k : Nat) := sound_before (Set.Subset.refl (values records)) hrange k
  have hdm := mem_table_of_holds hrange hr hs hd hm
  have hen := mem_table_of_holds hrange hr' ht he hn
  constructor
  · rintro hkeys rfl
    -- the number is below the counter after the earlier record, so the later identity is that one
    have hlt := (hsound (i + 1)).known_lt _ hdm
    rcases before_old_or_above hrange (Nat.succ_le_succ hij) hj hen with hold | habove
    · have hsame := List.inj_on_of_nodup_map (hsound (i + 1)).known_nodup hdm hold rfl
      exact hkeys (congrArg Prod.fst hsame)
    · exact absurd hlt (Nat.not_lt.2 habove)
  · intro hkeys hagrees
    have hkept := before_keeps (Nat.succ_le_succ hij) hj (fun k q hk hkj hq => by
      have hle : k ≤ records.length := Nat.le_of_lt (List.getElem?_eq_some_iff.1 hq).1
      rw [← heapBefore_snapshots records hle]
      exact hagrees k q hk (Nat.le_of_lt_succ hkj) hq) hdm
    have hsame := List.inj_on_of_nodup_map (hsound (j + 1)).distinct hkept hen hkeys
    exact congrArg Prod.snd hsame

/-- A list is bound, and bound again in a call after cells have come along: one beside that of the
list, and that of the list itself. -/
def resupplied : List Record :=
  let list := Datum.list [.bool true]
  [{ Record.blank with globals := some (Scope.ofList [("a", list)]) },
    { Record.blank with heap := some (SortedMap.ofList [(7, .list [])]) },
    { Record.blank with
      globals := some (Scope.ofList [("b", .list [list])])
      stack := some [⟨none, none, some (Scope.ofList [("x", list)]), none, none, none⟩]
      heap := some (SortedMap.ofList [(1, .list [.bool true])]) }]

theorem resupplied_identity :
    let list := Datum.list [.bool true]
    let ss := snapshots ∅ resupplied
    replay none resupplied = .ok ss ∧ InRange resupplied ∧
      ∃ r s r' t, resupplied[0]? = some r ∧ ss[0]? = some s ∧ resupplied[2]? = some r' ∧
        ss[2]? = some t ∧ ∃ m n k, s.Holds r list (.ref m) ∧ t.Holds r' list (.ref n) ∧
          t.Holds r' (.list [list]) (.ref k) ∧ m = n ∧ m ≠ k := by
  intro list ss
  have hreplay : replay none resupplied = .ok ss := replay_of_no_dangling (by decide)
  have hrange : InRange resupplied := by decide
  have hagrees : ∀ k q, 0 < k → k ≤ 2 → resupplied[k]? = some q →
      (heapBefore ss k).Agrees q.supplied := by
    intro k q hk hle hq
    obtain rfl | rfl : k = 1 ∨ k = 2 := by omega
    · cases hq
      decide
    · cases hq
      decide
  have hfirst : ss[0].Holds resupplied[0] list (.ref 1) := @Snapshot.Holds.global _ _ _ _ "a" rfl rfl
  have hlast : ss[2].Holds resupplied[2] list (.ref 1) :=
    @Snapshot.Holds.inCall _ _ _ _ 0 _ _ "x" rfl rfl (by decide) rfl rfl
  have hother : ss[2].Holds resupplied[2] (.list [list]) (.ref 8) :=
    @Snapshot.Holds.global _ _ _ _ "b" rfl rfl
  have hkeys : list.key ≠ (Datum.list [list]).key := by decide
  exact ⟨hreplay, hrange, _, _, _, _, rfl, rfl, rfl, rfl, 1, 1, 8, hfirst, hlast, hother,
    (replay_identity hreplay hrange (Nat.zero_le 2) rfl rfl rfl rfl rfl rfl hfirst hlast).2 rfl hagrees,
    (replay_identity hreplay hrange (Nat.zero_le 2) rfl rfl rfl rfl rfl rfl hfirst hother).1 hkeys⟩

end Recording
end Retrace

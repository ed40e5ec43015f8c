import Retrace.Proofs.Replay.Identity

/-! Identities that a supplied heap takes away. When it changes a cell, all numbers are gone from which
remembered cells lead to that cell: no value is encoded as one of them again. Cells that were supplied
are not looked through, so a number from which one of these leads to the changed cell stays. -/
namespace Retrace

namespace Memory

variable {data : Set Datum} {m : Memory}

/-- No identity that a merge keeps leads to a cell that it changes. -/
theorem not_leads_of_mem_merge {supplied : Heap} {goal : HeapId}
    (hgoal : goal ∈ m.overwritten supplied) {e : String × HeapId}
    (he : e ∈ (m.merge supplied).interner.table) :
    ¬ m.interner.Leads (m.merge supplied).heap e.2 goal := by
  rw [merge_table] at he
  intro hleads
  exact (Interner.mem_forget_table.1 he).2 (Interner.stale_of_leads hgoal hleads)

/-- A remembered number from the counter of earlier memory on is above all cells that were there. -/
theorem Sound.lt_of_next_le {earlier : Memory} (hearlier : Sound data ∅ earlier)
    (h : Sound data ∅ m) (hnext : m.interner.next < UInt64.size) {e : String × HeapId}
    (he : e ∈ m.interner.table) (habove : earlier.interner.next ≤ e.2.toNat) {id : HeapId}
    (hid : earlier.heap.contains id = true) : id < e.2 := by
  have hle := hearlier.heap_lt id hid
  have hlt := h.known_lt e he
  rw [UInt64.lt_iff_toNat_lt]
  omega

end Memory

namespace Recording

variable {records : List Record} {k j : Nat}

/-- An identity after a record is one that the merge of an earlier record kept, or has a number that
was not given out by then. -/
theorem merged_or_above (hrange : InRange records) {r : Record} (hr : records[k]? = some r)
    (hkj : k < j) (hj : j ≤ records.length) {e : String × HeapId}
    (he : e ∈ (before records j).interner.table) :
    e ∈ ((before records k).merge r.supplied).interner.table ∨
      ((before records k).merge r.supplied).interner.next ≤ e.2.toNat := by
  have hgrows := (Memory.ofRecord_grows (stored_before records k) r).1
  rw [Snapshot.arrive_eq] at hgrows
  have hlater := before_old_or_above hrange hkj hj he
  rw [Nat.succ_eq_add_one, before_succ hr] at hlater
  rcases hlater with hold | habove
  · exact hgrows.old_or_above (hrange.next_lt hr) hold
  · exact .inr (Nat.le_trans hgrows.next_le habove)

/-- After cells came along of which one changes the cell `changed`: a composite value is never bound
to a number from which remembered cells lead there, and one that had such a number gets another above
all cells of the merged heap. -/
theorem replay_invalidates {limit : Option Nat} {ss : List Snapshot}
    (hreplay : replay limit records = .ok ss) (hrange : InRange records) (hkj : k ≤ j)
    {r r' : Record} {s : Snapshot} (hr : records[k]? = some r) (hr' : records[j]? = some r')
    (hs : ss[j]? = some s) {changed : HeapId} {old new : Cell}
    (hold : (heapBefore ss k).get? changed = some old)
    (hnew : r.supplied.get? changed = some new) (hdiffers : old.same new = false) {d : Datum}
    (hd : d.isComposite = true) {id : HeapId} (hholds : s.Holds r' d (.ref id)) :
    let interner := (before records k).interner
    let merged := (heapBefore ss k).overlay r.supplied
    ¬ interner.Leads merged id changed ∧
      ∀ id', (d.key, id') ∈ interner.table → interner.Leads merged id' changed →
        ∀ other, merged.contains other = true → other < id := by
  obtain rfl := (eq_snapshots_of_replay hreplay).1
  have hk : k ≤ records.length := Nat.le_of_lt (List.getElem?_eq_some_iff.1 hr).1
  have hj : j + 1 ≤ records.length := (List.getElem?_eq_some_iff.1 hr').1
  rw [heapBefore_snapshots records hk] at hold ⊢
  intro interner merged
  have hmerged : ((before records k).merge r.supplied).heap = merged := rfl
  have hsound (i : Nat) := sound_before (Set.Subset.refl (values records)) hrange i
  have hchanged : changed ∈ (before records k).overwritten r.supplied :=
    Memory.mem_overwritten hold hnew hdiffers
  have hmem := mem_table_of_holds hrange hr' hs hd hholds
  rcases merged_or_above hrange hr (Nat.lt_succ_of_le hkj) hj hmem with hkept | habove
  · -- the number was kept, so it does not lead there, and it is the one that the value had
    have hnot := Memory.not_leads_of_mem_merge hchanged hkept
    rw [hmerged] at hnot
    refine ⟨hnot, fun id' hid' hleads => ?_⟩
    rw [Memory.merge_table] at hkept
    have htable := (Interner.mem_forget_table.1 hkept).1
    cases List.inj_on_of_nodup_map (hsound k).distinct hid' htable rfl
    exact absurd hleads hnot
  · -- the number is new, so it is above all cells, and those alone lead anywhere
    have hlt {other : HeapId} (hother : merged.contains other = true) : other < id :=
      ((hsound k).merge r.supplied).lt_of_next_le (hsound (j + 1)) (hrange.before (j + 1)) hmem
        habove hother
    refine ⟨fun hleads => ?_, fun _ _ _ _ => hlt⟩
    refine UInt64.lt_irrefl id (hlt ?_)
    rcases hleads.cases_head with rfl | ⟨target, ⟨-, cell, hcell, -⟩, -⟩
    · rw [← hmerged, Memory.contains_merge]
      exact .inl ((SortedMap.contains_iff _ _).2 ⟨new, hnew⟩)
    · exact (SortedMap.contains_iff _ _).2 ⟨cell, hcell⟩

/-- A list in a list gets the number 2 under 1. Then another cell comes along under 2, and the outer
list is bound again, at once and in a later call. -/
def emptied : List Record :=
  let outer := Datum.list [.list [.bool true]]
  [{ Record.blank with globals := some (Scope.ofList [("a", outer)]) },
    { Record.blank with
      globals := some (Scope.ofList [("a", outer)])
      heap := some (SortedMap.ofList [(2, .list [])]) },
    { Record.blank with
      stack := some [⟨none, none, some (Scope.ofList [("x", outer)]), none, none, none⟩] }]

theorem emptied_invalidates :
    let outer := Datum.list [.list [.bool true]]
    let ss := snapshots ∅ emptied
    let interner := (before emptied 1).interner
    replay none emptied = .ok ss ∧ InRange emptied ∧
      ∃ r r' s, emptied[1]? = some r ∧ emptied[2]? = some r' ∧ ss[2]? = some s ∧
        (outer.key, 1) ∈ interner.table ∧
        interner.Leads ((heapBefore ss 1).overlay r.supplied) 1 2 ∧ s.Holds r' outer (.ref 3) ∧
        ¬ interner.Leads ((heapBefore ss 1).overlay r.supplied) 3 2 ∧ (1 : HeapId) < 3 := by
  intro outer ss interner
  have hreplay : replay none emptied = .ok ss := replay_of_no_dangling (by decide)
  have hrange : InRange emptied := by decide
  have houter : (outer.key, 1) ∈ interner.table := by decide
  have hholds : ss[2].Holds emptied[2] outer (.ref 3) :=
    @Snapshot.Holds.inCall _ _ _ _ 0 _ _ "x" rfl rfl (by decide) rfl rfl
  have hleads : interner.Leads ((heapBefore ss 1).overlay emptied[1].supplied) 1 2 :=
    .single ⟨List.mem_map_of_mem houter, _, rfl, by decide⟩
  have hold : (heapBefore ss 1).get? 2 = some (.list [.bool true]) := rfl
  have hnew : emptied[1].supplied.get? 2 = some (.list []) := rfl
  obtain ⟨hnot, habove⟩ := replay_invalidates hreplay hrange (Nat.le_succ 1) rfl rfl rfl hold hnew rfl
    rfl hholds
  exact ⟨hreplay, hrange, _, _, _, rfl, rfl, rfl, houter, hleads, hholds, hnot,
    habove 1 houter hleads 1 (by decide)⟩

/-- A list gets the number 10, to which the supplied cell 9 refers, and a list that refers to 9 gets
the number 11. Then another cell comes along under 10, and the list that refers to 9 is bound
again. -/
def relayed : List Record :=
  let relay := Datum.list [.ref 9]
  [{ Record.blank with
      globals := some (Scope.ofList [("y", .list [.bool true]), ("x", relay)])
      heap := some (SortedMap.ofList [(9, .list [.ref 10])]) },
    { Record.blank with
      globals := some (Scope.ofList [("x", relay)])
      heap := some (SortedMap.ofList [(10, .list [.null])]) }]

/-- A number is kept although it leads to a cell that was changed, by way of a supplied cell. -/
theorem relayed_kept :
    let ss := snapshots ∅ relayed
    let known := (before relayed 1).interner.known
    replay none relayed = .ok ss ∧ InRange relayed ∧
      ∃ r s old new, relayed[1]? = some r ∧ ss[1]? = some s ∧ 10 ∈ known ∧
        (heapBefore ss 1).get? 10 = some old ∧ r.supplied.get? 10 = some new ∧
        old.same new = false ∧ 11 ∈ known ∧
        Relation.ReflTransGen (Heap.Points ((heapBefore ss 1).overlay r.supplied)) 11 10 ∧
        s.Holds r (.list [.ref 9]) (.ref 11) := by
  intro ss known
  have hreplay : replay none relayed = .ok ss := replay_of_no_dangling (by decide)
  have hholds : ss[1].Holds relayed[1] (.list [.ref 9]) (.ref 11) :=
    @Snapshot.Holds.global _ _ _ _ "x" rfl rfl
  let merged := (heapBefore ss 1).overlay relayed[1].supplied
  have hlist : Heap.Points merged 11 9 := ⟨.list [.ref 9], rfl, by decide⟩
  have hsupplied : Heap.Points merged 9 10 := ⟨.list [.ref 10], rfl, by decide⟩
  exact ⟨hreplay, by decide, _, _, _, _, rfl, rfl, by decide, rfl, rfl, rfl, by decide,
    .head hlist (.single hsupplied), hholds⟩

end Recording
end Retrace

import Retrace.Proofs.Replay.Run
import Retrace.Proofs.Snapshot.Search

/-! References into heaps that did not come along. A number that is neither supplied nor given out
has no cell, and a global that refers to it is refused. -/
namespace Retrace

namespace Memory

/-- Atoms are encoded as they are. -/
theorem encodeItems_atoms (m : Memory) (ds : List Datum) :
    List.Forall₂ (fun d s => d.isComposite = false → s = d.slot) ds (m.encodeItems ds).1 := by
  induction ds generalizing m with
  | nil => exact .nil
  | cons d ds ih =>
    refine .cons (fun hatom => ?_) (ih _)
    rw [encode_of_atom m hatom]

/-- The heap gains no number but those supplied and those given out. -/
theorem ofRecord_not_contains {m : Memory} (h : Stored ∅ m) {r : Record} {id : HeapId}
    (hid : m.heap.contains id = false) (hsupplied : r.supplied.contains id = false)
    (hknown : id ∉ (Snapshot.ofRecord m r).2.interner.known) :
    (Snapshot.ofRecord m r).2.heap.contains id = false := by
  have hgrows := (ofRecord_grows h r).1
  rw [Snapshot.arrive_eq] at hgrows
  rw [SortedMap.not_contains_iff, hgrows.get?_eq fun hissued => hknown (hgrows.known id hissued),
    get?_merge, (SortedMap.not_contains_iff _ _).1 hsupplied,
    (SortedMap.not_contains_iff _ _).1 hid]
  rfl

end Memory

namespace Snapshot

/-- A reference to a cell that is not there dangles. -/
theorem exists_dangling {s : Snapshot} {id : HeapId} (hbound : .ref id ∈ s.bindings)
    (hid : s.heap.contains id = false) : ∃ id', s.dangling? = some id' := by
  refine Option.isSome_iff_exists.1 (Option.isSome_iff_ne_none.2 fun hnone => ?_)
  obtain ⟨cells, hclosed, hcells⟩ := (dangling?_eq_none_iff s).1 hnone
  obtain ⟨cell, hcell, -⟩ := hclosed id (hcells id hbound)
  rw [(SortedMap.not_contains_iff _ _).1 hid] at hcell
  cases hcell

/-- A recorded reference is bound as it is. -/
theorem ref_mem_bindings {m : Memory} {r : Record} {name : String} {id : HeapId}
    (h : r.bindings.get? name = some (.ref id)) : .ref id ∈ (ofRecord m r).1.bindings := by
  have hshows := ofRecord_shows (Memory.encodeItems_atoms (arrive m r) r.data)
  obtain ⟨slot, hslot, hatom⟩ := hshows.globals.get? ((Scope.get?_eq_some_iff _ _ _).1 h)
    fun d' hd' => Scope.unique h hd'
  rw [hatom rfl] at hslot
  exact List.mem_append_left _ ((SortedMap.mem_values_iff _ _).2 ⟨name, hslot⟩)

end Snapshot

namespace Recording

variable {records : List Record}

private theorem before_not_contains {id : HeapId} {k : Nat} (hk : k ≤ records.length)
    (hsupplied : ∀ j r, j < k → records[j]? = some r → r.supplied.contains id = false)
    (hknown : ∀ j, j < k → id ∉ (before records (j + 1)).interner.known) :
    (before records k).heap.contains id = false := by
  induction k with
  | zero => rfl
  | succ k ih =>
    have hr : records[k]? = some records[k] := List.getElem?_eq_getElem hk
    have hlast := hknown k (Nat.lt_succ_self k)
    rw [before_succ hr] at hlast ⊢
    have hbefore := ih (Nat.le_of_lt hk) (fun j r hj => hsupplied j r (Nat.lt_succ_of_lt hj))
      fun j hj => hknown j (Nat.lt_succ_of_lt hj)
    exact Memory.ofRecord_not_contains (stored_before records k) hbefore
      (hsupplied k _ (Nat.lt_succ_self k) hr) hlast

/-- A recording is refused that has a global refer to a number which no record up to there supplies,
and under which no value up to there is remembered. -/
theorem replay_foreign_reference {limit : Option Nat} {k : Nat} {r : Record} {name : String}
    {id : HeapId} (hlimit : ∀ n, limit = some n → records.length ≤ n)
    (hr : records[k]? = some r) (hglobal : r.bindings.get? name = some (.ref id))
    (hsupplied : ∀ j r', j ≤ k → records[j]? = some r' → r'.supplied.contains id = false)
    (hknown : ∀ j, j ≤ k → id ∉ (before records (j + 1)).interner.known) :
    ∃ step id', step ≤ k ∧ replay limit records = .error (.dangling step id') := by
  have hk : k < records.length := (List.getElem?_eq_some_iff.1 hr).1
  have hid : (before records (k + 1)).heap.contains id = false :=
    before_not_contains hk (fun j r' hj => hsupplied j r' (Nat.le_of_lt_succ hj))
      fun j hj => hknown j (Nat.le_of_lt_succ hj)
  rw [before_succ hr, ← Snapshot.ofRecord_heap] at hid
  obtain ⟨id', hdangling⟩ := Snapshot.exists_dangling (Snapshot.ref_mem_bindings hglobal) hid
  have hs : (snapshots ∅ records)[k]? = some (Snapshot.ofRecord (before records k) r).1 := by
    rw [getElem?_snapshots, hr]
    rfl
  obtain ⟨step, id'', hstep, herror⟩ := replayFrom_eq_error (i := 0) hs hdangling
  rw [Nat.zero_add] at herror
  refine ⟨step, id'', hstep, ?_⟩
  cases limit with
  | none => exact herror
  | some n =>
    rw [replay, if_neg (Nat.not_lt.2 (hlimit n rfl))]
    exact herror

/-- Cells come along under 5 and 40, and lists get the numbers 6 and 41. A global refers to the number
that would come next. -/
def stray : List Record :=
  [{ Record.blank with
      globals := some (Scope.ofList [("a", .list [.bool true])])
      heap := some (SortedMap.ofList [(5, .list [.ref 5])]) },
    { Record.blank with
      globals := some (Scope.ofList [("a", .list [.bool true]), ("b", .list []), ("x", .ref 42)])
      heap := some (SortedMap.ofList [(40, .list [.ref 6])]) }]

theorem stray_refused :
    (∀ r ∈ stray, r.supplied.contains 42 = false) ∧ (before stray 1).interner.known = [6] ∧
      (before stray 2).interner.known = [41, 6] ∧
      ∃ step id', step ≤ 1 ∧ replay (some 2) stray = .error (.dangling step id') := by
  have hsupplied : ∀ r ∈ stray, r.supplied.contains 42 = false := by decide
  have hfirst : (before stray 1).interner.known = [6] := by decide
  have hsecond : (before stray 2).interner.known = [41, 6] := by decide
  refine ⟨hsupplied, hfirst, hsecond, @replay_foreign_reference stray (some 2) 1 _ "x" 42 ?_ rfl rfl
    (fun j r' _ hr' => hsupplied r' (List.mem_of_getElem? hr')) fun j hj => ?_⟩
  · intro n hn
    cases hn
    exact Nat.le_refl 2
  · rcases Nat.le_one_iff_eq_zero_or_eq_one.1 hj with rfl | rfl
    · rw [hfirst]
      decide
    · rw [hsecond]
      decide

/-- A list gets the number 1, to which another global refers. -/
def captured : List Record :=
  [{ Record.blank with
      globals := some (Scope.ofList [("a", .list [.bool true]), ("x", .ref 1)]) }]

/-- A number that is given out first takes in a reference that came from elsewhere. -/
theorem captured_accepted : ∃ r ss, captured = [r] ∧ r.bindings.get? "x" = some (.ref 1) ∧
    r.supplied.contains 1 = false ∧ replay none captured = .ok ss ∧
    1 ∈ (before captured 1).interner.known := by
  have hreplay : replay none captured = .ok (snapshots ∅ captured) :=
    replay_of_no_dangling (by decide)
  exact ⟨_, _, rfl, rfl, rfl, hreplay, by decide⟩

end Recording
end Retrace

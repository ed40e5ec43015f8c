import Retrace.Proofs.Memory.Known
import Retrace.Proofs.Memory.Runs
import Retrace.Proofs.Replay.Bindings

/-! Runs over the records of a recording: the memory before each record, and the snapshots whether
or not they are accepted. -/
namespace Retrace

namespace Record

def supplied (r : Record) : Heap := r.heap.getD ∅

def actions (r : Record) : List Memory.Action := .merge r.supplied :: r.data.map .encode

private theorem exists_of_mem_actions {r : Record} {a : Memory.Action} (ha : a ∈ r.actions)
    {p : Datum} (hp : p ∈ a.data) : ∃ d ∈ r.data, p ∈ d.visits := by
  rcases List.mem_cons.1 ha with rfl | ha
  · cases hp
  · obtain ⟨d, hd, rfl⟩ := List.mem_map.1 ha
    exact ⟨d, hd, hp⟩

def blank : Record := ⟨none, none, none, none, none, none, none, none, none⟩

end Record

namespace Memory

def after (m : Memory) (records : List Record) : Memory :=
  records.foldl (fun m r => (Snapshot.ofRecord m r).2) m

private theorem after_append (m : Memory) (rs rs' : List Record) :
    m.after (rs ++ rs') = (m.after rs).after rs' :=
  List.foldl_append

private theorem after_take_succ (m : Memory) {records : List Record} {k : Nat} {r : Record}
    (h : records[k]? = some r) :
    m.after (records.take (k + 1)) = (Snapshot.ofRecord (m.after (records.take k)) r).2 := by
  rw [List.take_add_one, h, after_append]
  rfl

end Memory

namespace Snapshot

theorem arrive_eq (m : Memory) (r : Record) : arrive m r = m.merge r.supplied := by
  rw [arrive, Record.supplied]
  cases r.heap <;> rfl

/-- Memory after a record knows each value of the record by the slot that the snapshot has. -/
theorem ofRecord_shows_known (m : Memory) (r : Record) :
    (ofRecord m r).1.Shows (Memory.Knows (ofRecord m r).2) r := by
  refine ofRecord_shows ?_
  rw [ofRecord_memory]
  exact Memory.encodeItems_knows _ _

end Snapshot

/-! ### One record -/

namespace Memory

variable {data : Set Datum} {m : Memory}

theorem Stored.arrive (h : Stored ∅ m) (r : Record) : Stored ∅ (Snapshot.arrive m r) := by
  rw [Snapshot.arrive_eq]
  exact h.merge r.supplied

theorem ofRecord_grows (h : Stored ∅ m) (r : Record) :
    Grows ∅ (Snapshot.arrive m r) (Snapshot.ofRecord m r).2 ∧
      Stored ∅ (Snapshot.ofRecord m r).2 := by
  rw [Snapshot.ofRecord_memory]
  exact encodeItems_grows r.data (h.arrive r)

private theorem encodeItems_run (m : Memory) (ds : List Datum) :
    (m.encodeItems ds).2 = m.run (ds.map .encode) := by
  induction ds generalizing m with
  | nil => rfl
  | cons d ds ih => exact ih _

private theorem ofRecord_run (m : Memory) (r : Record) :
    (Snapshot.ofRecord m r).2 = m.run r.actions := by
  rw [Snapshot.ofRecord_memory, Snapshot.arrive_eq, encodeItems_run]
  rfl

theorem ofRecord_next_le (h : Stored ∅ m) (r : Record) :
    m.interner.next ≤ (Snapshot.ofRecord m r).2.interner.next := by
  rw [ofRecord_run]
  exact next_le_run h _

/-- A record keeps memory sound, and its snapshot shows the slots of its values. -/
theorem ofRecord_sound (h : Sound data ∅ m) {r : Record}
    (hdata : ∀ d ∈ r.data, ∀ p ∈ d.visits, p ∈ data)
    (hnext : (Snapshot.ofRecord m r).2.interner.next < UInt64.size) :
    Sound data ∅ (Snapshot.ofRecord m r).2 ∧
      (Snapshot.ofRecord m r).1.Shows (Stands (Snapshot.ofRecord m r).2.interner.table) r := by
  have harrive : Sound data ∅ (Snapshot.arrive m r) := by
    rw [Snapshot.arrive_eq]
    exact h.merge r.supplied
  rw [Snapshot.ofRecord_memory] at hnext
  obtain ⟨hsound, hslots⟩ :=
    encodeItems_sound hdata harrive hnext
  rw [← Snapshot.ofRecord_memory] at hsound hslots
  exact ⟨hsound, Snapshot.ofRecord_shows hslots⟩

/-! ### Many records -/

/-- The records of a recording are one run. -/
theorem after_run (m : Memory) (records : List Record) :
    m.after records = m.run (records.flatMap Record.actions) := by
  induction records generalizing m with
  | nil => rfl
  | cons r rest ih =>
    rw [List.flatMap_cons, run_append, ← ofRecord_run]
    exact ih _

theorem Stored.after (h : Stored ∅ m) (records : List Record) : Stored ∅ (m.after records) := by
  rw [after_run]
  exact h.run _

private theorem next_le_after (h : Stored ∅ m) (records : List Record) :
    m.interner.next ≤ (m.after records).interner.next := by
  rw [after_run]
  exact next_le_run h _

theorem Sound.after (h : Sound data ∅ m) {records : List Record}
    (hdata : ∀ r ∈ records, ∀ d ∈ r.data, ∀ p ∈ d.visits, p ∈ data)
    (hnext : (m.after records).interner.next < UInt64.size) : Sound data ∅ (m.after records) := by
  rw [after_run] at hnext ⊢
  refine h.run (fun p hp => ?_) hnext
  obtain ⟨a, ha, hp⟩ := List.mem_flatMap.1 hp
  obtain ⟨r, hr, ha⟩ := List.mem_flatMap.1 ha
  obtain ⟨d, hd, hp⟩ := Record.exists_of_mem_actions ha hp
  exact hdata r hr d hd p hp

end Memory

namespace Recording

/-- The memory that the record at a position starts from. -/
def before (records : List Record) (k : Nat) : Memory := Memory.after ∅ (records.take k)

/-- The numbers of new cells stay within 64 bits. -/
def InRange (records : List Record) : Prop :=
  (Memory.after ∅ records).interner.next < UInt64.size

instance (records : List Record) : Decidable (InRange records) :=
  inferInstanceAs (Decidable ((Memory.after ∅ records).interner.next < UInt64.size))

/-- All values that the records bind, and all inside them. -/
def values (records : List Record) : Set Datum :=
  fun p => ∃ r ∈ records, ∃ d ∈ r.data, p ∈ d.visits

variable {records : List Record}

theorem mem_values_iff (records : List Record) (p : Datum) :
    p ∈ values records ↔ p ∈ records.flatMap fun r => r.data.flatMap Datum.visits := by
  simp only [List.mem_flatMap]
  rfl

theorem mem_values_of_mem_data {r : Record} (hr : r ∈ records) {d : Datum} (hd : d ∈ r.data) :
    d ∈ values records :=
  ⟨r, hr, d, hd, d.mem_visits_self⟩

theorem mem_values_of_mem_parts {d p : Datum} (hd : d ∈ values records) (hp : p ∈ d.parts) :
    p ∈ values records := by
  obtain ⟨r, hr, e, he, hd⟩ := hd
  exact ⟨r, hr, e, he, Datum.mem_visits_trans (Datum.mem_visits_of_part hp p.mem_visits_self) hd⟩

theorem before_succ {k : Nat} {r : Record} (h : records[k]? = some r) :
    before records (k + 1) = (Snapshot.ofRecord (before records k) r).2 :=
  Memory.after_take_succ ∅ h

theorem stored_before (records : List Record) (k : Nat) : Memory.Stored ∅ (before records k) :=
  Memory.stored_empty.after _

theorem InRange.before (h : InRange records) (k : Nat) :
    (before records k).interner.next < UInt64.size := by
  refine Nat.lt_of_le_of_lt ?_ h
  rw [← List.take_append_drop k records, Memory.after_append, List.take_append_drop]
  exact Memory.next_le_after (stored_before records k) _

theorem InRange.next_lt (h : InRange records) {k : Nat} {r : Record} (hr : records[k]? = some r) :
    (Snapshot.ofRecord (Recording.before records k) r).2.interner.next < UInt64.size := by
  rw [← before_succ hr]
  exact h.before (k + 1)

/-- Memory stays sound all along a recording. -/
theorem sound_before {data : Set Datum} (hdata : values records ⊆ data) (h : InRange records)
    (k : Nat) : Memory.Sound data ∅ (Recording.before records k) :=
  (Memory.sound_empty data).after
    (fun r hr d hd _ hp => hdata ⟨r, List.mem_of_mem_take hr, d, hd, hp⟩) (h.before k)

/-! ### Snapshots -/

/-- The snapshots of records, with no look at their references. -/
def snapshots (m : Memory) : List Record → List Snapshot
  | [] => []
  | r :: rest => (Snapshot.ofRecord m r).1 :: snapshots (Snapshot.ofRecord m r).2 rest

theorem length_snapshots (m : Memory) (records : List Record) :
    (snapshots m records).length = records.length := by
  induction records generalizing m with
  | nil => rfl
  | cons r rest ih => exact congrArg (· + 1) (ih _)

theorem getElem?_snapshots (m : Memory) (records : List Record) (k : Nat) :
    (snapshots m records)[k]? =
      records[k]?.map fun r => (Snapshot.ofRecord (m.after (records.take k)) r).1 := by
  induction records generalizing m k with
  | nil => rfl
  | cons r rest ih =>
    cases k with
    | zero => rfl
    | succ k => exact ih _ k

theorem replayFrom_cons (m : Memory) (i : Nat) (r : Record) (rest : List Record) :
    replayFrom m i (r :: rest) =
      match (Snapshot.ofRecord m r).1.dangling? with
      | some id => .error (.dangling i id)
      | none => ((Snapshot.ofRecord m r).1 :: ·) <$>
          replayFrom (Snapshot.ofRecord m r).2 (i + 1) rest := rfl

/-- A replay is accepted if no reference dangles in any snapshot. -/
theorem replayFrom_eq_ok_iff {m : Memory} {i : Nat} {ss : List Snapshot} :
    replayFrom m i records = .ok ss ↔
      ss = snapshots m records ∧ ∀ s ∈ snapshots m records, s.dangling? = none := by
  induction records generalizing m i ss with
  | nil => simp [replayFrom, snapshots, eq_comm]
  | cons r rest ih =>
    rw [replayFrom_cons, snapshots, List.forall_mem_cons]
    cases hd : (Snapshot.ofRecord m r).1.dangling? with
    | some id => simp
    | none =>
      cases hrest : replayFrom (Snapshot.ofRecord m r).2 (i + 1) rest with
      | error e =>
        refine ⟨nofun, fun h => ?_⟩
        rw [ih.2 ⟨rfl, h.2.2⟩] at hrest
        cases hrest
      | ok ss' =>
        obtain ⟨rfl, hss⟩ := ih.1 hrest
        exact ⟨fun h => by cases h; exact ⟨rfl, rfl, hss⟩, fun h => congrArg Except.ok h.1.symm⟩

theorem replay_of_no_dangling (h : ∀ s ∈ snapshots ∅ records, s.dangling? = none) :
    replay none records = .ok (snapshots ∅ records) :=
  replayFrom_eq_ok_iff.2 ⟨rfl, h⟩

/-- A replay that fails tells the first snapshot in which a reference dangles. -/
theorem replayFrom_eq_error {m : Memory} {i k : Nat} {s : Snapshot} {id : HeapId}
    (hs : (snapshots m records)[k]? = some s) (hd : s.dangling? = some id) :
    ∃ j id', j ≤ k ∧ replayFrom m i records = .error (.dangling (i + j) id') := by
  induction records generalizing m i k with
  | nil => cases hs
  | cons r rest ih =>
    rw [replayFrom_cons]
    cases hfirst : (Snapshot.ofRecord m r).1.dangling? with
    | some id' => exact ⟨0, id', Nat.zero_le _, rfl⟩
    | none =>
      cases k with
      | zero =>
        cases hs
        rw [hfirst] at hd
        cases hd
      | succ k =>
        obtain ⟨j, id', hj, herror⟩ := ih (i := i + 1) hs
        refine ⟨j + 1, id', Nat.succ_le_succ hj, ?_⟩
        rw [herror, Nat.add_right_comm]
        rfl

/-- An accepted replay gives the snapshots of all records. -/
theorem eq_snapshots_of_replay {limit : Option Nat} {ss : List Snapshot}
    (h : replay limit records = .ok ss) :
    ss = snapshots ∅ records ∧ ∀ s ∈ ss, s.dangling? = none := by
  have hfrom : replayFrom ∅ 0 records = .ok ss := by
    cases limit with
    | none => exact h
    | some limit =>
      rw [replay] at h
      split at h
      · cases h
      · exact h
  obtain ⟨rfl, hss⟩ := replayFrom_eq_ok_iff.1 hfrom
  exact ⟨rfl, hss⟩

end Recording
end Retrace

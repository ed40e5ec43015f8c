import Retrace.Proofs.Replay.Run
import Retrace.Proofs.Snapshot.Search

/-! Replays of the first records of a recording. A snapshot depends on no later record, and a replay
fails with the first snapshot in which a reference dangles: what was accepted up to there stays
accepted, and nothing that follows changes the failure. -/
namespace Retrace.Recording

variable {records : List Record}

private theorem snapshots_take (m : Memory) (records : List Record) (k : Nat) :
    snapshots m (records.take k) = (snapshots m records).take k := by
  induction records generalizing m k with
  | nil => simp [snapshots]
  | cons r rest ih =>
    cases k with
    | zero => rfl
    | succ k => simp only [List.take_succ_cons, snapshots, ih]

/-- A failure is that of the first snapshot in which a reference dangles. -/
theorem replayFrom_eq_error_iff {m : Memory} {i : Nat} {e : ReplayError} :
    replayFrom m i records = .error e ↔
      ∃ k s id, (snapshots m records)[k]? = some s ∧ s.dangling? = some id ∧
        (∀ t ∈ (snapshots m records).take k, t.dangling? = none) ∧ e = .dangling (i + k) id := by
  induction records generalizing m i with
  | nil => simp [replayFrom, snapshots]
  | cons r rest ih =>
    rw [replayFrom_cons, snapshots]
    cases hd : (Snapshot.ofRecord m r).1.dangling? with
    | some id =>
      constructor
      · intro h
        cases h
        exact ⟨0, _, id, rfl, hd, List.forall_mem_nil _, rfl⟩
      · rintro ⟨k, s, id', hs, hdangling, hbefore, rfl⟩
        cases k with
        | zero =>
          cases hs
          cases hd.symm.trans hdangling
          rfl
        | succ k =>
          have hnone := hbefore _ List.mem_cons_self
          rw [hd] at hnone
          cases hnone
    | none =>
      have hmap : ((Snapshot.ofRecord m r).1 :: ·) <$>
          replayFrom (Snapshot.ofRecord m r).2 (i + 1) rest = .error e ↔
            replayFrom (Snapshot.ofRecord m r).2 (i + 1) rest = .error e := by
        cases replayFrom (Snapshot.ofRecord m r).2 (i + 1) rest with
        | error e' => exact ⟨fun h => by cases h; rfl, fun h => by cases h; rfl⟩
        | ok ss => exact ⟨fun h => (by cases h), fun h => (by cases h)⟩
      rw [hmap, ih]
      constructor
      · rintro ⟨k, s, id, hs, hdangling, hbefore, rfl⟩
        refine ⟨k + 1, s, id, hs, hdangling, List.forall_mem_cons.2 ⟨hd, hbefore⟩, ?_⟩
        rw [Nat.add_right_comm, Nat.add_assoc]
      · rintro ⟨k, s, id, hs, hdangling, hbefore, rfl⟩
        cases k with
        | zero =>
          cases hs
          rw [hd] at hdangling
          cases hdangling
        | succ k =>
          rw [List.take_succ_cons, List.forall_mem_cons] at hbefore
          refine ⟨k, s, id, hs, hdangling, hbefore.2, ?_⟩
          rw [Nat.add_right_comm, Nat.add_assoc]

/-- What a recording comes to is settled record by record. -/
structure Causal (records : List Record) : Prop where
  /-- An accepted recording has a snapshot for each record, and its first records are accepted with
  the same snapshots. -/
  accepted : ∀ {ss}, replay none records = .ok ss →
    ss.length = records.length ∧ ∀ k, replay none (records.take k) = .ok (ss.take k)
  /-- A recording that fails at a step is accepted up to there. -/
  accepted_before : ∀ {i id}, replay none records = .error (.dangling i id) →
    ∀ k ≤ i, ∃ ss, replay none (records.take k) = .ok ss
  /-- It fails alike wherever it is cut off after that step. -/
  refused_after : ∀ {i id}, replay none records = .error (.dangling i id) →
    ∀ k, i < k → replay none (records.take k) = .error (.dangling i id)
  /-- The cell that is told is missing from the heap of the step, and bindings lead to it. -/
  missing : ∀ {i id}, replay none records = .error (.dangling i id) →
    ∃ s, (snapshots ∅ records)[i]? = some s ∧ s.Reachable id ∧ s.heap.contains id = false
  /-- Without a limit no recording is too long. -/
  unlimited : ∀ {e}, replay none records = .error e → ∃ i id, e = .dangling i id
  too_long_iff : ∀ {limit n l}, replay (some limit) records = .error (.tooLong n l) ↔
    limit < records.length ∧ n = records.length ∧ l = limit
  /-- A limit that is kept has no effect. -/
  within : ∀ {limit}, records.length ≤ limit → replay (some limit) records = replay none records

private theorem replay_eq_error_iff {e : ReplayError} :
    replay none records = .error e ↔
      ∃ i s id, (snapshots ∅ records)[i]? = some s ∧ s.dangling? = some id ∧
        (∀ t ∈ (snapshots ∅ records).take i, t.dangling? = none) ∧ e = .dangling i id := by
  rw [replay, replayFrom_eq_error_iff]
  simp only [Nat.zero_add]

private theorem replay_take_of_ok {ss : List Snapshot} (h : replay none records = .ok ss)
    (k : Nat) : replay none (records.take k) = .ok (ss.take k) := by
  obtain ⟨rfl, hnone⟩ := eq_snapshots_of_replay h
  rw [← snapshots_take]
  apply replay_of_no_dangling
  rw [snapshots_take]
  intro s hs
  exact hnone s (List.mem_of_mem_take hs)

private theorem replay_limit (limit : Nat) (records : List Record) :
    replay (some limit) records =
      if limit < records.length then .error (.tooLong records.length limit)
      else replay none records := rfl

/-- Every recording is causal. -/
theorem replay_causal (records : List Record) : Causal records where
  accepted {ss} h := by
    refine ⟨?_, replay_take_of_ok h⟩
    rw [(eq_snapshots_of_replay h).1, length_snapshots]
  accepted_before {i id} h k hk := by
    obtain ⟨_, s, id', hs, hd, hbefore, heq⟩ := replay_eq_error_iff.1 h
    cases heq
    refine ⟨_, replay_of_no_dangling ?_⟩
    rw [snapshots_take]
    intro t ht
    exact hbefore t ((List.take_subset_take_left _ hk) ht)
  refused_after {i id} h k hk := by
    obtain ⟨_, s, id', hs, hd, hbefore, heq⟩ := replay_eq_error_iff.1 h
    cases heq
    refine replay_eq_error_iff.2 ⟨i, s, id, ?_, hd, ?_, rfl⟩
    · rw [snapshots_take, List.getElem?_take_of_lt hk]
      exact hs
    · rw [snapshots_take, List.take_take, Nat.min_eq_left (Nat.le_of_lt hk)]
      exact hbefore
  missing {i id} h := by
    obtain ⟨_, s, id', hs, hd, hbefore, heq⟩ := replay_eq_error_iff.1 h
    cases heq
    exact ⟨s, hs, Snapshot.reachable_of_dangling? hd⟩
  unlimited {e} h := by
    obtain ⟨i, s, id, -, -, -, heq⟩ := replay_eq_error_iff.1 h
    exact ⟨i, id, heq⟩
  too_long_iff {limit n l} := by
    rw [replay_limit]
    split
    · next hlt => simp [hlt, eq_comm]
    · next hle =>
      refine ⟨fun h => ?_, fun h => absurd h.1 hle⟩
      obtain ⟨i, s, id, -, -, -, heq⟩ := replay_eq_error_iff.1 h
      cases heq
  within {limit} h := by rw [replay_limit, if_neg (Nat.not_lt.2 h)]

/-- A list that holds a reference to a cell of which nothing is known, between two other records. -/
def broken : List Record :=
  [{ Record.blank with globals := some (Scope.ofList [("a", .list [.bool true])]) },
    { Record.blank with globals := some (Scope.ofList [("b", .list [.ref 42])]) },
    Record.blank]

theorem broken_causal :
    replay none broken = .error (.dangling 1 42) ∧
      (∃ ss, replay none (broken.take 1) = .ok ss ∧ ss.length = 1) ∧
      replay none (broken.take 2) = .error (.dangling 1 42) ∧
      (∃ s, (snapshots ∅ broken)[1]? = some s ∧ s.Reachable 42 ∧ s.heap.contains 42 = false) ∧
      replay (some 2) broken = .error (.tooLong 3 2) ∧
      replay (some 3) broken = .error (.dangling 1 42) := by
  have hfails : replay none broken = .error (.dangling 1 42) :=
    replay_eq_error_iff.2 ⟨1, _, 42, rfl, by decide, by decide, rfl⟩
  refine ⟨hfails, ?_, ?_, ?_, ?_, ?_⟩
  · obtain ⟨ss, hss⟩ := (replay_causal broken).accepted_before hfails 1 (Nat.le_refl 1)
    exact ⟨ss, hss, ((replay_causal (broken.take 1)).accepted hss).1⟩
  · exact (replay_causal broken).refused_after hfails 2 (Nat.lt_succ_self 1)
  · exact (replay_causal broken).missing hfails
  · exact (replay_causal broken).too_long_iff.2 ⟨by decide, rfl, rfl⟩
  · rw [(replay_causal broken).within (Nat.le_refl 3)]
    exact hfails

end Retrace.Recording

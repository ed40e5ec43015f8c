import Retrace.Proofs.Replay.Run
import Retrace.Proofs.Session.Cursor
import Retrace.Session.Basic

/-! What a session shows of its recording after any moves: the snapshots at and around the cursor,
and the status that the record at the cursor calls for. -/
namespace Retrace

namespace Record

/-- A record of an exception, be it by its event or by a message. -/
def Raises (r : Record) : Prop := r.event = some .raise ∨ r.exception.isSome = true

instance (r : Record) : Decidable r.Raises := inferInstanceAs (Decidable (_ ∨ _))

/-- The status that a record and its snapshot call for: an exception comes before the end of the
program, and the end before the event. -/
def status (r : Record) (s : Snapshot) (last : Bool) : Status :=
  if r.Raises then .raised (r.exception.getD "Unknown error")
  else if last then .completed
  else match r.event.getD .step with
    | .call => .calling (if s.funcName = "" then "anonymous" else s.funcName)
    | .leave => .returning (if s.funcName = "" then "anonymous" else s.funcName)
    | _ => .executing s.line

private theorem finalEvent_eq_raise_iff (r : Record) : r.finalEvent = .raise ↔ r.Raises := by
  rw [finalEvent, Raises]
  cases r.exception <;> cases r.event <;> simp

private theorem finalEvent_of_not_raises {r : Record} (h : ¬ r.Raises) :
    r.finalEvent = r.event.getD .step :=
  if_neg fun hsome => h (.inr hsome)

end Record

/-- A snapshot has the status of its record. -/
theorem Status.at?_ofRecord (m : Memory) (r : Record) (last : Bool) :
    Status.at? (some (Snapshot.ofRecord m r).1) last = r.status (Snapshot.ofRecord m r).1 last := by
  have hevent : (Snapshot.ofRecord m r).1.event = r.finalEvent := rfl
  have hexception : (Snapshot.ofRecord m r).1.exception = r.exception := rfl
  simp only [Status.at?, Record.status]
  rw [hevent, hexception]
  by_cases h : r.Raises
  · rw [if_pos (r.finalEvent_eq_raise_iff.2 h), if_pos h]
  · rw [if_neg (mt r.finalEvent_eq_raise_iff.1 h), if_neg h, Record.finalEvent_of_not_raises h]
    rfl

private theorem Status.at?_eq_noData_iff {step : Option Snapshot} {atEnd : Bool} :
    Status.at? step atEnd = .noData ↔ step = none := by
  cases step with
  | none => exact iff_of_true rfl rfl
  | some s =>
    refine iff_of_false (fun h => ?_) nofun
    rw [Status.at?] at h
    split at h
    · cases h
    · split at h
      · cases h
      · split at h <;> cases h

namespace Session

variable {s : Session}

def Counted (s : Session) : Prop := s.cursor.total.toNat = s.steps.length

private theorem counted_ofSteps (source : Option String) {steps : List Snapshot}
    (h : steps.length < UInt64.size) : (ofSteps source steps).Counted :=
  Nat.mod_eq_of_lt h

private theorem index_lt (h : s.Counted) (hsteps : s.steps ≠ []) :
    s.cursor.index.toNat < s.steps.length := by
  have hindex := s.cursor.toNat_index_le
  have hpos := List.length_pos_of_ne_nil hsteps
  rw [h] at hindex
  omega

private theorem current?_eq (s : Session) : s.current? = s.steps[s.cursor.index.toNat]? := rfl

private theorem current?_eq_none_iff (h : s.Counted) : s.current? = none ↔ s.steps = [] := by
  rw [current?_eq, List.getElem?_eq_none_iff]
  constructor
  · intro hle
    by_contra hsteps
    exact absurd (index_lt h hsteps) (Nat.not_lt.2 hle)
  · intro hsteps
    rw [hsteps]
    exact Nat.zero_le _

private theorem previous?_eq (s : Session) :
    s.previous? = if s.cursor.index.toNat = 0 then none
      else s.steps[s.cursor.index.toNat - 1]? := by
  have hzero : s.cursor.index.toNat = 0 ↔ s.cursor.index = 0 := UInt64.toNat_inj (b := 0)
  rw [previous?, Cursor.previousIndex?, if_congr hzero rfl rfl]
  split
  · rfl
  · next h => rw [← Cursor.toNat_index_pred h]; rfl

private theorem next?_eq (h : s.Counted) : s.next? = s.steps[s.cursor.index.toNat + 1]? := by
  rw [next?, Cursor.nextIndex?]
  split
  · rw [← Cursor.toNat_index_succ]; rfl
  · next hlt =>
    rw [s.cursor.index_succ_lt_iff, h] at hlt
    exact (List.getElem?_eq_none_iff.2 (Nat.le_of_not_lt hlt)).symm

private theorem atEnd_eq (h : s.Counted) (hsteps : s.steps ≠ []) :
    s.cursor.atEnd = decide (s.cursor.index.toNat + 1 = s.steps.length) := by
  have hindex := index_lt h hsteps
  rw [Cursor.atEnd, decide_eq_decide, ← UInt64.toNat_inj, Cursor.toNat_lastIndex, h]
  omega

/-- A session of a recording has the snapshots of its replay. -/
theorem exists_replay_of_ofRecording {limit : Option Nat} {recording : Recording}
    (h : ofRecording limit recording = .ok s) :
    ∃ ss, Recording.replay limit recording.records = .ok ss ∧ s = ofSteps recording.source ss := by
  cases hreplay : Recording.replay limit recording.records with
  | error e => rw [ofRecording, hreplay] at h; cases h
  | ok ss =>
    rw [ofRecording, hreplay] at h
    cases h
    exact ⟨ss, rfl, rfl⟩

/-! ### Moves -/

theorem steps_moves (s : Session) (moves : List Move) : (moves.foldl move s).steps = s.steps := by
  induction moves generalizing s with
  | nil => rfl
  | cons m moves ih => exact ih (s.move m)

theorem Counted.move (h : s.Counted) (m : Move) : (s.move m).Counted := by
  rw [Counted, Session.move, Cursor.total_move]
  exact h

theorem Counted.moves (h : s.Counted) (moves : List Move) :
    (moves.foldl Session.move s).Counted := by
  induction moves generalizing s with
  | nil => exact h
  | cons m moves ih => exact ih (h.move m)

/-! ### Views -/

/-- What a session shows of records and their snapshots from where its cursor stands. -/
structure Views (records : List Record) (ss : List Snapshot) (s : Session) : Prop where
  steps_eq : s.steps = ss
  current_eq : s.current? = ss[s.cursor.index.toNat]?
  current_eq_none_iff : s.current? = none ↔ records = []
  previous_eq : s.previous? = if s.cursor.index.toNat = 0 then none
    else ss[s.cursor.index.toNat - 1]?
  next_eq : s.next? = ss[s.cursor.index.toNat + 1]?
  noData_iff : s.status = .noData ↔ records = []
  status_eq : ∀ {r step}, records[s.cursor.index.toNat]? = some r → s.current? = some step →
    s.status = r.status step (s.cursor.index.toNat + 1 = records.length)

/-- A session that counts the snapshots of records shows them where its cursor stands. -/
theorem views_snapshots {records : List Record} (h : s.Counted)
    (hsteps : s.steps = Recording.snapshots ∅ records) :
    s.Views records (Recording.snapshots ∅ records) := by
  have hlength : s.steps.length = records.length := by rw [hsteps, Recording.length_snapshots]
  have hnil : s.steps = [] ↔ records = [] := by
    rw [← List.length_eq_zero_iff, hlength, List.length_eq_zero_iff]
  refine ⟨hsteps, hsteps ▸ s.current?_eq, (current?_eq_none_iff h).trans hnil,
    hsteps ▸ s.previous?_eq, hsteps ▸ next?_eq h, ?_, fun {r step} hr hstep => ?_⟩
  · rw [status, Status.at?_eq_noData_iff, current?_eq_none_iff h, hnil]
  · have hne : s.steps ≠ [] := fun hsteps => by
      rw [hnil.1 hsteps] at hr
      cases hr
    have hrecord := hstep
    rw [current?_eq, hsteps, Recording.getElem?_snapshots, hr] at hrecord
    cases hrecord
    rw [status, hstep, Status.at?_ofRecord, atEnd_eq h hne, hlength]

/-- After any moves in the session of a recording, its steps are those of the replay, and it shows
them, and the status of the record, where its cursor stands. The cursor counts in 64 bits, as many as
a list in memory can have. -/
theorem views_of_ofRecording {limit : Option Nat} {recording : Recording}
    (h : ofRecording limit recording = .ok s) (hlength : recording.records.length < UInt64.size)
    (moves : List Move) :
    Recording.replay limit recording.records = .ok s.steps ∧
      (moves.foldl move s).Views recording.records s.steps := by
  obtain ⟨ss, hreplay, rfl⟩ := exists_replay_of_ofRecording h
  obtain ⟨rfl, -⟩ := Recording.eq_snapshots_of_replay hreplay
  have hcounted : (ofSteps recording.source (Recording.snapshots ∅ recording.records)).Counted :=
    counted_ofSteps _ (by rwa [Recording.length_snapshots])
  exact ⟨hreplay, views_snapshots (hcounted.moves moves) (steps_moves _ moves)⟩

/-- A call of a function without a name, in which an exception is told by its message alone, and a
return at the end. -/
def failing : Recording where
  source := none
  records := [
    { Record.blank with line := some 3, globals := some (Scope.ofList [("x", .list [])]) },
    { Record.blank with event := some .call, funcName := some "" },
    { Record.blank with event := some .leave, exception := some "boom" },
    { Record.blank with event := some .leave }]

theorem failing_views :
    let s := ofSteps none (Recording.snapshots ∅ failing.records)
    let walked := [.goTo 7, .previous, .previous].foldl move s
    ofRecording (some 4) failing = .ok s ∧ failing.records.length < UInt64.size ∧
      walked.Views failing.records s.steps ∧ s.status = .executing 3 ∧
      walked.status = .calling "anonymous" ∧ (walked.move .next).status = .raised "boom" ∧
      ((walked.move .next).move .next).status = .completed := by
  intro s walked
  have hreplay : Recording.replay none failing.records =
      .ok (Recording.snapshots ∅ failing.records) :=
    Recording.replay_of_no_dangling (by decide)
  have hsession : ofRecording (some 4) failing = .ok s := by
    have hlimit : Recording.replay (some 4) failing.records = .ok _ := hreplay
    rw [ofRecording, hlimit]
    rfl
  exact ⟨hsession, by decide, (views_of_ofRecording hsession (by decide) _).2, by decide, by decide,
    by decide, by decide⟩

end Session
end Retrace

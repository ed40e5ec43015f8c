import Retrace.Document
import Retrace.Proofs.Replay.Settled
import Retrace.Proofs.Session.Views

/-! Documents as recordings. A document carries its snapshots under a name in which a recording has
its steps, so it is a recording as well; replayed, it gives its own snapshots again. -/
namespace Retrace.Document

/-- A document is read as the recording of its snapshots. -/
theorem recording_ofJson (d : Document) :
    Recording.ofJson d.toJson = .ok ⟨none, d.steps.map Snapshot.asRecord⟩ := by
  obtain ⟨version, generatedAt, totalSteps, source, steps⟩ := d
  have hlist : Recording.stepList (toJson ⟨version, generatedAt, totalSteps, source, steps⟩) =
      .ok (steps.map Snapshot.toJson) := by
    cases source <;> rfl
  have hsource : Recording.sourceText (toJson ⟨version, generatedAt, totalSteps, source, steps⟩) =
      none := by
    cases source <;> rfl
  simp only [Recording.ofJson, hlist, hsource, Recording.readSteps_snapshots, bind, Except.bind]
  rfl

/-- The document of an accepted recording is accepted in its turn, and its replay gives the same
snapshots, but for the values of the locals. -/
theorem replay_ofSession {limit : Option Nat} {recording : Recording} {s : Session}
    (h : Session.ofRecording limit recording = .ok s) (generatedAt : String) :
    ∃ again, Recording.ofJson (ofSession generatedAt s).toJson = .ok again ∧
      Recording.replay none again.records = .ok (s.steps.map Snapshot.withNullLocals) := by
  obtain ⟨ss, hreplay, rfl⟩ := Session.exists_replay_of_ofRecording h
  obtain ⟨rfl, haccepted⟩ := Recording.eq_snapshots_of_replay hreplay
  have hagain : Recording.snapshots ∅
      ((Recording.snapshots ∅ recording.records).map Snapshot.asRecord) =
        (Recording.snapshots ∅ recording.records).map Snapshot.withNullLocals :=
    Recording.snapshots_asRecord Memory.stored_empty rfl recording.records
  have haccepted' : ∀ t ∈ Recording.snapshots ∅
      ((Recording.snapshots ∅ recording.records).map Snapshot.asRecord), t.dangling? = none := by
    rw [hagain, List.forall_mem_map]
    exact fun s hs => Snapshot.dangling?_withNullLocals (haccepted s hs)
  exact ⟨_, recording_ofJson _,
    (Recording.replay_of_no_dangling haccepted').trans (congrArg Except.ok hagain)⟩

/-- A call with a local list, which returns with the message of an exception, and in the end a cell
that takes the number of the list. -/
def returning : Recording where
  source := some "f([1])"
  records :=
    let call : Activation := ⟨none, some "f", some (Scope.ofList [("xs", .list [.bool true])]),
      some ["xs", "ys", "xs"], none, none⟩
    [{ Record.blank with
        event := some .call, globals := some (Scope.ofList [("b", .mapping []), ("a", .null)])
        stack := some [call, { call with order := none }] },
      { Record.blank with
        event := some .leave, stack := some [call], exception := some "boom" },
      { Record.blank with
        event := some .leave, order := some [], stack := some [call]
        heap := some (SortedMap.ofList [(1, .list [.ref 2]), (2, .list [])]) }]

theorem returning_again : ∃ s, Session.ofRecording (some 3) returning = .ok s ∧
    (∃ again, Recording.ofJson (ofSession "" s).toJson = .ok again ∧
      Recording.replay none again.records = .ok (s.steps.map Snapshot.withNullLocals)) ∧
    s.steps.map Snapshot.withNullLocals ≠ s.steps := by
  have hreplay : Recording.replay (some 3) returning.records =
      .ok (Recording.snapshots ∅ returning.records) :=
    Recording.replay_of_no_dangling (by decide)
  have hsession : Session.ofRecording (some 3) returning =
      .ok (Session.ofSteps returning.source (Recording.snapshots ∅ returning.records)) := by
    rw [Session.ofRecording, hreplay]
    rfl
  exact ⟨_, hsession, replay_ofSession hsession "", by decide⟩

end Retrace.Document

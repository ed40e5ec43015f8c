import Retrace.Session.Cursor
import Retrace.Session.Status
import Retrace.Snapshot.Replay

/-! A session: the snapshots of a recording and a cursor over them. -/
namespace Retrace

structure Session where
  source : Option String
  steps : List Snapshot
  cursor : Cursor

namespace Session

def ofSteps (source : Option String) (steps : List Snapshot) : Session :=
  ⟨source, steps, .start steps.length.toUInt64⟩

def ofRecording (limit : Option Nat) (recording : Recording) : Except ReplayError Session :=
  ofSteps recording.source <$> Recording.replay limit recording.records

def total (s : Session) : Nat := s.steps.length

def step? (s : Session) (index : UInt64) : Option Snapshot := s.steps[index.toNat]?

def current? (s : Session) : Option Snapshot := s.step? s.cursor.index

def previous? (s : Session) : Option Snapshot := s.cursor.previousIndex?.bind s.step?

def next? (s : Session) : Option Snapshot := s.cursor.nextIndex?.bind s.step?

def status (s : Session) : Status := .at? s.current? s.cursor.atEnd

def move (s : Session) (m : Move) : Session := { s with cursor := s.cursor.move m }

end Session
end Retrace

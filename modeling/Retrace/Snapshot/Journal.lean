import Retrace.Snapshot.Replay

/-! The journal of a replay: what it has done, in order. -/
namespace Retrace

/-- One thing that was done. -/
inductive Notice
  | parsed (steps : Nat)
  | replaying (steps : Nat)
  | supplied (step cells : Nat)
  | forgot (identities : Nat)
  | interned (shape : String) (id : HeapId)
  | replayed (steps cells : Nat)
  | opened (steps : Nat)

namespace Notice

def level : Notice → String
  | .interned _ _ => "TRACE"
  | .opened _ => "INFO"
  | _ => "DEBUG"

def text : Notice → String
  | .parsed steps => "Parsed " ++ toString steps ++ " raw steps"
  | .replaying steps => "Normalizing " ++ toString steps ++ " raw steps"
  | .supplied step cells =>
    "Step " ++ toString step ++ " supplies " ++ toString cells ++ " heap objects"
  | .forgot identities =>
    "Forgetting " ++ toString identities ++ " identities replaced by an upstream heap"
  | .interned shape id => "Interned new " ++ shape ++ " as heap object " ++ toString id
  | .replayed steps cells =>
    "Normalized " ++ toString steps ++ " steps, " ++ toString cells ++ " heap objects"
  | .opened steps => "Opened session with " ++ toString steps ++ " steps"

def line (n : Notice) : String := n.level ++ " " ++ n.text

end Notice

def Cell.noun : Cell → String
  | .list _ => "list"
  | .mapping _ => "mapping"
  | .function _ _ => "function"
  | .object _ _ => "instance"

namespace Recording

/-- The notices of a record. Numbers are given out in order and their cells stay, so the cells made
are those from the counter after the merge up to the counter at the end. -/
def notices (m : Memory) (index : Nat) (r : Record) : List Notice :=
  let merged := Snapshot.arrive m r
  let after := (Snapshot.ofRecord m r).2
  let merging := match r.heap with
    | none => []
    | some supplied =>
      let forgotten := m.interner.table.length - merged.interner.table.length
      .supplied index supplied.size :: if forgotten = 0 then [] else [.forgot forgotten]
  let first := merged.interner.next
  let made := (List.range (after.interner.next - first)).filterMap fun i =>
    let id := (first + i).toUInt64
    (after.heap.get? id).map fun cell => .interned cell.noun id
  merging ++ made

def journalFrom (m : Memory) (index : Nat) : List Record → List Notice
  | [] => [.replayed index m.heap.size]
  | r :: rest =>
    let (s, m') := Snapshot.ofRecord m r
    notices m index r ++ if s.dangling?.isSome then [] else journalFrom m' (index + 1) rest

def journal (limit : Option Nat) (records : List Record) : List Notice :=
  match limit with
  | some limit => if limit < records.length then [] else pass
  | none => pass
where
  pass : List Notice := .replaying records.length :: journalFrom ∅ 0 records

end Recording
end Retrace

import Retrace.Proofs.Replay.CumulativeHeap

/-! Cells that come along although they are known. As long as numbers last, a record may bring any
part of the heap in front of it along once more: memory stays what it was, and so does each snapshot
from there on. Once the counter has started over this fails. -/
namespace Retrace

namespace Memory

variable {m : Memory} {records : List Record}

/-- All numbers on the heap stay reserved all along a recording. -/
theorem Reserved.after (h : m.Reserved) (hstored : Stored ∅ m) (records : List Record) :
    (m.after records).Reserved := by
  induction records generalizing m with
  | nil => exact h
  | cons r rest ih =>
    obtain ⟨hgrows, hstored'⟩ := ofRecord_grows hstored r
    rw [Snapshot.arrive_eq] at hgrows
    exact ih (hgrows.reserved (h.merge r.supplied)) hstored'

end Memory

namespace Recording

open Memory

variable {records : List Record}

end Recording
end Retrace

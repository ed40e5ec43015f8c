import Retrace.Proofs.Replay.Run
import Retrace.Proofs.Snapshot.Recorded
import Retrace.Proofs.Snapshot.Search

/-! Snapshots replayed as records. What a replay fills in or overrules is settled in its snapshots:
replayed in their turn they come out as they went in, but for the locals, which no record has from
a snapshot. Their heaps need nothing new, for a snapshot brings along all cells there are. -/
namespace Retrace

namespace Slot

private theorem isComposite_datum (s : Slot) : s.datum.isComposite = false := by
  cases s <;> rfl

private theorem slot_datum (s : Slot) : s.datum.slot = s := by
  cases s <;> rfl

end Slot

namespace Memory

/-- Values that need no cell leave memory alone. -/
theorem encodeBindings_of_atoms (m : Memory) {entries : List (String × Datum)}
    (h : ∀ e ∈ entries, e.2.isComposite = false) :
    m.encodeBindings entries = (SortedMap.ofList (entries.map fun e => (e.1, e.2.slot)), m) := by
  have hentries : m.encodeEntries entries = (entries.map fun e => (e.1, e.2.slot), m) := by
    induction entries with
    | nil => rfl
    | cons e entries ih =>
      rw [List.forall_mem_cons] at h
      simp only [encodeEntries, encode_of_atom m h.1, ih h.2, List.map_cons]
  rw [encodeBindings, hentries]

private theorem names_encodeEntries (m : Memory) (entries : List (String × Datum)) :
    (m.encodeEntries entries).1.map Prod.fst = entries.map Prod.fst := by
  rw [encodeEntries_eq]
  refine List.map_fst_zip ?_
  rw [length_encodeItems, List.length_map, List.length_map]

/-- The names that are bound are those of the values. -/
theorem map_encodeBindings {β : Type} (m : Memory) (entries : List (String × Datum)) (b : β) :
    ((m.encodeBindings entries).1.map fun _ => b) =
      SortedMap.ofList (entries.map fun e => (e.1, b)) := by
  have hnames := congrArg (List.map fun name => (name, b)) (m.names_encodeEntries entries)
  rw [List.map_map, List.map_map] at hnames
  rw [encodeBindings, SortedMap.map_ofList]
  exact congrArg SortedMap.ofList hnames

end Memory

namespace Frame

def withNullLocals (f : Frame) : Frame := { f with locals := f.locals.map fun _ => .null }

/-- The frames of a whole stack: each binds the names of its order, and the innermost one runs
unless `idle`. -/
inductive Stacked (idle : Bool) : List Frame → Prop
  | nil : Stacked idle []
  | cons {f : Frame} {rest : List Frame}
      (hlocals : f.withNullLocals.locals = SortedMap.ofList (f.order.map fun name => (name, .null)))
      (hactive : f.highlighted = (rest.isEmpty && !idle)) (hrest : Stacked idle rest) :
      Stacked idle (f :: rest)

private theorem stacked_ofStack (idle : Bool) (m : Memory) (position : Nat)
    (calls : List Activation) :
    Stacked idle (ofStack idle m position calls).1 := by
  induction calls generalizing m position with
  | nil => exact .nil
  | cons a rest ih =>
    rw [ofStack_cons]
    refine .cons ?_ ?_ (ih _ _)
    · have hlocals := m.map_encodeBindings a.entries Slot.null
      rw [Activation.entries, List.map_map] at hlocals
      exact hlocals
    · cases rest <;> rfl

private theorem ofActivation_asActivation {f : Frame}
    (hlocals : f.withNullLocals.locals = SortedMap.ofList (f.order.map fun name => (name, .null)))
    (m : Memory) (position : Nat) :
    ofActivation m f.asActivation position f.highlighted = (f.withNullLocals, m) := by
  have hentries : m.encodeBindings f.asActivation.entries = (f.withNullLocals.locals, m) := by
    rw [hlocals, Memory.encodeBindings_of_atoms, Activation.entries, List.map_map]
    · rfl
    · intro e he
      obtain ⟨name, -, rfl⟩ := List.mem_map.1 he
      rfl
  have hframe : ofActivation m f.asActivation position f.highlighted =
      ({ f with locals := (m.encodeBindings f.asActivation.entries).1 },
        (m.encodeBindings f.asActivation.entries).2) := rfl
  rw [hframe, hentries]
  rfl

private theorem ofStack_asActivation {idle : Bool} {frames : List Frame} (h : Stacked idle frames)
    (m : Memory) (position : Nat) :
    ofStack idle m position (frames.map asActivation) = (frames.map withNullLocals, m) := by
  induction h generalizing position with
  | nil => rfl
  | @cons f rest hlocals hactive _ ih =>
    have hframe := ofActivation_asActivation hlocals m position
    rw [hactive] at hframe
    rw [List.map_cons, ofStack, List.isEmpty_map, hframe]
    simp only [ih, List.map_cons]

end Frame

namespace Snapshot

def withNullLocals (s : Snapshot) : Snapshot := { s with stack := s.stack.map Frame.withNullLocals }

/-- What a replay sees to: a message makes an exception of a step, globals are shown in some order,
and the frames are those of a whole stack. -/
structure Settled (s : Snapshot) : Prop where
  raise_of_message : s.exception.isSome = true → s.event = .raise
  globals_of_no_order : s.order = [] → s.globals.toList = []
  stacked : Frame.Stacked (s.event = .leave) s.stack

private theorem settled_ofRecord (m : Memory) (r : Record) : (ofRecord m r).1.Settled where
  raise_of_message h := if_pos h
  globals_of_no_order h := by
    have horder : r.globalOrder = [] := h
    have hentries : r.bindings.entries = [] := by
      rw [Record.globalOrder] at horder
      split at horder
      · cases horder
      · exact List.map_eq_nil_iff.1 horder
    have hglobals : (ofRecord m r).1.globals = ((arrive m r).encodeBindings r.bindings.entries).1 :=
      rfl
    rw [hglobals, hentries]
    rfl
  stacked := Frame.stacked_ofStack _ _ _ _

private theorem entries_asRecord (s : Snapshot) :
    s.asRecord.bindings.entries = s.globals.toList.map fun e => (e.1, e.2.datum) :=
  Scope.entries_ofBindings s.globals

private theorem encodeBindings_asRecord (m : Memory) (s : Snapshot) :
    m.encodeBindings s.asRecord.bindings.entries = (s.globals, m) := by
  have hatom : ∀ e ∈ s.asRecord.bindings.entries, e.2.isComposite = false := by
    intro e he
    rw [entries_asRecord] at he
    obtain ⟨entry, -, rfl⟩ := List.mem_map.1 he
    exact entry.2.isComposite_datum
  have hslots : (s.asRecord.bindings.entries.map fun e => (e.1, e.2.slot)) = s.globals.toList := by
    have hid : (fun e : String × Datum => (e.1, e.2.slot)) ∘
        (fun e : String × Slot => (e.1, e.2.datum)) = id :=
      funext fun e => Prod.ext rfl e.2.slot_datum
    rw [entries_asRecord, List.map_map, hid, List.map_id]
  rw [Memory.encodeBindings_of_atoms m hatom, hslots, SortedMap.ofList_toList]

namespace Settled

variable {s : Snapshot}

private theorem finalEvent_asRecord (h : s.Settled) : s.asRecord.finalEvent = s.event := by
  rw [Record.finalEvent]
  split
  · next hmessage => exact (h.raise_of_message hmessage).symm
  · rfl

private theorem globalOrder_asRecord (h : s.Settled) : s.asRecord.globalOrder = s.order := by
  cases horder : s.order with
  | nil =>
    have hrecord : s.asRecord.order = some [] := congrArg some horder
    rw [Record.globalOrder, hrecord, Scope.names, entries_asRecord, h.globals_of_no_order horder]
    rfl
  | cons name names =>
    have hrecord : s.asRecord.order = some (name :: names) := congrArg some horder
    rw [Record.globalOrder, hrecord]

/-- A settled snapshot comes out as it went in, where it has all cells that were there. -/
theorem ofRecord_asRecord (h : s.Settled) {m : Memory}
    (hheap : ∀ id, m.heap.contains id = true → s.heap.contains id = true) :
    ofRecord m s.asRecord = (s.withNullLocals, m.merge s.heap) := by
  have hmerge : (m.merge s.heap).heap = s.heap := SortedMap.overlay_eq_right hheap
  have hstack : Frame.ofActivations (m.merge s.heap) s.event (s.stack.map Frame.asActivation) =
      (s.stack.map Frame.withNullLocals, m.merge s.heap) :=
    Frame.ofStack_asActivation h.stacked _ _
  have hcalls : s.asRecord.stack.getD [] = s.stack.map Frame.asActivation := rfl
  have harrive : arrive m s.asRecord = m.merge s.heap := rfl
  simp only [ofRecord, harrive, encodeBindings_asRecord, hcalls, hstack, h.finalEvent_asRecord,
    h.globalOrder_asRecord, hmerge]
  rfl

end Settled

/-- Locals that are `null` point nowhere. -/
theorem mem_bindings_of_ref {s : Snapshot} {id : HeapId} (h : .ref id ∈ s.withNullLocals.bindings) :
    .ref id ∈ s.bindings := by
  rcases List.mem_append.1 h with h | h
  · exact List.mem_append_left _ h
  · obtain ⟨g, hg, hslot⟩ := List.mem_flatMap.1 h
    obtain ⟨f, -, rfl⟩ := List.mem_map.1 hg
    obtain ⟨entry, hentry, heq⟩ := List.mem_map.1 hslot
    obtain ⟨_, -, rfl⟩ := List.mem_map.1 hentry
    cases heq

theorem dangling?_withNullLocals {s : Snapshot} (h : s.dangling? = none) :
    s.withNullLocals.dangling? = none := by
  obtain ⟨cells, hclosed, hroots⟩ := (dangling?_eq_none_iff s).1 h
  refine (dangling?_eq_none_iff _).2 ⟨cells, hclosed, fun id hid => ?_⟩
  exact hroots id (mem_bindings_of_ref hid)

end Snapshot

namespace Recording

/-- The snapshots of records, replayed as records from the same heap. -/
theorem snapshots_asRecord {m m' : Memory} (h : Memory.Stored ∅ m) (hheap : m'.heap = m.heap)
    (records : List Record) :
    snapshots m' ((snapshots m records).map Snapshot.asRecord) =
      (snapshots m records).map Snapshot.withNullLocals := by
  induction records generalizing m m' with
  | nil => rfl
  | cons r rest ih =>
    obtain ⟨hgrows, hstored⟩ := Memory.ofRecord_grows h r
    have hsettled := Snapshot.settled_ofRecord m r
    have hcontains : ∀ id, m'.heap.contains id = true →
        (Snapshot.ofRecord m r).1.heap.contains id = true := by
      intro id hid
      refine hgrows.contains id ?_
      rw [Snapshot.arrive_eq, Memory.contains_merge]
      exact .inr (hheap ▸ hid)
    rw [snapshots, List.map_cons, List.map_cons, snapshots, hsettled.ofRecord_asRecord hcontains]
    exact congrArg _ (ih hstored (SortedMap.overlay_eq_right hcontains))

end Recording
end Retrace

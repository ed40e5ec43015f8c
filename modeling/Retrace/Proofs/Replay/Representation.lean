import Retrace.Proofs.Memory.Canonical
import Retrace.Proofs.Recording.Origins

/-! Snapshots show what was recorded: each bound slot leads to cells that spell out the recorded
value in the heap of its own step. -/
namespace Retrace

/-- A slot that leads to a value in a heap: an atom by itself, numbers up to sameness, a composite
by a reference to a cell of its shape whose parts lead to its own. -/
inductive Represents (heap : Heap) : Datum → Slot → Prop
  | null : Represents heap .null .null
  | bool (b : Bool) : Represents heap (.bool b) (.bool b)
  | number {m n : Number} (h : m.same n = true) : Represents heap (.number m) (.number n)
  | string (s : String) : Represents heap (.string s) (.string s)
  | ref (id : HeapId) : Represents heap (.ref id) (.ref id)
  | list {items : List Datum} {slots : List Slot} {id : HeapId}
      (hcell : heap.get? id = some (.list slots))
      (hparts : List.Forall₂ (Represents heap) items slots) :
      Represents heap (.list items) (.ref id)
  | mapping {entries : List (String × Datum)} {slots : Slots} {id : HeapId}
      (hcell : heap.get? id = some (.mapping slots))
      (hnames : entries.map Prod.fst = slots.map Prod.fst)
      (hparts : List.Forall₂ (Represents heap) (entries.map Prod.snd) (slots.map Prod.snd)) :
      Represents heap (.mapping entries) (.ref id)
  | function {name source : String} {id : HeapId}
      (hcell : heap.get? id = some (.function name (Datum.digest source))) :
      Represents heap (.function name source) (.ref id)
  | object {className : String} {fields : List (String × Datum)} {slots : Slots} {id : HeapId}
      (hcell : heap.get? id = some (.object className slots))
      (hnames : fields.map Prod.fst = slots.map Prod.fst)
      (hparts : List.Forall₂ (Represents heap) (fields.map Prod.snd) (slots.map Prod.snd)) :
      Represents heap (.object className fields) (.ref id)

/-- A snapshot in which all globals and all declared locals that a record binds are represented. -/
structure Snapshot.Faithful (r : Record) (s : Snapshot) : Prop where
  globals : ∀ name d, r.bindings.get? name = some d →
    ∃ slot, s.globals.get? name = some slot ∧ Represents s.heap d slot
  locals : List.Forall₂ (fun a f => ∀ name ∈ a.declared, ∀ d, a.scope.get? name = some d →
    ∃ slot, f.locals.get? name = some slot ∧ Represents s.heap d slot) r.calls s.stack

private theorem represents_of_atom {heap : Heap} {d : Datum} {s : Slot} (h : d.isComposite = false)
    (hs : d.slot.same s = true) : Represents heap d s := by
  cases d with
  | number m =>
    cases s with
    | number n => exact .number hs
    | _ => cases hs
  | null => cases Slot.eq_of_same hs rfl; exact .null
  | bool b => cases Slot.eq_of_same hs rfl; exact .bool b
  | string s => cases Slot.eq_of_same hs rfl; exact .string s
  | ref id => cases Slot.eq_of_same hs rfl; exact .ref id
  | _ => cases h

/-- The cell of a composite represents it if its slots represent the parts. -/
theorem represents_of_cell {heap : Heap} {d : Datum} {slots : List Slot} {id : HeapId}
    (h : d.isComposite = true) (hcell : heap.get? id = some (d.cell slots))
    (hparts : List.Forall₂ (Represents heap) d.parts slots) : Represents heap d (.ref id) := by
  have hlength := hparts.length_eq
  cases d with
  | list items => exact .list hcell hparts
  | function name source => exact .function hcell
  | mapping entries =>
    rw [Datum.parts, List.length_map] at hlength
    refine .mapping hcell (List.map_fst_zip ?_).symm ?_
    · rw [List.length_map]
      exact Nat.le_of_eq hlength
    · rw [List.map_snd_zip (by rw [List.length_map]; exact Nat.le_of_eq hlength.symm)]
      exact hparts
  | object className fields =>
    rw [Datum.parts, List.length_map] at hlength
    refine .object hcell (List.map_fst_zip ?_).symm ?_
    · rw [List.length_map]
      exact Nat.le_of_eq hlength
    · rw [List.map_snd_zip (by rw [List.length_map]; exact Nat.le_of_eq hlength.symm)]
      exact hparts
  | _ => cases h

namespace Memory

/-- In sound memory a slot that stands for a value represents it. -/
theorem Sound.represents {data : Set Datum} {m : Memory} (h : Sound data ∅ m)
    (htelling : Datum.Telling data) {d : Datum} (hd : d ∈ data) {s : Slot}
    (hs : Stands m.interner.table d s) : Represents m.heap d s := by
  induction d using Datum.partsInduction generalizing s with
  | step d ih =>
    cases hs with
    | atom hatom hslot => exact represents_of_atom hatom hslot
    | cell hcomp hid =>
      obtain ⟨slots, hslots, hcell⟩ := h.built_of_mem htelling hd hcomp hid
      refine represents_of_cell hcomp hcell (forall₂_imp_mem hslots ?_)
      intro p hp slot _ hslot
      exact ih p hp (htelling.part d hd p hp) hslot

end Memory

namespace Recording

variable {records : List Record}

/-- What a record binds is represented in its own snapshot. -/
theorem ofRecord_faithful (htelling : Datum.Telling (values records)) {m : Memory}
    (h : Memory.Sound (values records) ∅ m) {r : Record} (hr : r ∈ records)
    (hnext : (Snapshot.ofRecord m r).2.interner.next < UInt64.size) :
    (Snapshot.ofRecord m r).1.Faithful r := by
  obtain ⟨hsound, hshows⟩ :=
    Memory.ofRecord_sound h (fun d hd p hp => ⟨r, hr, d, hd, hp⟩) hnext
  have hrepresents {d : Datum} (hd : d ∈ r.data) {s : Slot}
      (hs : Memory.Stands (Snapshot.ofRecord m r).2.interner.table d s) :
      Represents (Snapshot.ofRecord m r).1.heap d s :=
    hsound.represents htelling (mem_values_of_mem_data hr hd) hs
  constructor
  · intro name d hd
    have hentry := (Scope.get?_eq_some_iff _ _ _).1 hd
    have hmem : d ∈ r.data := List.mem_append_left _ (List.mem_map_of_mem hentry)
    obtain ⟨slot, hslot, hs⟩ := Scope.get?_of_binds hshows.globals hd
    exact ⟨slot, hslot, hrepresents hmem hs⟩
  · have hcalls := (List.forall₂_and_left r.calls _).2 ⟨fun a ha => ha, hshows.stack⟩
    refine hcalls.imp fun a f ⟨ha, hbinds⟩ name hname d hd => ?_
    have hentry : (name, d) ∈ a.entries := Activation.mem_entries.2 ⟨hname, by rw [hd]; rfl⟩
    have hmem : d ∈ r.data := List.mem_append_right _
      (List.mem_flatMap.2 ⟨a, ha, List.mem_map_of_mem hentry⟩)
    obtain ⟨slot, hslot, hs⟩ := Activation.get?_of_binds hbinds hname hd
    exact ⟨slot, hslot, hrepresents hmem hs⟩

/-- An accepted replay of a recording that was read is faithful in every snapshot, whatever cells
come along, if the keys of its callables and the texts of its numbers tell them apart. What is read
from a text is settled. -/
theorem replay_faithful {v : Json} {recording : Recording} {limit : Option Nat}
    {ss : List Snapshot} (hread : ofJson v.settle = .ok recording)
    (hreplay : replay limit recording.records = .ok ss) (hrange : InRange recording.records)
    (hcallables : Datum.CallablesApart (values recording.records))
    (hnumbers : Datum.NumbersApart (values recording.records)) :
    List.Forall₂ Snapshot.Faithful recording.records ss := by
  have htelling : Datum.Telling (values recording.records) :=
    ⟨decoded_of_ofJson hread, fun _ hd _ hp => mem_values_of_mem_parts hd hp, hcallables, hnumbers⟩
  rw [(eq_snapshots_of_replay hreplay).1]
  refine List.forall₂_iff_get.2 ⟨(length_snapshots _ _).symm, fun k hk hk' => ?_⟩
  have hr := List.getElem?_eq_getElem hk
  have hs := getElem?_snapshots ∅ recording.records k
  rw [List.getElem?_eq_getElem hk', hr, Option.map_some, Option.some.injEq] at hs
  rw [List.get_eq_getElem, List.get_eq_getElem, hs]
  exact ofRecord_faithful htelling (sound_before (Set.Subset.refl _) hrange k)
    (List.getElem_mem hk) (hrange.next_lt hr)

def recordsOf (v : Json) : List Record :=
  match ofJson v with
  | .ok recording => recording.records
  | .error _ => []

/-- A list with a callable is bound, and bound again when a cell comes along under the number of the
callable, both as a global and in a call. -/
def sharing : Json :=
  let list := Json.array
    [.number (.unsigned 7), .object [("$function", .object [("name", .string "f")])]]
  .array
    [.object [("globals", .object [("a", list)])],
      .object
        [("globals", .object [("a", list),
            ("b", .object [("kind", .string "ref"), ("heap_id", .number (.unsigned 2))])]),
          ("heap", .object
            [("2", .object [("type", .string "LIST"), ("elements", .array [.null])])]),
          ("stack_to_render", .array [.object [("locals", .object [("x", list)]),
            ("ordered_varnames", .array [.string "y", .string "x"])]])]]

theorem sharing_faithful : ∃ recording ss, ofJson sharing.settle = .ok recording ∧
    replay none recording.records = .ok ss ∧ InRange recording.records ∧
    List.Forall₂ Snapshot.Faithful recording.records ss := by
  have hread : ofJson sharing.settle = .ok ⟨none, recordsOf sharing⟩ := rfl
  have hreplay : replay none (recordsOf sharing) = .ok (snapshots ∅ (recordsOf sharing)) :=
    replay_of_no_dangling (by decide)
  have hrange : InRange (recordsOf sharing) := by decide
  let list := Datum.list [.number (.unsigned 7), .function "f" ""]
  have hvalues : ((recordsOf sharing).flatMap fun r => r.data.flatMap Datum.visits) =
      list.visits ++ list.visits ++ [.ref 2, .null] ++ list.visits := rfl
  have hfunction {name source : String} (h : .function name source ∈ values (recordsOf sharing)) :
      name = "f" ∧ source = "" := by
    rw [mem_values_iff, hvalues] at h
    simpa [list, Datum.visits, Datum.visitItems] using h
  have hnumber {n : Number} (h : .number n ∈ values (recordsOf sharing)) : n = .unsigned 7 := by
    rw [mem_values_iff, hvalues] at h
    simpa [list, Datum.visits, Datum.visitItems] using h
  refine ⟨_, _, hread, hreplay, hrange, replay_faithful hread hreplay hrange ?_ ?_⟩
  · intro name source name' source' h h' _
    rw [(hfunction h).1, (hfunction h).2, (hfunction h').1, (hfunction h').2]
    exact ⟨rfl, rfl⟩
  · intro m n h h' _
    rw [hnumber h, hnumber h']
    rfl

end Recording
end Retrace

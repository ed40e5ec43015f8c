import Mathlib.Data.Option.Basic
import Retrace.Proofs.Memory.Known
import Retrace.Proofs.Replay.Run

/-! What a snapshot shows, and in which order. Bindings are sorted by name; the order in which they
are shown is a list of names of its own, which the record declares or its bindings imply. -/
namespace Retrace

/-- The slots of named values, one for each and in their order. -/
def Lists (R : Datum → Slot → Prop) (entries : List (String × Datum)) (slots : Slots) : Prop :=
  List.Forall₂ (fun e p => p.1 = e.1 ∧ R e.2 p.2) entries slots

/-- The globals that are shown at a record: those that are bound among the declared names, which may
be repeated; or all, as they were bound, if no names are declared. -/
def Record.displayed (r : Record) : List (String × Datum) :=
  match r.order with
  | some (name :: names) =>
    (name :: names).filterMap fun name => (r.bindings.get? name).map fun d => (name, d)
  | _ => r.bindings.entries

/-- A frame that shows a call at a position from the outermost. -/
structure Frame.Displays (R : Datum → Slot → Prop) (position : Nat) (a : Activation) (f : Frame) :
    Prop where
  locals : Lists R a.entries f.localsInOrder
  id : f.id = a.frameId.getD (position + 1).toUInt64
  parents : f.parents = a.parents.getD []
  identity : f.identity = a.identity.getD ("frame_" ++ toString position)

/-- A snapshot that shows the globals and the calls of a record. -/
structure Snapshot.Displays (R : Datum → Slot → Prop) (r : Record) (s : Snapshot) : Prop where
  names : ∀ name, s.globals.contains name = true ↔ name ∈ r.bindings.names
  globals : Lists R r.displayed s.globalsInOrder
  depth : s.stack.length = r.calls.length
  frames : ∀ (k : Nat) (a : Activation) (f : Frame), r.calls[k]? = some a →
    s.stack[k]? = some f → f.Displays R k a
  highlighted : ∀ (k : Nat) (f : Frame), s.stack[k]? = some f →
    (f.highlighted = true ↔ k + 1 = s.stack.length ∧ r.finalEvent ≠ .leave)
  active : s.activeFrame? = if r.finalEvent = .leave then none else s.stack.getLast?
  event : s.event = r.finalEvent

variable {R : Datum → Slot → Prop}

/-! ### Names in order -/

/-- Bindings that agree with a look-up of values on the names of a list are shown like it. -/
theorem lists_inOrder {names : List String} {lookup : String → Option Datum}
    {bindings : SortedMap String Slot}
    (h : ∀ name ∈ names, Option.Rel R (lookup name) (bindings.get? name)) :
    Lists R (names.filterMap fun name => (lookup name).map fun d => (name, d))
      (inOrder names bindings) := by
  induction names with
  | nil => exact .nil
  | cons name names ih =>
    rw [List.forall_mem_cons] at h
    have hrest := ih h.2
    rw [inOrder, List.filterMap_cons, List.filterMap_cons]
    generalize hlookup : lookup name = d?, hslot : bindings.get? name = slot? at h
    cases h.1 with
    | none => exact hrest
    | some hd => exact .cons ⟨rfl, hd⟩ hrest

/-- The entries of a scope are its names, each looked up. -/
theorem Scope.filterMap_names (s : Scope) :
    s.names.filterMap (fun name => (s.get? name).map fun d => (name, d)) = s.entries := by
  rw [Scope.names, List.filterMap_map]
  refine (List.filterMap_congr fun e he => ?_).trans List.filterMap_some
  exact congrArg (Option.map _) ((Scope.get?_eq_some_iff s e.1 e.2).2 he)

private theorem Scope.mem_names_iff {s : Scope} {name : String} :
    name ∈ s.names ↔ ∃ d, s.get? name = some d := by
  simp only [names, List.mem_map, Prod.exists, exists_and_right, exists_eq_right,
    get?_eq_some_iff]

/-! ### Globals -/

namespace Snapshot

variable {r : Record} {s : Snapshot}

private theorem Shows.rel_globals (h : s.Shows R r) (name : String) :
    Option.Rel R (r.bindings.get? name) (s.globals.get? name) := by
  cases hd : r.bindings.get? name with
  | some d =>
    obtain ⟨slot, hslot, hR⟩ := Scope.get?_of_binds h.globals hd
    rw [hslot]
    exact .some hR
  | none =>
    cases hslot : s.globals.get? name with
    | none => exact .none
    | some slot =>
      obtain ⟨d, hmem, -⟩ := h.globals.exists_value hslot
      rw [← Scope.get?_eq_some_iff, hd] at hmem
      cases hmem

theorem Shows.names (h : s.Shows R r) (name : String) :
    s.globals.contains name = true ↔ name ∈ r.bindings.names := by
  rw [Scope.mem_names_iff, SortedMap.contains_iff]
  have hrel := h.rel_globals name
  generalize r.bindings.get? name = d?, s.globals.get? name = slot? at hrel
  cases hrel with
  | none => exact ⟨nofun, nofun⟩
  | some _ => exact ⟨fun _ => ⟨_, rfl⟩, fun _ => ⟨_, rfl⟩⟩

theorem Shows.globalsInOrder (h : s.Shows R r) (horder : s.order = r.globalOrder) :
    Lists R r.displayed s.globalsInOrder := by
  have hdisplayed : r.displayed =
      r.globalOrder.filterMap fun name => (r.bindings.get? name).map fun d => (name, d) := by
    unfold Record.displayed Record.globalOrder
    rcases r.order with _ | _ | ⟨name, names⟩
    · exact (Scope.filterMap_names _).symm
    · exact (Scope.filterMap_names _).symm
    · rfl
  rw [hdisplayed, Snapshot.globalsInOrder, horder]
  exact lists_inOrder fun name _ => h.rel_globals name

end Snapshot

/-! ### Frames -/

namespace Frame

private theorem localsInOrder_of_binds {a : Activation} {f : Frame} (h : Binds R a.entries f.locals)
    (horder : f.order = a.declared) : Lists R a.entries f.localsInOrder := by
  have hentries : a.entries = a.declared.filterMap fun name =>
      (some ((a.scope.get? name).getD .null)).map fun d => (name, d) := by
    rw [Activation.entries, ← List.filterMap_eq_map]
    rfl
  rw [hentries, localsInOrder, horder]
  refine lists_inOrder fun name hname => ?_
  have hentry := Activation.mem_entries.2 ⟨hname, rfl⟩
  obtain ⟨slot, hslot, hR⟩ := h.get? hentry fun d' hd' => (Activation.mem_entries.1 hd').2.symm
  rw [hslot]
  exact .some hR

/-- The frame at a position is that of the call there; only the last one may be running. -/
theorem getElem?_ofStack (idle : Bool) (m : Memory) (position : Nat) (calls : List Activation)
    (k : Nat) : ∃ m', (ofStack idle m position calls).1[k]? =
      calls[k]?.map fun a =>
        (ofActivation m' a (position + k) (decide (k + 1 = calls.length) && !idle)).1 := by
  induction calls generalizing m position k with
  | nil => exact ⟨m, rfl⟩
  | cons a rest ih =>
    rw [ofStack_cons]
    cases k with
    | zero =>
      refine ⟨m, ?_⟩
      cases rest <;> simp
    | succ k =>
      obtain ⟨m', hm'⟩ := ih (m.encodeItems (a.entries.map Prod.snd)).2 (position + 1) k
      refine ⟨m', ?_⟩
      rw [List.getElem?_cons_succ, List.getElem?_cons_succ, hm', Nat.add_assoc, Nat.add_comm 1 k]
      simp only [List.length_cons, Nat.add_right_cancel_iff]

private theorem length_ofStack (idle : Bool) (m : Memory) (position : Nat)
    (calls : List Activation) : (ofStack idle m position calls).1.length = calls.length := by
  induction calls generalizing m position with
  | nil => rfl
  | cons a rest ih => rw [ofStack_cons, List.length_cons, ih, List.length_cons]

end Frame

namespace Snapshot

private theorem exists_call {m : Memory} {r : Record} {k : Nat} {f : Frame}
    (hf : (ofRecord m r).1.stack[k]? = some f) : ∃ m' a, r.calls[k]? = some a ∧
      f = (Frame.ofActivation m' a k
        (decide (k + 1 = r.calls.length) && !decide (r.finalEvent = .leave))).1 := by
  obtain ⟨m', hm'⟩ := Frame.getElem?_ofStack (decide (r.finalEvent = .leave))
    ((arrive m r).encodeBindings r.bindings.entries).2 0 r.calls k
  rw [Nat.zero_add] at hm'
  obtain ⟨a, ha, heq⟩ := Option.map_eq_some_iff.1 (hm'.symm.trans hf)
  exact ⟨m', a, ha, heq.symm⟩

private theorem highlighted_iff {m : Memory} {r : Record} {k : Nat} {f : Frame}
    (hf : (ofRecord m r).1.stack[k]? = some f) :
    f.highlighted = true ↔ k + 1 = (ofRecord m r).1.stack.length ∧ r.finalEvent ≠ .leave := by
  obtain ⟨m', a, -, rfl⟩ := exists_call hf
  have hlength : (ofRecord m r).1.stack.length = r.calls.length := Frame.length_ofStack _ _ _ _
  rw [hlength]
  simp [Frame.ofActivation]

/-- The frame that is running is the innermost one, unless its function returns. -/
theorem activeFrame?_ofRecord (m : Memory) (r : Record) : (ofRecord m r).1.activeFrame? =
    if r.finalEvent = .leave then none else (ofRecord m r).1.stack.getLast? := by
  rw [activeFrame?, find?_of_last fun k f hf => highlighted_iff hf]
  exact ite_not _ _ _

/-- A record is displayed by its snapshot, whatever memory it meets. -/
theorem Shows.displays {m : Memory} {r : Record} (h : (ofRecord m r).1.Shows R r) :
    (ofRecord m r).1.Displays R r where
  names := h.names
  globals := h.globalsInOrder rfl
  depth := Frame.length_ofStack _ _ _ _
  frames k a f ha hf := by
    obtain ⟨f', hf', hbinds⟩ := exists_getElem?_right h.stack ha
    cases hf.symm.trans hf'
    obtain ⟨m', a', ha', rfl⟩ := exists_call hf
    cases ha.symm.trans ha'
    exact ⟨Frame.localsInOrder_of_binds hbinds rfl, rfl, rfl, rfl⟩
  highlighted _ _ hf := highlighted_iff hf
  active := activeFrame?_ofRecord m r
  event := rfl

end Snapshot

namespace Recording

open Memory

/-- The snapshot of a record shows its globals and calls in the declared order, each name with the
slot that its value is encoded as, from then on and with nothing changed. -/
theorem replay_display {records : List Record} {limit : Option Nat} {ss : List Snapshot}
    (hreplay : replay limit records = .ok ss) {k : Nat} {r : Record} (hr : records[k]? = some r) :
    ∃ s, ss[k]? = some s ∧
      s.Displays (fun d slot => (before records (k + 1)).encode d =
        (slot, before records (k + 1))) r := by
  obtain rfl := (eq_snapshots_of_replay hreplay).1
  refine ⟨_, by rw [getElem?_snapshots, hr]; rfl, Snapshot.Shows.displays ?_⟩
  have hknows := encodeItems_knows (Snapshot.arrive (before records k) r) r.data
  rw [← Snapshot.ofRecord_memory, ← before_succ hr] at hknows
  refine Snapshot.ofRecord_shows (hknows.imp fun d slot hd => ?_)
  exact hd.encode_eq (stored_before records (k + 1)).distinct

/-- Declared names that are repeated or not bound, for globals and for a call; a second call that
declares none; and a return that an exception makes one. -/
def rearranged : List Record :=
  let list := Datum.list [.bool true]
  let outer : Activation :=
    ⟨none, none, some (Scope.ofList [("y", list), ("x", .null)]), some ["x", "z", "y", "x"],
      some [3], none⟩
  let inner : Activation :=
    ⟨some 9, none, some (Scope.ofList [("q", list), ("p", .list [list])]), none, none, some "h"⟩
  [{ Record.blank with
      event := some .leave
      globals := some (Scope.ofList [("b", list), ("a", .bool true)])
      order := some ["a", "c", "b", "a"]
      stack := some [outer, inner]
      exception := some "stopped" }]

theorem rearranged_display : ∃ ss r s, replay none rearranged = .ok ss ∧
    rearranged[0]? = some r ∧ ss[0]? = some s ∧
    s.Displays (fun d slot => (before rearranged 1).encode d = (slot, before rearranged 1)) r := by
  have hreplay : replay none rearranged = .ok (snapshots ∅ rearranged) :=
    replay_of_no_dangling (by decide)
  obtain ⟨s, hs, hdisplays⟩ := replay_display hreplay (k := 0) rfl
  exact ⟨_, _, s, hreplay, rfl, hs, hdisplays⟩

end Recording
end Retrace

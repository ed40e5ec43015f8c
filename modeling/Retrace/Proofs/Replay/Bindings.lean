import Retrace.Proofs.Lists
import Retrace.Proofs.Memory.Encoding
import Retrace.Snapshot.Replay

/-! What a snapshot binds. A record's values are encoded in one go, its globals first and then the
locals of each call from the outermost on, and each name is bound to the slot of its own value. -/
namespace Retrace

namespace Activation

def scope (a : Activation) : Scope := a.locals.getD ∅

/-- The names whose locals are shown. -/
def declared (a : Activation) : List String := a.order.getD a.scope.names

/-- The declared names with their values, `null` if they are unbound. -/
def entries (a : Activation) : List (String × Datum) :=
  a.declared.map fun name => (name, (a.scope.get? name).getD .null)

end Activation

namespace Record

def calls (r : Record) : List Activation := r.stack.getD []

/-- The values that are encoded at a record, in order. -/
def data (r : Record) : List Datum :=
  r.bindings.entries.map Prod.snd ++ r.calls.flatMap fun a => a.entries.map Prod.snd

end Record

/-- Bindings of exactly the named values, where each slot stands in a relation to a value of its
name. -/
structure Binds (R : Datum → Slot → Prop) (entries : List (String × Datum))
    (bindings : SortedMap String Slot) : Prop where
  exists_value : ∀ {name slot}, bindings.get? name = some slot →
    ∃ d, (name, d) ∈ entries ∧ R d slot
  exists_slot : ∀ e ∈ entries, ∃ slot, bindings.get? e.1 = some slot

/-- A snapshot whose globals and locals are those of a record. -/
structure Snapshot.Shows (R : Datum → Slot → Prop) (r : Record) (s : Snapshot) : Prop where
  globals : Binds R r.bindings.entries s.globals
  stack : List.Forall₂ (fun a f => Binds R a.entries f.locals) r.calls s.stack

/-- A value that a record binds, as a global or as a declared local, with the slot that a snapshot
has for it. -/
inductive Snapshot.Holds (r : Record) (s : Snapshot) (d : Datum) (slot : Slot) : Prop
  | global {name : String} (hd : r.bindings.get? name = some d)
      (hslot : s.globals.get? name = some slot)
  | inCall {k : Nat} {a : Activation} {f : Frame} {name : String} (ha : r.calls[k]? = some a)
      (hf : s.stack[k]? = some f) (hname : name ∈ a.declared) (hd : a.scope.get? name = some d)
      (hslot : f.locals.get? name = some slot)

variable {R R' : Datum → Slot → Prop}

theorem Binds.get? {entries : List (String × Datum)} {bindings : SortedMap String Slot}
    (h : Binds R entries bindings) {name : String} {d : Datum} (hd : (name, d) ∈ entries)
    (hunique : ∀ d', (name, d') ∈ entries → d' = d) :
    ∃ slot, bindings.get? name = some slot ∧ R d slot := by
  obtain ⟨slot, hslot⟩ := h.exists_slot _ hd
  obtain ⟨d', hd', hR⟩ := h.exists_value hslot
  exact ⟨slot, hslot, hunique d' hd' ▸ hR⟩

theorem Binds.imp {entries : List (String × Datum)} {bindings : SortedMap String Slot}
    (himp : ∀ d slot, R d slot → R' d slot) (h : Binds R entries bindings) :
    Binds R' entries bindings where
  exists_value hslot := by
    obtain ⟨d, hd, hR⟩ := h.exists_value hslot
    exact ⟨d, hd, himp d _ hR⟩
  exists_slot := h.exists_slot

theorem Snapshot.Shows.imp {r : Record} {s : Snapshot} (himp : ∀ d slot, R d slot → R' d slot)
    (h : s.Shows R r) : s.Shows R' r :=
  ⟨h.globals.imp himp, h.stack.imp fun _ _ => .imp himp⟩

/-- A scope binds no name twice. -/
theorem Scope.get?_eq_some_iff (s : Scope) (name : String) (d : Datum) :
    s.get? name = some d ↔ (name, d) ∈ s.entries :=
  lookup_iff_mem s.distinct

theorem Scope.unique {s : Scope} {name : String} {d d' : Datum} (h : s.get? name = some d)
    (h' : (name, d') ∈ s.entries) : d' = d := by
  rw [← Scope.get?_eq_some_iff, h] at h'
  exact (Option.some.inj h').symm

theorem Activation.mem_entries {a : Activation} {name : String} {d : Datum} :
    (name, d) ∈ a.entries ↔ name ∈ a.declared ∧ (a.scope.get? name).getD .null = d := by
  constructor
  · intro h
    obtain ⟨name', hname, heq⟩ := List.mem_map.1 h
    cases heq
    exact ⟨hname, rfl⟩
  · rintro ⟨hname, rfl⟩
    exact List.mem_map_of_mem hname

/-- A bound name that is declared has the slot of its value. -/
theorem Activation.get?_of_binds {a : Activation} {bindings : SortedMap String Slot}
    (h : Binds R a.entries bindings) {name : String} (hname : name ∈ a.declared) {d : Datum}
    (hd : a.scope.get? name = some d) : ∃ slot, bindings.get? name = some slot ∧ R d slot := by
  have hentry : (name, d) ∈ a.entries := Activation.mem_entries.2 ⟨hname, by rw [hd]; rfl⟩
  refine h.get? hentry fun d' hd' => ?_
  rw [← (Activation.mem_entries.1 hd').2, hd]
  rfl

theorem Scope.get?_of_binds {scope : Scope} {bindings : SortedMap String Slot}
    (h : Binds R scope.entries bindings) {name : String} {d : Datum}
    (hd : scope.get? name = some d) : ∃ slot, bindings.get? name = some slot ∧ R d slot :=
  h.get? ((Scope.get?_eq_some_iff _ _ _).1 hd) fun _ hd' => Scope.unique hd hd'

/-- What a snapshot shows of a record holds of each bound value with its slot. -/
theorem Snapshot.Shows.of_holds {r : Record} {s : Snapshot} (h : s.Shows R r) {d : Datum}
    {slot : Slot} (hholds : s.Holds r d slot) : R d slot := by
  cases hholds with
  | global hd hslot =>
    obtain ⟨slot', hslot', hR⟩ := Scope.get?_of_binds h.globals hd
    exact Option.some.inj (hslot'.symm.trans hslot) ▸ hR
  | @inCall k a f name ha hf hname hd hslot =>
    obtain ⟨hk, rfl⟩ := List.getElem?_eq_some_iff.1 ha
    obtain ⟨hk', rfl⟩ := List.getElem?_eq_some_iff.1 hf
    have hbinds : Binds R r.calls[k].entries s.stack[k].locals := h.stack.get hk hk'
    obtain ⟨slot', hslot', hR⟩ := Activation.get?_of_binds hbinds hname hd
    exact Option.some.inj (hslot'.symm.trans hslot) ▸ hR

private theorem forall₂_zip_names {entries : List (String × Datum)} {slots : List Slot}
    (h : List.Forall₂ R (entries.map Prod.snd) slots) :
    List.Forall₂ (fun e p => p.1 = e.1 ∧ R e.2 p.2) entries
      ((entries.map Prod.fst).zip slots) := by
  induction entries generalizing slots with
  | nil => exact .nil
  | cons e es ih =>
    cases h with
    | cons he h => exact .cons ⟨rfl, he⟩ (ih h)

private theorem binds_ofList {entries : List (String × Datum)} {slots : List Slot}
    (h : List.Forall₂ R (entries.map Prod.snd) slots) :
    Binds R entries (SortedMap.ofList ((entries.map Prod.fst).zip slots)) where
  exists_value hslot := by
    obtain ⟨⟨name, d⟩, he, rfl, hR⟩ :=
      exists_of_mem_right (forall₂_zip_names h) (SortedMap.mem_of_get?_ofList hslot)
    exact ⟨d, he, hR⟩
  exists_slot e he := by
    obtain ⟨⟨name, slot⟩, hp, rfl, -⟩ := exists_of_mem_right (forall₂_zip_names h).flip he
    exact SortedMap.exists_get?_ofList hp

namespace Memory

theorem length_encodeItems (m : Memory) (ds : List Datum) :
    (m.encodeItems ds).1.length = ds.length := by
  induction ds generalizing m with
  | nil => rfl
  | cons d ds ih => exact congrArg (· + 1) (ih _)

private theorem encodeBindings_memory (m : Memory) (entries : List (String × Datum)) :
    (m.encodeBindings entries).2 = (m.encodeItems (entries.map Prod.snd)).2 := by
  rw [encodeBindings, encodeEntries_eq]

theorem encodeBindings_binds {m : Memory} {entries : List (String × Datum)}
    (h : List.Forall₂ R (entries.map Prod.snd) (m.encodeItems (entries.map Prod.snd)).1) :
    Binds R entries (m.encodeBindings entries).1 := by
  rw [encodeBindings, encodeEntries_eq]
  exact binds_ofList h

end Memory

namespace Frame

theorem ofActivation_memory (m : Memory) (a : Activation) (position : Nat) (active : Bool) :
    (ofActivation m a position active).2 = (m.encodeItems (a.entries.map Prod.snd)).2 :=
  m.encodeBindings_memory a.entries

theorem ofStack_cons (idle : Bool) (m : Memory) (position : Nat) (a : Activation)
    (rest : List Activation) :
    ofStack idle m position (a :: rest) =
      ((ofActivation m a position (rest.isEmpty && !idle)).1 ::
          (ofStack idle (m.encodeItems (a.entries.map Prod.snd)).2 (position + 1) rest).1,
        (ofStack idle (m.encodeItems (a.entries.map Prod.snd)).2 (position + 1) rest).2) := by
  rw [← ofActivation_memory m a position (rest.isEmpty && !idle)]
  rfl

private theorem ofStack_memory (idle : Bool) (m : Memory) (position : Nat)
    (calls : List Activation) :
    (ofStack idle m position calls).2 =
      (m.encodeItems (calls.flatMap fun a => a.entries.map Prod.snd)).2 := by
  induction calls generalizing m position with
  | nil => rfl
  | cons a rest ih =>
    rw [List.flatMap_cons, Memory.encodeItems_append, ofStack_cons]
    exact ih _ _

private theorem ofStack_binds {idle : Bool} {m : Memory} {position : Nat} {calls : List Activation}
    (h : List.Forall₂ R (calls.flatMap fun a => a.entries.map Prod.snd)
      (m.encodeItems (calls.flatMap fun a => a.entries.map Prod.snd)).1) :
    List.Forall₂ (fun a f => Binds R a.entries f.locals) calls
      (ofStack idle m position calls).1 := by
  induction calls generalizing m position with
  | nil => exact .nil
  | cons a rest ih =>
    rw [List.flatMap_cons, Memory.encodeItems_append] at h
    obtain ⟨ha, hrest⟩ := forall₂_of_append (Memory.length_encodeItems _ _) h
    rw [ofStack_cons]
    exact .cons (Memory.encodeBindings_binds ha) (ih hrest)

end Frame

namespace Snapshot

theorem ofRecord_memory (m : Memory) (r : Record) :
    (ofRecord m r).2 = ((arrive m r).encodeItems r.data).2 := by
  rw [Record.data, Memory.encodeItems_append, ← Memory.encodeBindings_memory]
  exact Frame.ofStack_memory _ _ _ _

theorem ofRecord_heap (m : Memory) (r : Record) :
    (ofRecord m r).1.heap = (ofRecord m r).2.heap := rfl

/-- Whatever relates the values of a record to their slots relates them in the snapshot. -/
theorem ofRecord_shows {m : Memory} {r : Record}
    (h : List.Forall₂ R r.data ((arrive m r).encodeItems r.data).1) :
    (ofRecord m r).1.Shows R r := by
  rw [Record.data, Memory.encodeItems_append] at h
  obtain ⟨hglobals, hcalls⟩ := forall₂_of_append (Memory.length_encodeItems _ _) h
  rw [← Memory.encodeBindings_memory] at hcalls
  exact ⟨Memory.encodeBindings_binds hglobals, Frame.ofStack_binds hcalls⟩

/-- Each slot that a snapshot binds is that of a value of the record. -/
theorem Shows.exists_value {r : Record} {s : Snapshot} (h : s.Shows R r) {slot : Slot}
    (hslot : slot ∈ s.bindings) : ∃ d ∈ r.data, R d slot := by
  rcases List.mem_append.1 hslot with hslot | hslot
  · obtain ⟨name, hname⟩ := (SortedMap.mem_values_iff _ _).1 hslot
    obtain ⟨d, hd, hR⟩ := h.globals.exists_value hname
    exact ⟨d, List.mem_append_left _ (List.mem_map_of_mem hd), hR⟩
  · obtain ⟨f, hf, hslot⟩ := List.mem_flatMap.1 hslot
    obtain ⟨name, hname⟩ := (SortedMap.mem_values_iff _ _).1 hslot
    obtain ⟨a, ha, hbinds⟩ := exists_of_mem_right h.stack hf
    obtain ⟨d, hd, hR⟩ := hbinds.exists_value hname
    exact ⟨d, List.mem_append_right _ (List.mem_flatMap.2 ⟨a, ha, List.mem_map_of_mem hd⟩), hR⟩

end Snapshot
end Retrace

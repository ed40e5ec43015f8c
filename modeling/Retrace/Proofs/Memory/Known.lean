import Retrace.Proofs.Memory.Soundness

/-! Memories whose heap may lack cells of values that are known: an interner serves more heaps than
one. Whatever such a memory holds, encoding a value leaves memory knowing it, by the slot that is
given, and every cell on the heap is the cell of a value whose parts are known by the slots in it. -/
namespace Retrace

namespace Memory

open Interner (Distinct find?_eq_some_iff mem_table_of_find?)

variable {data : Set Datum} {m m' : Memory} {d e : Datum} {s t : Slot} {key : String} {id : HeapId}

/-! ### Steps of encoding -/

/-- The number of a key, and memory with it: the key is remembered already, or it is new. -/
inductive Assigns (m : Memory) (key : String) : HeapId → Memory → Prop
  | old {id : HeapId} (h : m.interner.find? key = some id) : Assigns m key id m
  | new (h : m.interner.find? key = none) :
      Assigns m key m.interner.counter (m.remember key)

theorem Assigns.mem_table (h : Assigns m key id m') : (key, id) ∈ m'.interner.table := by
  cases h with
  | old hfind => exact mem_table_of_find? hfind
  | new _ => exact mem_table_remember.2 (.inl rfl)

theorem Assigns.heap_eq (h : Assigns m key id m') : m'.heap = m.heap := by
  cases h <;> rfl

/-- A composite value whose cell is on the heap is passed over; or else its parts are encoded, and
its cell is put under the number of its key. -/
theorem encode_cases (m : Memory) (hcomp : d.isComposite = true) :
    (∃ id, (d.key, id) ∈ m.interner.table ∧ m.heap.contains id = true ∧
      m.encode d = (.ref id, m)) ∨
    ∃ id m', Assigns m d.key id m' ∧ m.encode d =
      (.ref id, (m'.encodeItems d.parts).2.put id (d.cell (m'.encodeItems d.parts).1)) := by
  rw [encode_of_composite m hcomp]
  cases hfind : m.interner.find? d.key with
  | some id =>
    cases hid : m.heap.contains id with
    | true => exact .inl ⟨id, mem_table_of_find? hfind, hid, intern_of_stored hfind hid _⟩
    | false => exact .inr ⟨id, m, .old hfind, intern_of_lost hfind hid _⟩
  | none => exact .inr ⟨_, _, .new hfind, intern_of_new hfind _⟩

/-- A relation that leads from memory to memory over each value of a list leads over the list. -/
theorem encodeItems_chain {R : Memory → Memory → Prop} (refl : ∀ m, R m m)
    (trans : ∀ {a b c}, R a b → R b c → R a c) {ds : List Datum}
    (h : ∀ d ∈ ds, ∀ m, R m (m.encode d).2) (m : Memory) : R m (m.encodeItems ds).2 := by
  induction ds generalizing m with
  | nil => exact refl m
  | cons d ds ih =>
    rw [List.forall_mem_cons] at h
    exact trans (h.1 m) (ih h.2 _)

/-- What each value of a list keeps true of memory, the list does. -/
theorem encodeItems_keeps {I : Memory → Prop} {ds : List Datum}
    (h : ∀ d ∈ ds, ∀ m, I m → I (m.encode d).2) (hm : I m) : I (m.encodeItems ds).2 :=
  encodeItems_chain (R := fun m m' => I m → I m') (fun _ h => h) (fun hab hbc h => hbc (hab h)) h m
    hm

/-- What encoding leaves of a memory: what is known stays so, and numbers stay distinct as long as
the counter does not pass the last of them. -/
structure Extends (m m' : Memory) : Prop where
  next_le : m.interner.next ≤ m'.interner.next
  table : ∀ e ∈ m.interner.table, e ∈ m'.interner.table
  contains : ∀ id, m.heap.contains id = true → m'.heap.contains id = true
  keys_nodup : (m.interner.table.map Prod.fst).Nodup → (m'.interner.table.map Prod.fst).Nodup
  distinct : m'.interner.next < UInt64.size → Distinct m.interner → Distinct m'.interner

theorem Extends.refl (m : Memory) : Extends m m where
  next_le := Nat.le_refl _
  table _ h := h
  contains _ h := h
  keys_nodup h := h
  distinct _ h := h

theorem Extends.trans {a b c : Memory} (hab : Extends a b) (hbc : Extends b c) : Extends a c where
  next_le := Nat.le_trans hab.next_le hbc.next_le
  table e he := hbc.table e (hab.table e he)
  contains id h := hbc.contains id (hab.contains id h)
  keys_nodup h := hbc.keys_nodup (hab.keys_nodup h)
  distinct hnext h := hbc.distinct hnext (hab.distinct (Nat.lt_of_le_of_lt hbc.next_le hnext) h)

theorem extends_remember (hkey : m.interner.find? key = none) :
    Extends m (m.remember key) where
  next_le := Nat.le_succ _
  table _ h := mem_table_remember.2 (.inr h)
  contains _ h := h
  keys_nodup h := Interner.keys_nodup_allocate h hkey
  distinct hnext h := h.allocate (Nat.lt_of_succ_lt hnext) hkey

theorem extends_put (m : Memory) (id : HeapId) (c : Cell) : Extends m (m.put id c) where
  next_le := Nat.le_refl _
  table _ h := h
  contains k h := (contains_put m id k c).2 (.inr h)
  keys_nodup h := h
  distinct _ h := h

theorem Assigns.extends (h : Assigns m key id m') : Extends m m' := by
  cases h with
  | old _ => exact .refl m
  | new hkey => exact extends_remember hkey

theorem encode_extends (m : Memory) (d : Datum) : Extends m (m.encode d).2 := by
  induction d using Datum.partsInduction generalizing m with
  | step d ih =>
    cases hcomp : d.isComposite with
    | false => rw [encode_of_atom m hcomp]; exact .refl m
    | true =>
      obtain ⟨id, -, -, heq⟩ | ⟨id, m', hm', heq⟩ := encode_cases m hcomp
      · rw [heq]
        exact .refl m
      · rw [heq]
        have hparts := encodeItems_chain .refl .trans ih m'
        exact hm'.extends.trans (hparts.trans (extends_put _ _ _))

theorem encodeItems_extends (m : Memory) (ds : List Datum) : Extends m (m.encodeItems ds).2 :=
  encodeItems_chain .refl .trans (fun d _ m => encode_extends m d) m

/-! ### What is known -/

/-- Memory knows a value by a slot: the number of a composite value is remembered, and its cell is on
the heap. -/
inductive Knows (m : Memory) : Datum → Slot → Prop
  | atom {d : Datum} (h : d.isComposite = false) : Knows m d d.slot
  | cell {d : Datum} {id : HeapId} (h : d.isComposite = true)
      (hid : (d.key, id) ∈ m.interner.table) (hcell : m.heap.contains id = true) :
      Knows m d (.ref id)

theorem Knows.extends (h : Knows m d s) (hm : Extends m m') : Knows m' d s := by
  cases h with
  | atom hatom => exact .atom hatom
  | cell hcomp hid hcell => exact .cell hcomp (hm.table _ hid) (hm.contains _ hcell)

theorem Knows.of_atom (h : Knows m d s) (hd : d.isComposite = false) : s = d.slot := by
  cases h with
  | atom _ => rfl
  | cell hcomp _ _ => rw [hd] at hcomp; cases hcomp

theorem Knows.of_composite (h : Knows m d s) (hd : d.isComposite = true) :
    ∃ id, s = .ref id ∧ (d.key, id) ∈ m.interner.table ∧ m.heap.contains id = true := by
  cases h with
  | atom hatom => rw [hd] at hatom; cases hatom
  | cell _ hid hcell => exact ⟨_, rfl, hid, hcell⟩

/-- A value with the same key is known by the same slot, if both are composite. -/
theorem Knows.of_key_eq (h : Knows m d s) (hd : d.isComposite = true) (he : e.isComposite = true)
    (hkey : d.key = e.key) : Knows m e s := by
  obtain ⟨id, rfl, hid, hcell⟩ := h.of_composite hd
  exact .cell he (hkey ▸ hid) hcell

/-- Encoding a value that is known gives its slot and changes nothing. -/
theorem Knows.encode_eq (h : Knows m d s) (hkeys : (m.interner.table.map Prod.fst).Nodup) :
    m.encode d = (s, m) := by
  cases h with
  | atom hatom => exact encode_of_atom m hatom
  | cell hcomp hid hcell =>
    rw [encode_of_composite m hcomp, intern_of_stored ((find?_eq_some_iff hkeys).2 hid) hcell]

/-- A value that has been encoded is known by the slot that was given. -/
theorem encode_knows (m : Memory) (d : Datum) : Knows (m.encode d).2 d (m.encode d).1 := by
  cases hcomp : d.isComposite with
  | false =>
    rw [encode_of_atom m hcomp]
    exact .atom hcomp
  | true =>
    obtain ⟨id, hid, hcell, heq⟩ | ⟨id, m', hm', heq⟩ := encode_cases m hcomp
    · rw [heq]
      exact .cell hcomp hid hcell
    · rw [heq]
      have hid := (encodeItems_extends m' d.parts).table _ hm'.mem_table
      exact .cell hcomp hid ((contains_put _ _ _ _).2 (.inl rfl))

theorem encodeItems_knows (m : Memory) (ds : List Datum) :
    List.Forall₂ (Knows (m.encodeItems ds).2) ds (m.encodeItems ds).1 := by
  induction ds generalizing m with
  | nil => exact .nil
  | cons d ds ih => exact .cons ((encode_knows m d).extends (encodeItems_extends _ ds)) (ih _)

/-! ### Cells of known values -/

/-- Each cell on the heap is that of a value among `data` whose key is remembered with the number of
the cell, and whose parts are known by the slots in the cell. -/
structure Recorded (data : Set Datum) (m : Memory) : Prop where
  keys_nodup : (m.interner.table.map Prod.fst).Nodup
  cell : ∀ id c, m.heap.get? id = some c → ∃ d ∈ data, d.isComposite = true ∧
    (d.key, id) ∈ m.interner.table ∧ ∃ slots, List.Forall₂ (Knows m) d.parts slots ∧
      c = d.cell slots

theorem recorded_empty (data : Set Datum) : Recorded data ∅ := ⟨.nil, fun _ _ h => nomatch h⟩

/-- A larger interner, and a heap that holds the same cells. -/
theorem Recorded.of_heap_eq (h : Recorded data m) (hm : Extends m m') (hheap : m'.heap = m.heap) :
    Recorded data m' where
  keys_nodup := hm.keys_nodup h.keys_nodup
  cell id c hc := by
    obtain ⟨d, hd, hcomp, hid, slots, hslots, rfl⟩ := h.cell id c (hheap ▸ hc)
    exact ⟨d, hd, hcomp, hm.table _ hid, slots, hslots.imp fun _ _ hs => hs.extends hm, rfl⟩

theorem Recorded.put (h : Recorded data m) (hd : d ∈ data) (hcomp : d.isComposite = true)
    {id : HeapId} (hid : (d.key, id) ∈ m.interner.table) {slots : List Slot}
    (hslots : List.Forall₂ (Knows m) d.parts slots) :
    Recorded data (m.put id (d.cell slots)) where
  keys_nodup := h.keys_nodup
  cell k c hc := by
    have hm := extends_put m id (d.cell slots)
    by_cases hk : k = id
    · subst hk
      rw [get?_put_self] at hc
      cases hc
      exact ⟨d, hd, hcomp, hid, slots, hslots.imp fun _ _ hs => hs.extends hm, rfl⟩
    · rw [get?_put_of_ne m _ hk] at hc
      obtain ⟨e, he, hecomp, heid, slots', hslots', rfl⟩ := h.cell k c hc
      exact ⟨e, he, hecomp, heid, slots', hslots'.imp fun _ _ hs => hs.extends hm, rfl⟩

/-- Encoding a value fills in cells whose slots the parts of their values are known by. -/
theorem encode_recorded (hdata : ∀ p ∈ d.visits, p ∈ data) (h : Recorded data m) :
    Recorded data (m.encode d).2 := by
  induction d using Datum.partsInduction generalizing m with
  | step d ih =>
    cases hcomp : d.isComposite with
    | false => rw [encode_of_atom m hcomp]; exact h
    | true =>
      obtain ⟨id, -, -, heq⟩ | ⟨id, m', hm', heq⟩ := encode_cases m hcomp
      · rw [heq]
        exact h
      · rw [heq]
        have hitems : Recorded data (m'.encodeItems d.parts).2 := encodeItems_keeps
          (fun p hp m => ih p hp fun q hq => hdata q (Datum.mem_visits_of_part hp hq))
          (h.of_heap_eq hm'.extends hm'.heap_eq)
        have hid := (encodeItems_extends m' d.parts).table _ hm'.mem_table
        exact hitems.put (hdata d d.mem_visits_self) hcomp hid (encodeItems_knows m' d.parts)

theorem encodeItems_recorded {ds : List Datum} (hdata : ∀ d ∈ ds, ∀ p ∈ d.visits, p ∈ data)
    (h : Recorded data m) : Recorded data (m.encodeItems ds).2 :=
  encodeItems_keeps (fun d hd _ => encode_recorded (hdata d hd)) h

theorem encodeItems_empty_recorded (ds : List Datum) :
    Recorded {p | p ∈ ds.flatMap Datum.visits} ((∅ : Memory).encodeItems ds).2 :=
  encodeItems_recorded (fun d hd _ hp => List.mem_flatMap.2 ⟨d, hd, hp⟩) (recorded_empty _)

/-- The cell by which a composite value is known is that of some value with its key. -/
theorem Recorded.exists_cell (h : Recorded data m) (hm : Distinct m.interner)
    (hcomp : d.isComposite = true) {id : HeapId} (hd : Knows m d (.ref id)) :
    ∃ e ∈ data, e.isComposite = true ∧ e.key = d.key ∧ ∃ slots,
      List.Forall₂ (Knows m) e.parts slots ∧ m.heap.get? id = some (e.cell slots) := by
  obtain ⟨_, heq, hid, hcell⟩ := hd.of_composite hcomp
  cases heq
  obtain ⟨c, hc⟩ := (SortedMap.contains_iff _ _).1 hcell
  obtain ⟨e, he, hecomp, heid, slots, hslots, rfl⟩ := h.cell id c hc
  exact ⟨e, he, hecomp, hm.key_eq heid hid, slots, hslots, hc⟩

end Memory
end Retrace

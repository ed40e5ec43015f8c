import Mathlib.Data.Set.Insert
import Retrace.Heap.Memory
import Retrace.Proofs.Datum.Parts
import Retrace.Proofs.Lists
import Retrace.Proofs.SortedMap

/-! What encoding does to memory. Cells are only ever put under numbers that are given out on the
way: all else on the heap stays, and each remembered number gets its cell. While the cell of a value
is being built its key is pending: a part of the value that has the same key, which takes a name that
is bound twice, puts a cell under the number before the value does. -/
namespace Retrace

namespace Datum

def slot : Datum → Slot
  | .bool b => .bool b
  | .number n => .number n
  | .string s => .string s
  | .ref id => .ref id
  | _ => .null

/-- The cell of a composite value, whose parts have the given slots. -/
def cell : Datum → List Slot → Cell
  | .mapping entries, slots => .mapping ((entries.map Prod.fst).zip slots)
  | .function name source, _ => .function name (digest source)
  | .object className fields, slots => .object className ((fields.map Prod.fst).zip slots)
  | _, slots => .list slots

end Datum

namespace Interner

variable {i : Interner} {key : String} {id : HeapId}

theorem mem_table_of_find? (h : i.find? key = some id) : (key, id) ∈ i.table :=
  mem_of_lookup h

theorem find?_eq_some_iff (hkeys : (i.table.map Prod.fst).Nodup) :
    i.find? key = some id ↔ (key, id) ∈ i.table :=
  lookup_iff_mem hkeys

theorem key_ne_of_find? (h : i.find? key = none) {e : String × HeapId} (he : e ∈ i.table) :
    e.1 ≠ key := by
  have hne : (key != e.1) = true := List.lookup_eq_none_iff.1 h e he
  exact fun heq => by simp [heq] at hne

theorem mem_known_iff : id ∈ i.known ↔ ∃ key, (key, id) ∈ i.table := by
  simp only [known, List.mem_map, Prod.exists, exists_eq_right]

theorem keys_nodup_allocate (h : (i.table.map Prod.fst).Nodup) (hkey : i.find? key = none) :
    ((i.allocate key).2.table.map Prod.fst).Nodup := by
  refine List.nodup_cons.2 ⟨fun hmem => ?_, h⟩
  obtain ⟨e, he, heq⟩ := List.mem_map.1 hmem
  exact key_ne_of_find? hkey he heq

end Interner

namespace Memory

open Interner (mem_table_of_find?)

/-! ### One form for all shapes -/

theorem encodeEntries_eq (m : Memory) (entries : List (String × Datum)) :
    m.encodeEntries entries =
      ((entries.map Prod.fst).zip (m.encodeItems (entries.map Prod.snd)).1,
        (m.encodeItems (entries.map Prod.snd)).2) := by
  induction entries generalizing m with
  | nil => rfl
  | cons e es ih =>
    obtain ⟨name, d⟩ := e
    simp only [encodeEntries, List.map_cons, encodeItems, ih, List.zip_cons_cons]

theorem encode_of_atom (m : Memory) {d : Datum} (h : d.isComposite = false) :
    m.encode d = (d.slot, m) := by
  cases d <;> first | rfl | cases h

/-- A composite value is built from its parts, whatever its shape. -/
theorem encode_of_composite (m : Memory) {d : Datum} (h : d.isComposite = true) :
    m.encode d = m.intern d.key fun m =>
      (d.cell (m.encodeItems d.parts).1, (m.encodeItems d.parts).2) := by
  cases d with
  | list items => rw [encode]; rfl
  | mapping entries => rw [encode]; simp only [encodeEntries_eq]; rfl
  | function name source => rw [encode]; rfl
  | object className fields => rw [encode]; simp only [encodeEntries_eq]; rfl
  | _ => cases h

theorem encodeItems_append (m : Memory) (ds es : List Datum) :
    m.encodeItems (ds ++ es) =
      ((m.encodeItems ds).1 ++ ((m.encodeItems ds).2.encodeItems es).1,
        ((m.encodeItems ds).2.encodeItems es).2) := by
  induction ds generalizing m with
  | nil => rfl
  | cons d ds ih => simp only [List.cons_append, encodeItems, ih]

/-- Memory in which a new key has been remembered, and its cell is still to come. -/
def remember (m : Memory) (key : String) : Memory :=
  { m with interner := (m.interner.allocate key).2 }

theorem intern_of_stored {m : Memory} {key : String} {id : HeapId}
    (h : m.interner.find? key = some id) (hid : m.heap.contains id = true)
    (build : Memory → Cell × Memory) : m.intern key build = (.ref id, m) := by
  rw [intern, h]
  simp only [hid, if_true]

theorem intern_of_lost {m : Memory} {key : String} {id : HeapId}
    (h : m.interner.find? key = some id) (hid : m.heap.contains id = false)
    (build : Memory → Cell × Memory) :
    m.intern key build = (.ref id, (build m).2.put id (build m).1) := by
  rw [intern, h]
  simp only [hid, Bool.false_eq_true, if_false]

theorem intern_of_new {m : Memory} {key : String} (h : m.interner.find? key = none)
    (build : Memory → Cell × Memory) :
    m.intern key build = (.ref m.interner.counter,
      (build (m.remember key)).2.put m.interner.counter (build (m.remember key)).1) := by
  rw [intern, h]
  rfl

/-! ### Growth -/

/-- A number that is given out between two states of memory. -/
def Issued (m m' : Memory) (id : HeapId) : Prop :=
  ∃ n, m.interner.next ≤ n ∧ n < m'.interner.next ∧ id = n.toUInt64

/-- Memory that has grown: old identities are kept, new numbers are those of new identities, and
cells changed only under these and under the numbers of pending keys. -/
structure Grows (pending : Set String) (m m' : Memory) : Prop where
  next_le : m.interner.next ≤ m'.interner.next
  table : ∀ e ∈ m.interner.table, e ∈ m'.interner.table
  table_new : ∀ e ∈ m'.interner.table, e ∈ m.interner.table ∨ Issued m m' e.2
  known : ∀ id, Issued m m' id → id ∈ m'.interner.known
  contains : ∀ id, m.heap.contains id = true → m'.heap.contains id = true
  frame : ∀ id, ¬ Issued m m' id → (∀ key ∈ pending, (key, id) ∉ m.interner.table) →
    m'.heap.get? id = m.heap.get? id

/-- Keys are remembered once, and each has its cell, but for those that are being built. -/
structure Stored (pending : Set String) (m : Memory) : Prop where
  distinct : (m.interner.table.map Prod.fst).Nodup
  cell : ∀ e ∈ m.interner.table, e.1 ∉ pending → m.heap.contains e.2 = true

private theorem Issued.mono_left {a b c : Memory} (h : a.interner.next ≤ b.interner.next)
    {id : HeapId} (hid : Issued b c id) : Issued a c id := by
  obtain ⟨n, hn, hlt, rfl⟩ := hid
  exact ⟨n, Nat.le_trans h hn, hlt, rfl⟩

private theorem Issued.mono_right {a b c : Memory} (h : b.interner.next ≤ c.interner.next)
    {id : HeapId} (hid : Issued a b id) : Issued a c id := by
  obtain ⟨n, hn, hlt, rfl⟩ := hid
  exact ⟨n, hn, Nat.lt_of_lt_of_le hlt h, rfl⟩

private theorem Issued.not_of_next_eq {m m' : Memory} (h : m'.interner.next = m.interner.next)
    (id : HeapId) : ¬ Issued m m' id := by
  rintro ⟨n, hn, hlt, -⟩
  omega

/-- A number between two states is given out before or after any state in between. -/
theorem Issued.split {a b c : Memory} {id : HeapId} (h : Issued a c id) :
    Issued a b id ∨ Issued b c id := by
  obtain ⟨n, hn, hlt, rfl⟩ := h
  rcases Nat.lt_or_ge n b.interner.next with hb | hb
  · exact .inl ⟨n, hn, hb, rfl⟩
  · exact .inr ⟨n, hb, hlt, rfl⟩

theorem Grows.refl (pending : Set String) (m : Memory) : Grows pending m m where
  next_le := Nat.le_refl _
  table _ h := h
  table_new _ h := .inl h
  known id h := absurd h (Issued.not_of_next_eq rfl id)
  contains _ h := h
  frame _ _ _ := rfl

theorem Grows.trans {pending : Set String} {a b c : Memory} (hab : Grows pending a b)
    (hbc : Grows pending b c) : Grows pending a c where
  next_le := Nat.le_trans hab.next_le hbc.next_le
  table e he := hbc.table e (hab.table e he)
  table_new e he := by
    rcases hbc.table_new e he with he | he
    · exact (hab.table_new e he).imp_right (·.mono_right hbc.next_le)
    · exact .inr (he.mono_left hab.next_le)
  known id h := by
    rcases h.split with h | h
    · obtain ⟨e, he, rfl⟩ := List.mem_map.1 (hab.known id h)
      exact List.mem_map_of_mem (hbc.table e he)
    · exact hbc.known id h
  contains id h := hbc.contains id (hab.contains id h)
  frame id h hpending := by
    have hpending' : ∀ key ∈ pending, (key, id) ∉ b.interner.table := by
      intro key hkey hid
      rcases hab.table_new _ hid with hid | hid
      · exact hpending key hkey hid
      · exact h (hid.mono_right hbc.next_le)
    rw [hbc.frame id (fun hid => h (hid.mono_left hab.next_le)) hpending',
      hab.frame id (fun hid => h (hid.mono_right hbc.next_le)) hpending]

/-- Where no key is pending, only cells under new numbers change. -/
theorem Grows.get?_eq {m m' : Memory} (h : Grows ∅ m m') {id : HeapId} (hid : ¬ Issued m m' id) :
    m'.heap.get? id = m.heap.get? id :=
  h.frame id hid fun _ hkey => absurd hkey (Set.notMem_empty _)

theorem contains_put (m : Memory) (id k : HeapId) (c : Cell) :
    (m.put id c).heap.contains k = true ↔ k = id ∨ m.heap.contains k = true :=
  SortedMap.contains_insert m.heap id k c

theorem get?_put_self (m : Memory) (id : HeapId) (c : Cell) :
    (m.put id c).heap.get? id = some c :=
  SortedMap.get?_insert_self m.heap id c

theorem get?_put_of_ne (m : Memory) {id k : HeapId} (c : Cell) (h : k ≠ id) :
    (m.put id c).heap.get? k = m.heap.get? k :=
  SortedMap.get?_insert_of_ne m.heap c h

theorem mem_table_remember {m : Memory} {key : String} {e : String × HeapId} :
    e ∈ (m.remember key).interner.table ↔
      e = (key, m.interner.counter) ∨ e ∈ m.interner.table :=
  List.mem_cons

/-- Memory that grows once a new key is remembered, and pending, has grown all in all. -/
theorem Grows.of_remember {pending : Set String} {m m' : Memory} {key : String}
    (hkey : m.interner.find? key = none) (h : Grows (insert key pending) (m.remember key) m') :
    Grows pending m m' := by
  have hle : m.interner.next ≤ (m.remember key).interner.next := Nat.le_succ _
  have hnew : Issued m m' m.interner.counter := ⟨_, Nat.le_refl _, h.next_le, rfl⟩
  refine ⟨Nat.le_trans hle h.next_le, fun e he => h.table e (mem_table_remember.2 (.inr he)), ?_,
    ?_, h.contains, ?_⟩
  · intro e he
    rcases h.table_new e he with he | he
    · rcases mem_table_remember.1 he with rfl | he
      · exact .inr hnew
      · exact .inl he
    · exact .inr (he.mono_left hle)
  · rintro id ⟨n, hn, hlt, rfl⟩
    rcases Nat.eq_or_lt_of_le hn with rfl | hn
    · exact List.mem_map_of_mem (h.table _ (mem_table_remember.2 (.inl rfl)))
    · exact h.known _ ⟨n, hn, hlt, rfl⟩
  · intro id hid hpending
    refine h.frame id (fun hissued => hid (hissued.mono_left hle)) fun k hk hmem => ?_
    rcases mem_table_remember.1 hmem with heq | hold
    · cases heq
      exact hid hnew
    · rcases hk with heq | hk
      · exact Interner.key_ne_of_find? hkey hold heq
      · exact hpending k hk hold

/-- Filling in the cell of a number that was given out on the way, or of a pending key. -/
theorem Grows.put {pending : Set String} {m m' : Memory} (h : Grows pending m m') {id : HeapId}
    (hid : Issued m m' id ∨ ∃ key ∈ pending, (key, id) ∈ m.interner.table) (c : Cell) :
    Grows pending m (m'.put id c) where
  next_le := h.next_le
  table := h.table
  table_new := h.table_new
  known := h.known
  contains k hk := (contains_put m' id k c).2 (.inr (h.contains k hk))
  frame k hk hpending := by
    have hne : k ≠ id := by
      rintro rfl
      obtain hid | ⟨key, hkey, hid⟩ := hid
      · exact hk hid
      · exact hpending key hkey hid
    rw [get?_put_of_ne m' c hne]
    exact h.frame k hk hpending

theorem Stored.remember {pending : Set String} {m : Memory} (h : Stored pending m)
    {key : String} (hkey : m.interner.find? key = none) :
    Stored (insert key pending) (m.remember key) where
  distinct := Interner.keys_nodup_allocate h.distinct hkey
  cell e he hpending := by
    rcases mem_table_remember.1 he with rfl | he
    · exact absurd (Set.mem_insert _ _) hpending
    · exact h.cell e he fun hmem => hpending (Set.mem_insert_of_mem _ hmem)

/-- A key is no longer pending once its cell is filled in. -/
theorem Stored.put {pending : Set String} {m : Memory} {key : String} {id : HeapId}
    (h : Stored (insert key pending) m) (hid : (key, id) ∈ m.interner.table) (c : Cell) :
    Stored pending (m.put id c) where
  distinct := h.distinct
  cell e he hpending := by
    rw [contains_put]
    by_cases heq : e.1 = key
    · subst heq
      exact .inl (value_unique h.distinct he hid)
    · refine .inr (h.cell e he fun hmem => ?_)
      exact hmem.elim heq hpending

/-- A number that has no cell although it is remembered is that of a pending key. -/
theorem Stored.mem_pending {pending : Set String} {m : Memory} (h : Stored pending m)
    {key : String} {id : HeapId} (hid : (key, id) ∈ m.interner.table)
    (hlost : m.heap.contains id = false) : key ∈ pending := by
  by_contra hnot
  rw [h.cell _ hid hnot] at hlost
  cases hlost

private theorem encodeItems_grows_of {pending : Set String} {ds : List Datum}
    (ih : ∀ d ∈ ds, ∀ m, Stored pending m →
      Grows pending m (m.encode d).2 ∧ Stored pending (m.encode d).2)
    {m : Memory} (h : Stored pending m) :
    Grows pending m (m.encodeItems ds).2 ∧ Stored pending (m.encodeItems ds).2 := by
  induction ds generalizing m with
  | nil => exact ⟨.refl pending m, h⟩
  | cons d ds rest =>
    rw [List.forall_mem_cons] at ih
    obtain ⟨hd, hstored⟩ := ih.1 m h
    obtain ⟨hds, hstored⟩ := rest ih.2 hstored
    exact ⟨hd.trans hds, hstored⟩

/-- Encoding lets memory grow, and leaves no remembered number without its cell. -/
theorem encode_grows {pending : Set String} (d : Datum) {m : Memory} (h : Stored pending m) :
    Grows pending m (m.encode d).2 ∧ Stored pending (m.encode d).2 := by
  induction d using Datum.partsInduction generalizing pending m with
  | step d ih =>
    cases hcomp : d.isComposite with
    | false => rw [encode_of_atom m hcomp]; exact ⟨.refl pending m, h⟩
    | true =>
      rw [encode_of_composite m hcomp]
      cases hfind : m.interner.find? d.key with
      | some id =>
        have hid := mem_table_of_find? hfind
        cases hcell : m.heap.contains id with
        | true => rw [intern_of_stored hfind hcell]; exact ⟨.refl pending m, h⟩
        | false =>
          -- the cell is being built further up: this one stands in for it until then
          rw [intern_of_lost hfind hcell]
          have hpending := h.mem_pending hid hcell
          obtain ⟨hgrows, hstored⟩ := encodeItems_grows_of (fun p hp m => ih p hp) h
          rw [← Set.insert_eq_of_mem hpending] at hstored
          exact ⟨hgrows.put (.inr ⟨_, hpending, hid⟩) _, hstored.put (hgrows.table _ hid) _⟩
      | none =>
        rw [intern_of_new hfind]
        obtain ⟨hgrows, hstored⟩ := encodeItems_grows_of
          (fun p hp m => ih p hp) (h.remember hfind)
        have hissued : Issued m ((m.remember d.key).encodeItems d.parts).2
            m.interner.counter :=
          ⟨_, Nat.le_refl _, hgrows.next_le, rfl⟩
        exact ⟨(hgrows.of_remember hfind).put (.inl hissued) _,
          hstored.put (hgrows.table _ (mem_table_remember.2 (.inl rfl))) _⟩

theorem encodeItems_grows {pending : Set String} (ds : List Datum) {m : Memory}
    (h : Stored pending m) :
    Grows pending m (m.encodeItems ds).2 ∧ Stored pending (m.encodeItems ds).2 :=
  encodeItems_grows_of (fun d _ _ => encode_grows d) h

end Memory
end Retrace

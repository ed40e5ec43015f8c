import Retrace.Proofs.Memory.Encoding

/-! Sound memory: each remembered key is that of a value whose cell stands under its number, and the
parts of the value are remembered in turn. Encoding keeps memory sound as long as the counter stays
below 64 bits. -/
namespace Retrace

namespace Interner

variable {i : Interner} {key : String} {id : HeapId}

/-- Each key has one number and each number one key, and the counter is past all of them. -/
structure Distinct (i : Interner) : Prop where
  keys_nodup : (i.table.map Prod.fst).Nodup
  known_nodup : i.known.Nodup
  known_lt : ∀ e ∈ i.table, e.2.toNat < i.next

theorem distinct_empty : Distinct ∅ := ⟨.nil, .nil, fun _ h => nomatch h⟩

/-- Numbers stay distinct as long as the counter is not past the last of them. -/
theorem Distinct.allocate (h : Distinct i) (hnext : i.next < UInt64.size)
    (hkey : i.find? key = none) : Distinct (i.allocate key).2 := by
  have hto := toNat_counter hnext
  refine ⟨keys_nodup_allocate h.keys_nodup hkey, ?_, ?_⟩
  · refine List.nodup_cons.2 ⟨fun hmem => ?_, h.known_nodup⟩
    obtain ⟨key', hid⟩ := mem_known_iff.1 hmem
    have hlt := h.known_lt _ hid
    rw [hto] at hlt
    exact Nat.lt_irrefl _ hlt
  · intro e he
    rcases List.mem_cons.1 he with rfl | he
    · exact Nat.lt_succ_of_le (Nat.le_of_eq hto)
    · exact Nat.lt_succ_of_lt (h.known_lt e he)

/-- Numbers stay distinct where some are dropped and the counter goes on. -/
theorem Distinct.of_sublist (h : Distinct i) {i' : Interner} (hsub : i'.table.Sublist i.table)
    (hnext : i.next ≤ i'.next) : Distinct i' where
  keys_nodup := h.keys_nodup.sublist (hsub.map _)
  known_nodup := h.known_nodup.sublist (hsub.map _)
  known_lt e he := Nat.lt_of_lt_of_le (h.known_lt e (hsub.subset he)) hnext

theorem Distinct.key_eq (h : Distinct i) {key' : String} (hid : (key, id) ∈ i.table)
    (hid' : (key', id) ∈ i.table) : key = key' :=
  congrArg Prod.fst (List.inj_on_of_nodup_map h.known_nodup hid hid' rfl)

end Interner

namespace Memory

open Interner (mem_table_of_find?)

/-- How a slot stands for a value: a composite value by a number remembered for its key, all else by
itself. -/
inductive Stands (table : List (String × HeapId)) : Datum → Slot → Prop
  | atom {d : Datum} {s : Slot} (h : d.isComposite = false) (hs : d.slot.same s = true) :
      Stands table d s
  | cell {d : Datum} {id : HeapId} (h : d.isComposite = true) (hid : (d.key, id) ∈ table) :
      Stands table d (.ref id)

/-- The cell of a value is under a number, and the slots in it stand for the parts of the value. -/
def Built (m : Memory) (d : Datum) (id : HeapId) : Prop :=
  ∃ slots, List.Forall₂ (Stands m.interner.table) d.parts slots ∧
    m.heap.get? id = some (d.cell slots)

/-- Memory whose identities come from values among `data`; the cells of `pending` keys are being
built. Numbers on the heap are below the counter, which itself may stop at the last number. -/
structure Sound (data : Set Datum) (pending : Set String) (m : Memory) : Prop where
  distinct : (m.interner.table.map Prod.fst).Nodup
  known_nodup : m.interner.known.Nodup
  known_lt : ∀ e ∈ m.interner.table, e.2.toNat < m.interner.next
  heap_lt : ∀ id, m.heap.contains id = true → min (id.toNat + 1) (UInt64.size - 1) ≤ m.interner.next
  built : ∀ e ∈ m.interner.table, e.1 ∉ pending →
    ∃ d ∈ data, d.isComposite = true ∧ d.key = e.1 ∧ Built m d e.2

variable {data : Set Datum} {pending : Set String}

theorem Stands.mono {table table' : List (String × HeapId)} (h : ∀ e ∈ table, e ∈ table')
    {d : Datum} {s : Slot} (hs : Stands table d s) : Stands table' d s := by
  cases hs with
  | atom hd hs => exact .atom hd hs
  | cell hd hid => exact .cell hd (h _ hid)

theorem sound_empty (data : Set Datum) : Sound data ∅ ∅ where
  distinct := .nil
  known_nodup := .nil
  known_lt _ h := nomatch h
  heap_lt _ h := nomatch h
  built _ h := nomatch h

theorem Sound.stored {m : Memory} (h : Sound data pending m) : Stored pending m where
  distinct := h.distinct
  cell e he hpending := by
    obtain ⟨d, -, -, -, slots, -, hcell⟩ := h.built e he hpending
    exact (SortedMap.contains_iff _ _).2 ⟨_, hcell⟩

theorem stored_empty : Stored ∅ ∅ := (sound_empty ∅).stored

theorem Sound.identities {m : Memory} (h : Sound data pending m) : m.interner.Distinct :=
  ⟨h.distinct, h.known_nodup, h.known_lt⟩

theorem Sound.remember {m : Memory} (h : Sound data pending m) {key : String}
    (hkey : m.interner.find? key = none) (hnext : m.interner.next + 1 < UInt64.size) :
    Sound data (insert key pending) (m.remember key) := by
  have hdistinct := h.identities.allocate (Nat.lt_of_succ_lt hnext) hkey
  refine ⟨hdistinct.keys_nodup, hdistinct.known_nodup, hdistinct.known_lt, ?_, ?_⟩
  · exact fun id hid => Nat.le_succ_of_le (h.heap_lt id hid)
  · intro e he hpending
    rcases mem_table_remember.1 he with rfl | he
    · exact absurd (Set.mem_insert _ _) hpending
    · obtain ⟨d, hd, hcomp, hkey, slots, hslots, hcell⟩ :=
        h.built e he fun hmem => hpending (Set.mem_insert_of_mem _ hmem)
      exact ⟨d, hd, hcomp, hkey, slots,
        hslots.imp fun _ _ => .mono fun _ he => mem_table_remember.2 (.inr he), hcell⟩

/-- The cell of a pending key is filled in; no other remembered cell is touched. -/
theorem Sound.put {m : Memory} {d : Datum} {id : HeapId} {slots : List Slot}
    (h : Sound data (insert d.key pending) m) (hd : d ∈ data) (hcomp : d.isComposite = true)
    (hid : (d.key, id) ∈ m.interner.table)
    (hslots : List.Forall₂ (Stands m.interner.table) d.parts slots) :
    Sound data pending (m.put id (d.cell slots)) where
  distinct := h.distinct
  known_nodup := h.known_nodup
  known_lt := h.known_lt
  heap_lt k hk := by
    rcases (contains_put _ _ _ _).1 hk with rfl | hk
    · exact Nat.le_trans (Nat.min_le_left _ _) (h.known_lt _ hid)
    · exact h.heap_lt k hk
  built e he hpending := by
    by_cases heq : e.2 = id
    · cases List.inj_on_of_nodup_map h.known_nodup he hid heq
      exact ⟨d, hd, hcomp, rfl, slots, hslots, get?_put_self _ _ _⟩
    · have hkey : e.1 ≠ d.key := fun hkey =>
        heq (congrArg Prod.snd (List.inj_on_of_nodup_map h.distinct he hid hkey))
      obtain ⟨d', hd', hcomp', hkey', slots', hslots', hcell⟩ :=
        h.built e he fun hmem => hmem.elim hkey hpending
      exact ⟨d', hd', hcomp', hkey', slots', hslots', (get?_put_of_ne _ _ heq).trans hcell⟩

private theorem encodeItems_sound_of {ds : List Datum}
    (ih : ∀ d ∈ ds, ∀ m, Sound data pending m → (m.encode d).2.interner.next < UInt64.size →
      Sound data pending (m.encode d).2 ∧
        Stands (m.encode d).2.interner.table d (m.encode d).1)
    {m : Memory} (h : Sound data pending m)
    (hnext : (m.encodeItems ds).2.interner.next < UInt64.size) :
    Sound data pending (m.encodeItems ds).2 ∧
      List.Forall₂ (Stands (m.encodeItems ds).2.interner.table) ds (m.encodeItems ds).1 := by
  induction ds generalizing m with
  | nil => exact ⟨h, .nil⟩
  | cons d ds rest =>
    rw [List.forall_mem_cons] at ih
    have hstored := (encode_grows d h.stored).2
    have hgrows := (encodeItems_grows ds hstored).1
    obtain ⟨hsound, hstands⟩ := ih.1 m h (Nat.lt_of_le_of_lt hgrows.next_le hnext)
    obtain ⟨hsound, hslots⟩ := rest ih.2 hsound hnext
    exact ⟨hsound, .cons (hstands.mono hgrows.table) hslots⟩

/-- Encoding keeps memory sound, and the slot it gives stands for the value. -/
theorem encode_sound {d : Datum} (hdata : ∀ p ∈ d.visits, p ∈ data)
    {m : Memory} (h : Sound data pending m) (hnext : (m.encode d).2.interner.next < UInt64.size) :
    Sound data pending (m.encode d).2 ∧
      Stands (m.encode d).2.interner.table d (m.encode d).1 := by
  induction d using Datum.partsInduction generalizing pending m with
  | step d ih =>
    cases hcomp : d.isComposite with
    | false =>
      rw [encode_of_atom m hcomp]
      exact ⟨h, .atom hcomp (Slot.same_refl _)⟩
    | true =>
      rw [encode_of_composite m hcomp] at hnext ⊢
      have hd := hdata d d.mem_visits_self
      have hparts : ∀ p ∈ d.parts, ∀ q ∈ p.visits, q ∈ data :=
        fun p hp q hq => hdata q (Datum.mem_visits_of_part hp hq)
      cases hfind : m.interner.find? d.key with
      | some id =>
        have hmem := mem_table_of_find? hfind
        cases hid : m.heap.contains id with
        | true => rw [intern_of_stored hfind hid]; exact ⟨h, .cell hcomp hmem⟩
        | false =>
          rw [intern_of_lost hfind hid] at hnext ⊢
          have hpending := h.stored.mem_pending hmem hid
          have hgrows := (encodeItems_grows d.parts h.stored).1
          obtain ⟨hsound, hslots⟩ := encodeItems_sound_of
            (fun p hp m => ih p hp (hparts p hp)) h hnext
          rw [← Set.insert_eq_of_mem hpending] at hsound
          have hid := hgrows.table _ hmem
          exact ⟨hsound.put hd hcomp hid hslots, .cell hcomp hid⟩
      | none =>
        rw [intern_of_new hfind] at hnext ⊢
        have hgrows := (encodeItems_grows d.parts (h.stored.remember hfind)).1
        have hbound : m.interner.next + 1 < UInt64.size := Nat.lt_of_le_of_lt hgrows.next_le hnext
        obtain ⟨hsound, hslots⟩ := encodeItems_sound_of
          (fun p hp m => ih p hp (hparts p hp)) (h.remember hfind hbound) hnext
        have hid := hgrows.table _ (mem_table_remember.2 (.inl rfl))
        exact ⟨hsound.put hd hcomp hid hslots, .cell hcomp hid⟩

theorem encodeItems_sound {ds : List Datum} (hdata : ∀ d ∈ ds, ∀ p ∈ d.visits, p ∈ data)
    {m : Memory} (h : Sound data pending m)
    (hnext : (m.encodeItems ds).2.interner.next < UInt64.size) :
    Sound data pending (m.encodeItems ds).2 ∧
      List.Forall₂ (Stands (m.encodeItems ds).2.interner.table) ds (m.encodeItems ds).1 :=
  encodeItems_sound_of (fun d hd _ => encode_sound (hdata d hd)) h hnext

/-- Below the end of the counter a number that is given out is greater than all on the heap. -/
theorem Sound.lt_of_issued {m m' : Memory} (h : Sound data pending m)
    (hnext : m'.interner.next < UInt64.size) {id old : HeapId} (hid : Issued m m' id)
    (hold : m.heap.contains old = true) : old < id := by
  obtain ⟨n, hn, hlt, rfl⟩ := hid
  have hle := h.heap_lt old hold
  rw [UInt64.lt_iff_toNat_lt, UInt64.toNat_ofNat_of_lt' (Nat.lt_trans hlt hnext)]
  omega

theorem Sound.not_issued {m m' : Memory} (h : Sound data pending m)
    (hnext : m'.interner.next < UInt64.size) {id : HeapId} (hid : m.heap.contains id = true) :
    ¬ Issued m m' id :=
  fun hissued => UInt64.lt_irrefl id (h.lt_of_issued hnext hissued hid)

end Memory
end Retrace

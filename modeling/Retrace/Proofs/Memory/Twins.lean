import Retrace.Proofs.Datum.Trimmed
import Retrace.Proofs.Lists
import Retrace.Proofs.Memory.Merging

/-! Memories that are the same but for how their keys read. Keys are compared and nothing else is
done with them, so values that are trimmed alike get the same slots and cells in both, as long as
the keys inside them stand in a one-to-one relation. -/
namespace Retrace

open Relator (BiUnique)

/-- Interners with the same numbers under related keys. -/
structure Interner.Twin (R : String → String → Prop) (i i' : Interner) : Prop where
  next_eq : i.next = i'.next
  table : List.Forall₂ (fun e e' => R e.1 e'.1 ∧ e.2 = e'.2) i.table i'.table

/-- Memories with the same heap and the same numbers under related keys. -/
structure Memory.Twin (R : String → String → Prop) (m m' : Memory) : Prop where
  interner : Interner.Twin R m.interner m'.interner
  heap_eq : m.heap = m'.heap

variable {R : String → String → Prop}

namespace Interner

variable {i i' : Interner}

private theorem Twin.known_eq (h : Twin R i i') : i.known = i'.known := by
  have hids := h.table.imp fun _ _ he => he.2
  rw [known, known, ← List.forall₂_eq_eq_eq, List.forall₂_map_left_iff,
    List.forall₂_map_right_iff]
  exact hids

/-- Related keys have the same number. -/
theorem Twin.find?_eq (hR : BiUnique R) (h : Twin R i i') {key key' : String}
    (hkey : R key key') : i.find? key = i'.find? key' := by
  have htable := h.table
  rw [find?, find?]
  generalize i.table = table, i'.table = table' at htable
  induction htable with
  | nil => rfl
  | @cons e e' _ _ he _ ih =>
    have hiff : key = e.1 ↔ key' = e'.1 := Relator.rel_eq hR hkey he.1
    rw [List.lookup_cons, List.lookup_cons, ih, he.2]
    by_cases heq : key = e.1
    · rw [beq_iff_eq.2 heq, beq_iff_eq.2 (hiff.1 heq)]
    · rw [beq_false_of_ne heq, beq_false_of_ne fun heq' => heq (hiff.2 heq')]

private theorem Twin.counter_eq (h : Twin R i i') : i.counter = i'.counter :=
  congrArg Nat.toUInt64 h.next_eq

theorem Twin.allocate (h : Twin R i i') {key key' : String} (hkey : R key key') :
    Twin R (i.allocate key).2 (i'.allocate key').2 where
  next_eq := congrArg (· + 1) h.next_eq
  table := .cons ⟨hkey, h.counter_eq⟩ h.table

theorem Twin.reserve (h : Twin R i i') (id : HeapId) : Twin R (i.reserve id) (i'.reserve id) where
  next_eq := by rw [Interner.reserve, Interner.reserve, h.next_eq, h.counter_eq]
  table := h.table

/-- Which identities are forgotten depends on their numbers alone. -/
theorem Twin.forget (h : Twin R i i') (overwritten : List HeapId) (heap : Heap) :
    Twin R (i.forget overwritten heap) (i'.forget overwritten heap) where
  next_eq := by rw [forget_next, forget_next, h.next_eq]
  table := by
    rw [forget_table, forget_table, stale, stale, h.known_eq]
    refine List.rel_filter (fun e e' he => ?_) h.table
    simp only [he.2]

end Interner

namespace Memory

variable {m m' : Memory}

theorem twin_empty (R : String → String → Prop) : Twin R ∅ ∅ := ⟨⟨rfl, .nil⟩, rfl⟩

theorem Twin.remember (h : Twin R m m') {key key' : String} (hkey : R key key') :
    Twin R (m.remember key) (m'.remember key') :=
  ⟨h.interner.allocate hkey, h.heap_eq⟩

theorem Twin.put (h : Twin R m m') (id : HeapId) (c : Cell) : Twin R (m.put id c) (m'.put id c) :=
  ⟨h.interner, congrArg (SortedMap.insert · id c) h.heap_eq⟩

theorem Twin.merge (h : Twin R m m') (supplied : Heap) :
    Twin R (m.merge supplied) (m'.merge supplied) := by
  have hforget := h.interner.forget (m'.overwritten supplied) (m'.heap.overlay supplied)
  rw [Memory.merge, Memory.merge, overwritten, h.heap_eq]
  refine ⟨?_, rfl⟩
  cases supplied.keys.getLast? with
  | none => exact hforget
  | some id => exact hforget.reserve id

/-- Interning under related keys gives the same slot if what is built is the same. -/
theorem Twin.intern (hR : BiUnique R) (h : Twin R m m') {key key' : String} (hkey : R key key')
    {build build' : Memory → Cell × Memory}
    (hbuild : ∀ n n', Twin R n n' →
      (build n).1 = (build' n').1 ∧ Twin R (build n).2 (build' n').2) :
    (m.intern key build).1 = (m'.intern key' build').1 ∧
      Twin R (m.intern key build).2 (m'.intern key' build').2 := by
  cases hfind : m.interner.find? key with
  | some id =>
    have hfind' := h.interner.find?_eq hR hkey ▸ hfind
    cases hid : m.heap.contains id with
    | true =>
      rw [intern_of_stored hfind hid, intern_of_stored hfind' (h.heap_eq ▸ hid)]
      exact ⟨rfl, h⟩
    | false =>
      obtain ⟨hcell, hbuilt⟩ := hbuild m m' h
      rw [intern_of_lost hfind hid, intern_of_lost hfind' (h.heap_eq ▸ hid), hcell]
      exact ⟨rfl, hbuilt.put id _⟩
  | none =>
    have hfind' := h.interner.find?_eq hR hkey ▸ hfind
    obtain ⟨hcell, hbuilt⟩ := hbuild _ _ (h.remember hkey)
    rw [intern_of_new hfind, intern_of_new hfind', h.interner.counter_eq, hcell]
    exact ⟨rfl, hbuilt.put _ _⟩

private theorem encodeItems_twin_of {ds es : List Datum}
    (htrim : ds.map Datum.trim = es.map Datum.trim)
    (hkeys : List.Forall₂ R (ds.flatMap Datum.keys) (es.flatMap Datum.keys))
    (ih : ∀ d ∈ ds, ∀ e m m', d.trim = e.trim → List.Forall₂ R d.keys e.keys → Twin R m m' →
      (m.encode d).1 = (m'.encode e).1 ∧ Twin R (m.encode d).2 (m'.encode e).2)
    (h : Twin R m m') :
    (m.encodeItems ds).1 = (m'.encodeItems es).1 ∧
      Twin R (m.encodeItems ds).2 (m'.encodeItems es).2 := by
  induction ds generalizing es m m' with
  | nil =>
    cases List.map_eq_nil_iff.1 htrim.symm
    exact ⟨rfl, h⟩
  | cons d ds rest =>
    cases es with
    | nil => cases htrim
    | cons e es =>
      obtain ⟨hd, hds⟩ := List.cons.inj htrim
      rw [List.forall_mem_cons] at ih
      rw [List.flatMap_cons, List.flatMap_cons] at hkeys
      obtain ⟨hkey, hkeys⟩ := forall₂_of_append (Datum.length_keys_eq_of_trim hd).symm hkeys
      obtain ⟨hslot, hm⟩ := ih.1 e m m' hd hkey h
      obtain ⟨hslots, hm⟩ := rest hds hkeys ih.2 hm
      exact ⟨List.cons_eq_cons.2 ⟨hslot, hslots⟩, hm⟩

/-- Values that are trimmed alike are encoded alike. -/
theorem Twin.encode (hR : BiUnique R) {d e : Datum} (htrim : d.trim = e.trim)
    (hkeys : List.Forall₂ R d.keys e.keys) (h : Twin R m m') :
    (m.encode d).1 = (m'.encode e).1 ∧ Twin R (m.encode d).2 (m'.encode e).2 := by
  induction d using Datum.partsInduction generalizing e m m' with
  | step d ih =>
    have hcomp : d.isComposite = e.isComposite := by
      rw [← Datum.isComposite_trim, htrim, Datum.isComposite_trim]
    cases hd : d.isComposite with
    | false =>
      have hslot : d.slot = e.slot := by rw [← Datum.slot_trim, htrim, Datum.slot_trim]
      rw [encode_of_atom m hd, encode_of_atom m' (hcomp ▸ hd)]
      exact ⟨hslot, h⟩
    | true =>
      have he : e.isComposite = true := hcomp ▸ hd
      have hparts : d.parts.map Datum.trim = e.parts.map Datum.trim := by
        rw [← Datum.parts_trim, htrim, Datum.parts_trim]
      rw [Datum.keys_of_composite hd, Datum.keys_of_composite he] at hkeys
      obtain ⟨hkey, hkeys⟩ := List.forall₂_cons.1 hkeys
      rw [encode_of_composite m hd, encode_of_composite m' he]
      refine h.intern hR hkey fun n n' hn => ?_
      obtain ⟨hslots, hn⟩ := encodeItems_twin_of hparts hkeys
        (fun p hp e m m' => ih p hp) hn
      refine ⟨?_, hn⟩
      rw [← Datum.cell_trim d, ← Datum.cell_trim e, htrim, hslots]

theorem Twin.encodeItems (hR : BiUnique R) {ds es : List Datum}
    (htrim : ds.map Datum.trim = es.map Datum.trim)
    (hkeys : List.Forall₂ R (ds.flatMap Datum.keys) (es.flatMap Datum.keys)) (h : Twin R m m') :
    (m.encodeItems ds).1 = (m'.encodeItems es).1 ∧
      Twin R (m.encodeItems ds).2 (m'.encodeItems es).2 :=
  encodeItems_twin_of htrim hkeys (fun _ _ _ _ _ htrim hkeys h => h.encode hR htrim hkeys) h

end Memory
end Retrace

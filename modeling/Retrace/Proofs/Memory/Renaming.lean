import Mathlib.Data.Set.Function
import Retrace.Proofs.Datum.Identity
import Retrace.Proofs.Memory.Canonical
import Retrace.Proofs.Memory.Reencoding

/-! Numbers are names: which values are encoded first makes no difference but for the numbers of
their cells. Two memories that have cells for the same values hold the same cells, when the number of
each key in one of them is put in the place of its number in the other. -/
namespace Retrace

/-! ### Cells under other numbers -/

def Slot.rename (φ : HeapId → HeapId) : Slot → Slot
  | .ref id => .ref (φ id)
  | s => s

def Cell.rename (φ : HeapId → HeapId) : Cell → Cell
  | .list elements => .list (elements.map (Slot.rename φ))
  | .mapping entries => .mapping (entries.map fun e => (e.1, e.2.rename φ))
  | .function name digest => .function name digest
  | .object className fields => .object className (fields.map fun e => (e.1, e.2.rename φ))

theorem Slot.rename_id : Slot.rename id = id := by
  funext s
  cases s <;> rfl

theorem Cell.rename_id (c : Cell) : c.rename id = c := by
  cases c <;> simp [rename, Slot.rename_id]

def Heap.rename (φ : HeapId → HeapId) (heap : Heap) : Heap :=
  SortedMap.ofList (heap.toList.map fun e => (φ e.1, e.2.rename φ))

namespace Datum

theorem cell_rename (φ : HeapId → HeapId) (d : Datum) (slots : List Slot) :
    (d.cell slots).rename φ = d.cell (slots.map (Slot.rename φ)) := by
  have hzip (names : List String) (slots : List Slot) :
      (names.zip slots).map (fun e => (e.1, e.2.rename φ)) =
        names.zip (slots.map (Slot.rename φ)) := by
    rw [List.zip_map_right]
    rfl
  cases d with
  | mapping entries => exact congrArg Cell.mapping (hzip _ _)
  | object className fields => exact congrArg (Cell.object className) (hzip _ _)
  | _ => rfl

end Datum

/-- What is found on the renamed heap, if no two cells get one number. -/
theorem Heap.get?_rename {φ : HeapId → HeapId} {heap : Heap}
    (hφ : Set.InjOn φ {id | heap.contains id = true}) {id : HeapId} {c : Cell} :
    (heap.rename φ).get? id = some c ↔
      ∃ k b, heap.get? k = some b ∧ φ k = id ∧ b.rename φ = c := by
  have hmem (id : HeapId) (c : Cell) :
      (id, c) ∈ heap.toList.map (fun e => (φ e.1, e.2.rename φ)) ↔
        ∃ k b, heap.get? k = some b ∧ φ k = id ∧ b.rename φ = c := by
    simp only [List.mem_map, Prod.exists, Prod.mk.injEq, SortedMap.get?_eq_some_iff]
  rw [← hmem]
  constructor
  · exact SortedMap.mem_of_get?_ofList
  · intro h
    obtain ⟨c', hc'⟩ := SortedMap.exists_get?_ofList h
    obtain ⟨k, b, hk, rfl, rfl⟩ := (hmem id c).1 h
    obtain ⟨k', b', hk', hid, rfl⟩ := (hmem _ c').1 (SortedMap.mem_of_get?_ofList hc')
    obtain rfl := hφ ((SortedMap.contains_iff _ _).2 ⟨_, hk'⟩)
      ((SortedMap.contains_iff _ _).2 ⟨_, hk⟩) hid
    cases hk.symm.trans hk'
    exact hc'

/-! ### Values that their keys tell apart -/

namespace Datum

/-- Values from JSON that hold no recorded references, whose numbers 64 bits can hold, as all can that
are read from text, and whose callables have one name and one digest if they have one key. -/
structure Plain (ds : List Datum) : Prop where
  decoded : ∀ d ∈ ds, d.Decoded
  representable : ∀ d ∈ ds, d.Representable
  callables : CallablesApart {p | p ∈ ds.flatMap visits}
  references : ∀ id, .ref id ∉ ds.flatMap visits

variable {ds es : List Datum}

theorem Plain.subset (h : Plain ds) (hsub : es ⊆ ds) : Plain es := by
  have hvisits : es.flatMap visits ⊆ ds.flatMap visits := by
    intro p hp
    obtain ⟨d, hd, hp⟩ := List.mem_flatMap.1 hp
    exact List.mem_flatMap.2 ⟨d, hsub hd, hp⟩
  refine ⟨fun d hd => h.decoded d (hsub hd), fun d hd => h.representable d (hsub hd), ?_, ?_⟩
  · intro _ _ _ _ hf hf' hkey
    exact h.callables (hvisits hf) (hvisits hf') hkey
  · exact fun id hid => h.references id (hvisits hid)

/-- Composite values with one key have the same parts and make the same cells. -/
theorem Plain.eq_of_key_eq (h : Plain ds) {d e : Datum} (hd : d ∈ ds.flatMap visits)
    (he : e ∈ ds.flatMap visits) (hdc : d.isComposite = true) (hec : e.isComposite = true)
    (hkey : d.key = e.key) : d.parts = e.parts ∧ ∀ slots, d.cell slots = e.cell slots := by
  obtain ⟨a, ha, hda⟩ := List.mem_flatMap.1 hd
  obtain ⟨b, hb, heb⟩ := List.mem_flatMap.1 he
  have hdd := (h.decoded a ha).of_mem_visits hda
  have hed := (h.decoded b hb).of_mem_visits heb
  have hdr := (h.representable a ha).of_mem_visits hda
  have her := (h.representable b hb).of_mem_visits heb
  refine ⟨parts_eq_of_key_eq hdd hed hdr her hdc hec hkey, fun slots => ?_⟩
  exact CallablesApart.cell_eq h.callables hd he hdd hed hdc hec hkey slots

/-- The parts of what is inside are inside, and no recorded references. -/
theorem Plain.ne_ref_of_mem_parts (h : Plain ds) {d p : Datum} (hd : d ∈ ds.flatMap visits)
    (hp : p ∈ d.parts) (id : HeapId) : p ≠ .ref id := by
  rintro rfl
  obtain ⟨a, ha, hda⟩ := List.mem_flatMap.1 hd
  refine h.references id (List.mem_flatMap.2 ⟨a, ha, mem_visits_trans ?_ hda⟩)
  exact mem_visits_of_part hp (mem_visits_self _)

end Datum

/-! ### Memories that know the same values -/

namespace Interner

variable {φ : HeapId → HeapId} {i j : Interner} {key : String} {id id' : HeapId}

/-- The number of each key in one interner is sent to its number in another. -/
def Translates (φ : HeapId → HeapId) (i j : Interner) : Prop :=
  ∀ key, j.find? key = (i.find? key).map φ

/-- The number that the key of a number has in another interner. -/
def translate (i j : Interner) (id : HeapId) : HeapId :=
  (((i.table.find? (·.2 == id)).map Prod.fst).bind j.find?).getD id

private theorem translate_of_mem (hi : i.Distinct) (hid : (key, id) ∈ i.table) :
    i.translate j id = (j.find? key).getD id := by
  have hfind : i.table.find? (·.2 == id) = some (key, id) := by
    cases hfind : i.table.find? (·.2 == id) with
    | none => exact absurd (List.find?_eq_none.1 hfind _ hid) (by simp)
    | some e =>
      have heq : e.2 = id := by simpa using List.find?_some hfind
      subst heq
      rw [hi.key_eq hid (List.mem_of_find?_eq_some hfind)]
  rw [translate, hfind]
  rfl

/-- Interners that know the same keys can be translated. -/
theorem translates_translate (hi : i.Distinct)
    (hkeys : ∀ key, i.find? key = none ↔ j.find? key = none) :
    Translates (i.translate j) i j := by
  intro key
  cases hfind : i.find? key with
  | none => exact (hkeys key).1 hfind
  | some id =>
    rw [Option.map_some, translate_of_mem hi ((find?_eq_some_iff hi.keys_nodup).1 hfind)]
    cases hfind' : j.find? key with
    | none => rw [(hkeys key).2 hfind'] at hfind; cases hfind
    | some id' => rfl

theorem Translates.mem_table (h : Translates φ i j) (hi : i.Distinct)
    (hid : (key, id) ∈ i.table) : (key, φ id) ∈ j.table := by
  apply mem_table_of_find?
  rw [h, (find?_eq_some_iff hi.keys_nodup).2 hid]
  rfl

private theorem Translates.exists_mem (h : Translates φ i j) (hj : j.Distinct)
    (hid : (key, id') ∈ j.table) : ∃ id, (key, id) ∈ i.table ∧ φ id = id' := by
  have hfind := (find?_eq_some_iff hj.keys_nodup).2 hid
  rw [h, Option.map_eq_some_iff] at hfind
  obtain ⟨id, hfind, heq⟩ := hfind
  exact ⟨id, mem_table_of_find? hfind, heq⟩

/-- No two numbers are sent to one, and none is left out. -/
theorem Translates.bijOn (h : Translates φ i j) (hi : i.Distinct) (hj : j.Distinct) :
    Set.BijOn φ {id | id ∈ i.known} {id | id ∈ j.known} := by
  refine ⟨?mapsTo, ?injOn, ?surjOn⟩
  case mapsTo =>
    intro id hid
    obtain ⟨key, hid⟩ := mem_known_iff.1 hid
    exact mem_known_iff.2 ⟨key, h.mem_table hi hid⟩
  case injOn =>
    intro a ha b hb hab
    obtain ⟨key, ha⟩ := mem_known_iff.1 ha
    obtain ⟨key', hb⟩ := mem_known_iff.1 hb
    have hb' := h.mem_table hi hb
    rw [← hab] at hb'
    cases hj.key_eq (h.mem_table hi ha) hb'
    exact value_unique hi.keys_nodup ha hb
  case surjOn =>
    intro id' hid'
    obtain ⟨key, hid'⟩ := mem_known_iff.1 hid'
    obtain ⟨id, hid, heq⟩ := h.exists_mem hj hid'
    exact ⟨id, mem_known_iff.2 ⟨key, hid⟩, heq⟩

end Interner

namespace Memory

open Datum Interner

variable {φ : HeapId → HeapId} {ds es : List Datum} {m n : Memory}

private theorem Knows.rename {d : Datum} {s t : Slot} (hφ : Translates φ m.interner n.interner)
    (hm : Distinct m.interner) (hn : Distinct n.interner) (h : Knows m d s) (h' : Knows n d t)
    (hd : ∀ id, d ≠ .ref id) : t = s.rename φ := by
  cases hcomp : d.isComposite with
  | false =>
    rw [h.of_atom hcomp, h'.of_atom hcomp]
    cases d with
    | ref id => exact absurd rfl (hd id)
    | _ => rfl
  | true =>
    obtain ⟨id, rfl, hid, -⟩ := h.of_composite hcomp
    obtain ⟨id', rfl, hid', -⟩ := h'.of_composite hcomp
    exact congrArg Slot.ref (value_unique hn.keys_nodup hid' (hφ.mem_table hm hid))

private theorem slots_rename {ps : List Datum} {slots slots' : List Slot}
    (hφ : Translates φ m.interner n.interner) (hm : Distinct m.interner)
    (hn : Distinct n.interner) (hps : ∀ p ∈ ps, ∀ id, p ≠ .ref id)
    (h : List.Forall₂ (Knows m) ps slots) (h' : List.Forall₂ (Knows n) ps slots') :
    slots' = slots.map (Slot.rename φ) := by
  induction h generalizing slots' with
  | nil => cases h'; rfl
  | cons hs _ ih =>
    cases h' with
    | cons hs' h' =>
      rw [List.forall_mem_cons] at hps
      exact List.cons_eq_cons.2 ⟨hs.rename hφ hm hn hs' hps.1, ih hps.2 h'⟩

/-- The cells of one key in two memories are the same, but for the numbers in them. -/
theorem Recorded.cell_rename (hds : Plain ds) (hφ : Translates φ m.interner n.interner)
    (hm : Recorded {p | p ∈ ds.flatMap visits} m) (hn : Recorded {p | p ∈ ds.flatMap visits} n)
    (hmd : Distinct m.interner) (hnd : Distinct n.interner) {key : String} {id id' : HeapId}
    (hid : (key, id) ∈ m.interner.table) (hid' : (key, id') ∈ n.interner.table) {c c' : Cell}
    (hc : m.heap.get? id = some c) (hc' : n.heap.get? id' = some c') : c' = c.rename φ := by
  obtain ⟨d, hd, hdcomp, hdid, slots, hslots, rfl⟩ := hm.cell id c hc
  obtain ⟨e, he, hecomp, heid, slots', hslots', rfl⟩ := hn.cell id' c' hc'
  have hkey : e.key = d.key := (hnd.key_eq heid hid').trans (hmd.key_eq hid hdid)
  obtain ⟨hparts, hcell⟩ := hds.eq_of_key_eq he hd hecomp hdcomp hkey
  rw [hparts] at hslots'
  have hsame : slots' = slots.map (Slot.rename φ) :=
    slots_rename hφ hmd hnd (fun p hp => hds.ne_ref_of_mem_parts hd hp) hslots hslots'
  rw [hcell, Datum.cell_rename, hsame]

/-- Memory that has cells for the values it knows, and no other cells. -/
structure Complete (ds : List Datum) (m : Memory) : Prop where
  recorded : Recorded {p | p ∈ ds.flatMap visits} m
  distinct : Distinct m.interner
  contains : ∀ e ∈ m.interner.table, m.heap.contains e.2 = true

private theorem Complete.exists_key (h : Complete ds m) {id : HeapId} {c : Cell}
    (hc : m.heap.get? id = some c) : ∃ key, (key, id) ∈ m.interner.table := by
  obtain ⟨d, -, -, hid, -⟩ := h.recorded.cell id c hc
  exact ⟨d.key, hid⟩

theorem Complete.exists_cell (h : Complete ds m) {key : String} {id : HeapId}
    (hid : (key, id) ∈ m.interner.table) : ∃ c, m.heap.get? id = some c :=
  (SortedMap.contains_iff _ _).1 (h.contains _ hid)

/-- One memory is another, but for its numbers: the number of each key is sent to its number in the
other, no two numbers are sent to one, and the heap is the same with all numbers sent. -/
structure Renames (φ : HeapId → HeapId) (m n : Memory) : Prop where
  translates : Translates φ m.interner n.interner
  bijOn : Set.BijOn φ {id | id ∈ m.interner.known} {id | id ∈ n.interner.known}
  heap_eq : n.heap = m.heap.rename φ

/-- Memories that know the same keys are the same, but for their numbers. -/
theorem Complete.renames (hds : Plain ds) (hm : Complete ds m) (hn : Complete ds n)
    (hφ : Translates φ m.interner n.interner) : Renames φ m n where
  translates := hφ
  bijOn := hφ.bijOn hm.distinct hn.distinct
  heap_eq := by
    have hcell {key : String} {id id' : HeapId} {c c' : Cell}
        (hid : (key, id) ∈ m.interner.table) (hid' : (key, id') ∈ n.interner.table)
        (hc : m.heap.get? id = some c) (hc' : n.heap.get? id' = some c') : c' = c.rename φ :=
      hm.recorded.cell_rename hds hφ hn.recorded hm.distinct hn.distinct hid hid' hc hc'
    have hknown : {id | m.heap.contains id = true} ⊆ {id | id ∈ m.interner.known} := by
      intro id hid
      obtain ⟨c, hc⟩ := (SortedMap.contains_iff _ _).1 hid
      exact mem_known_iff.2 (hm.exists_key hc)
    have hinj := (hφ.bijOn hm.distinct hn.distinct).injOn.mono hknown
    refine SortedMap.ext_get? fun id' => Option.ext fun c' => ?_
    rw [Heap.get?_rename hinj]
    constructor
    · intro hc'
      obtain ⟨key, hid'⟩ := hn.exists_key hc'
      obtain ⟨id, hid, heq⟩ := hφ.exists_mem hn.distinct hid'
      obtain ⟨c, hc⟩ := hm.exists_cell hid
      exact ⟨id, c, hc, heq, (hcell hid hid' hc hc').symm⟩
    · rintro ⟨id, c, hc, rfl, rfl⟩
      obtain ⟨key, hid⟩ := hm.exists_key hc
      have hid' := hφ.mem_table hm.distinct hid
      obtain ⟨c', hc'⟩ := hn.exists_cell hid'
      rw [hc', hcell hid hid' hc hc']

private theorem complete_encodeItems (hdata : ∀ p ∈ es.flatMap visits, p ∈ ds.flatMap visits)
    (hnext : ((∅ : Memory).encodeItems es).2.interner.next < UInt64.size) :
    Complete ds ((∅ : Memory).encodeItems es).2 where
  recorded := encodeItems_recorded (fun d hd p hp => hdata p (List.mem_flatMap.2 ⟨d, hd, hp⟩))
    (recorded_empty _)
  distinct := (encodeItems_extends ∅ es).distinct hnext distinct_empty
  contains e he := (stored_encodeItems es).cell e he (Set.notMem_empty _)

/-- Values that are encoded in another order end up in the same memory, but for the numbers: each
value is encoded as the slot that its slot in the other order is sent to. -/
theorem encodeItems_perm (hds : Plain ds) (hperm : ds.Perm es)
    (hnext : ((∅ : Memory).encodeItems ds).2.interner.next < UInt64.size) :
    ∃ φ, Renames φ ((∅ : Memory).encodeItems ds).2 ((∅ : Memory).encodeItems es).2 ∧
      ∀ (i j : Nat) (d : Datum), ds[i]? = some d → es[j]? = some d →
        ∃ s, ((∅ : Memory).encodeItems ds).1[i]? = some s ∧
          ((∅ : Memory).encodeItems es).1[j]? = some (Slot.rename φ s) := by
  have hvisits := hperm.flatMap_right visits
  have hkeys := hperm.flatMap_right keys
  have hnumbers := encodeItems_empty_numbers hds.decoded
  have hnumbers' := encodeItems_empty_numbers (hds.subset hperm.symm.subset).decoded
  have hnext' : ((∅ : Memory).encodeItems es).2.interner.next < UInt64.size := by
    rw [hnumbers'.next_eq, ← (perm_eraseDups hkeys).length_eq, ← hnumbers.next_eq]
    exact hnext
  have hm : Complete ds ((∅ : Memory).encodeItems ds).2 :=
    complete_encodeItems (fun _ hp => hp) hnext
  have hn : Complete ds ((∅ : Memory).encodeItems es).2 :=
    complete_encodeItems (fun _ hp => hvisits.mem_iff.2 hp) hnext'
  have hnone (key : String) :
      ((∅ : Memory).encodeItems ds).2.interner.find? key = none ↔
        ((∅ : Memory).encodeItems es).2.interner.find? key = none := by
    rw [hnumbers.find?_eq_none_iff, hnumbers'.find?_eq_none_iff, hkeys.mem_iff]
  have hφ := translates_translate hm.distinct hnone
  refine ⟨_, hm.renames hds hn hφ, fun i j d hi hj => ?_⟩
  obtain ⟨s, hs, hknows⟩ := exists_getElem?_right (encodeItems_knows ∅ ds) hi
  obtain ⟨t, ht, hknows'⟩ := exists_getElem?_right (encodeItems_knows ∅ es) hj
  have hd : ∀ id, d ≠ .ref id := by
    rintro id rfl
    exact hds.references id (List.mem_flatMap.2 ⟨_, List.mem_of_getElem? hi, mem_visits_self _⟩)
  exact ⟨s, hs, ht.trans (congrArg some (hknows.rename hφ hm.distinct hn.distinct hknows' hd))⟩

theorem plain_intertwined : Plain intertwined where
  decoded := decoded_intertwined
  representable := by
    intro d hd n hn
    have hn := List.mem_flatMap.2 ⟨d, hd, hn⟩
    simp [intertwined, visits, visitItems, visitEntries] at hn
    rw [hn]
    decide
  callables := by
    intro name source name' source' hf hf' hkey
    simp [intertwined, visits, visitItems, visitEntries] at hf hf'
    rcases hf with ⟨rfl, rfl⟩ | ⟨rfl, rfl⟩ <;> rcases hf' with ⟨rfl, rfl⟩ | ⟨rfl, rfl⟩
    · exact ⟨rfl, rfl⟩
    · exact absurd hkey (by decide)
    · exact absurd hkey (by decide)
    · exact ⟨rfl, rfl⟩
  references := by
    intro id hid
    simp [intertwined, visits, visitItems, visitEntries] at hid

theorem intertwined_reversed : Plain intertwined ∧ intertwined.Perm intertwined.reverse ∧
    ((∅ : Memory).encodeItems intertwined).2.interner.next < UInt64.size ∧
    ∃ φ, Renames φ ((∅ : Memory).encodeItems intertwined).2
        ((∅ : Memory).encodeItems intertwined.reverse).2 ∧
      ∀ (i j : Nat) (d : Datum), intertwined[i]? = some d → intertwined.reverse[j]? = some d →
        ∃ s, ((∅ : Memory).encodeItems intertwined).1[i]? = some s ∧
          ((∅ : Memory).encodeItems intertwined.reverse).1[j]? = some (Slot.rename φ s) := by
  have hperm := (List.reverse_perm intertwined).symm
  have hnext : ((∅ : Memory).encodeItems intertwined).2.interner.next < UInt64.size := by decide
  exact ⟨plain_intertwined, hperm, hnext, encodeItems_perm plain_intertwined hperm hnext⟩

end Memory
end Retrace

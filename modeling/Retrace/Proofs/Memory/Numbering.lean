import Mathlib.Data.List.Basic
import Retrace.Proofs.Datum.Key
import Retrace.Proofs.Memory.Encoding

/-! Numbers as ranks. Where nothing is ever forgotten, the number of a key is its rank among the keys
first met when all values are visited in full, each in front of its parts: that encoding passes over
the parts of what it knows already makes no difference. -/
namespace Retrace

namespace Datum

/-- The keys of a value and of all values inside it that live on the heap, in the order of visits. -/
def keys (d : Datum) : List String := (d.visits.filter isComposite).map key

theorem keys_of_atom {d : Datum} (h : d.isComposite = false) : d.keys = [] := by
  simp [keys, visits_eq, parts_eq_nil_of_atom h, h]

theorem keys_flatMap (ds : List Datum) :
    ((ds.flatMap visits).filter isComposite).map key = ds.flatMap keys := by
  induction ds with
  | nil => rfl
  | cons d ds ih =>
    rw [List.flatMap_cons, List.flatMap_cons, List.filter_append, List.map_append, ih, keys]

theorem keys_of_composite {d : Datum} (h : d.isComposite = true) :
    d.keys = d.key :: d.parts.flatMap keys := by
  rw [keys, visits_eq, List.filter_cons_of_pos h, List.map_cons, keys_flatMap]

private theorem key_mem_keys {d : Datum} (h : d.isComposite = true) : d.key ∈ d.keys := by
  rw [keys_of_composite h]
  exact List.mem_cons_self

private theorem flatMap_keys_eq {ds es : List Datum}
    (h : List.Forall₂ (fun d e => d.keys = e.keys) ds es) : ds.flatMap keys = es.flatMap keys := by
  induction h with
  | nil => rfl
  | cons hde _ ih => rw [List.flatMap_cons, List.flatMap_cons, hde, ih]

/-- Values that are alike have the same keys all through. -/
theorem Alike.keys_eq {d e : Datum} (h : Alike d e) : d.keys = e.keys := by
  induction d using partsInduction generalizing e with
  | step d ih =>
    cases hcomp : d.isComposite with
    | false => rw [keys_of_atom hcomp, keys_of_atom (h.isComposite_eq ▸ hcomp)]
    | true =>
      have hparts := forall₂_imp_mem h.parts fun p hp q _ hpq => ih p hp hpq
      rw [keys_of_composite hcomp, keys_of_composite (h.isComposite_eq ▸ hcomp),
        flatMap_keys_eq hparts, h.key_eq]

/-- Composite values with one key have the same keys all through. -/
theorem keys_eq_of_key_eq {d e : Datum} (hd : Decoded d) (he : Decoded e)
    (hdc : d.isComposite = true) (hec : e.isComposite = true) (h : d.key = e.key) :
    d.keys = e.keys := by
  have hparts := (alike_parts_of_key_eq hd he hdc hec h).imp fun _ _ hpq => hpq.keys_eq
  rw [keys_of_composite hdc, keys_of_composite hec, flatMap_keys_eq hparts, h]

end Datum

/-! ### Ranks -/

/-- The place of a key among the keys first met, counted from one. -/
def rank (keys : List String) (key : String) : Nat := keys.eraseDups.idxOf key + 1

private theorem rank_append_of_mem {keys : List String} {key : String} (h : key ∈ keys)
    (more : List String) : rank (keys ++ more) key = rank keys key := by
  rw [rank, List.eraseDups_append, List.idxOf_append_of_mem (List.mem_eraseDups.2 h), rank]

private theorem rank_append_new {keys : List String} {key : String} (h : key ∉ keys) :
    rank (keys ++ [key]) key = keys.eraseDups.length + 1 := by
  have hmem : key ∉ keys.eraseDups := fun hmem => h (List.mem_eraseDups.1 hmem)
  rw [rank, eraseDups_append_new h, List.idxOf_append_of_notMem hmem, List.idxOf_cons_self]

namespace Interner

/-- The interner numbers the keys met so far by rank. All keys inside a value have been met with it,
but for those of values that are being built. -/
structure Numbers (data : Set Datum) (pending : Set String) (keys : List String)
    (i : Interner) : Prop where
  next_eq : i.next = keys.eraseDups.length + 1
  find?_iff : ∀ key id, i.find? key = some id ↔ key ∈ keys ∧ id = (rank keys key).toUInt64
  closed : ∀ d ∈ data, d.isComposite = true → d.key ∈ keys → d.key ∉ pending → d.keys ⊆ keys

variable {data : Set Datum} {pending : Set String} {keys : List String} {i : Interner}

theorem numbers_empty (data : Set Datum) : Numbers data ∅ [] ∅ where
  next_eq := rfl
  find?_iff _ _ := by simp [find?, EmptyCollection.emptyCollection, empty]
  closed _ _ _ h := nomatch h

private theorem Numbers.not_mem (h : Numbers data pending keys i) {key : String}
    (hkey : i.find? key = none) : key ∉ keys := by
  intro hmem
  rw [(h.find?_iff key _).2 ⟨hmem, rfl⟩] at hkey
  cases hkey

theorem Numbers.find?_eq_none_iff (h : Numbers data pending keys i) {key : String} :
    i.find? key = none ↔ key ∉ keys := by
  constructor
  · exact h.not_mem
  · intro hkey
    cases hfind : i.find? key with
    | none => rfl
    | some id => exact absurd ((h.find?_iff key id).1 hfind).1 hkey

/-- Meeting known keys once more changes nothing. -/
theorem Numbers.append_of_subset (h : Numbers data pending keys i) {more : List String}
    (hmore : more ⊆ keys) : Numbers data pending (keys ++ more) i where
  next_eq := by rw [eraseDups_append_of_subset hmore]; exact h.next_eq
  find?_iff key id := by
    have hmem : key ∈ keys ++ more ↔ key ∈ keys := by
      rw [List.mem_append, or_iff_left_of_imp fun hkey => hmore hkey]
    rw [h.find?_iff, hmem]
    refine and_congr_right fun hkey => ?_
    rw [rank_append_of_mem hkey]
  closed d hd hcomp hkey hpending := by
    have hkey' : d.key ∈ keys := (List.mem_append.1 hkey).elim id fun hkey => hmore hkey
    exact List.Subset.trans (h.closed d hd hcomp hkey' hpending) (List.subset_append_left _ _)

/-- A new key takes the next rank. -/
theorem Numbers.allocate (h : Numbers data pending keys i) {key : String}
    (hkey : i.find? key = none) :
    Numbers data (insert key pending) (keys ++ [key]) (i.allocate key).2 where
  next_eq := by
    rw [eraseDups_append_new (h.not_mem hkey), List.length_append, Interner.allocate, h.next_eq]
    rfl
  find?_iff k id := by
    have hnext : i.next = rank (keys ++ [key]) key := by
      rw [rank_append_new (h.not_mem hkey), h.next_eq]
    rw [Interner.allocate, find?, List.lookup_cons, List.mem_append, List.mem_singleton]
    by_cases hk : k = key
    · subst hk
      simp [counter, hnext, eq_comm]
    · have hne : (k == key) = false := beq_false_of_ne hk
      rw [hne, or_iff_left hk]
      refine (h.find?_iff k id).trans (and_congr_right fun hmem => ?_)
      rw [rank_append_of_mem hmem]
  closed d hd hcomp hmem hpending := by
    have hne : d.key ≠ key := fun heq => hpending (heq ▸ Set.mem_insert _ _)
    have hmem' : d.key ∈ keys :=
      (List.mem_append.1 hmem).resolve_right fun heq => hne (List.mem_singleton.1 heq)
    have hpending' : d.key ∉ pending := fun hp => hpending (Set.mem_insert_of_mem _ hp)
    exact List.Subset.trans (h.closed d hd hcomp hmem' hpending') (List.subset_append_left _ _)

/-- A key is no longer pending once all keys inside its value have been met. -/
theorem Numbers.settle (hdecoded : ∀ d ∈ data, d.Decoded) {d : Datum} (hd : d ∈ data)
    (hcomp : d.isComposite = true) (h : Numbers data (insert d.key pending) keys i)
    (hkeys : d.keys ⊆ keys) : Numbers data pending keys i where
  next_eq := h.next_eq
  find?_iff := h.find?_iff
  closed e he hecomp hmem hpending := by
    by_cases heq : e.key = d.key
    · rw [Datum.keys_eq_of_key_eq (hdecoded e he) (hdecoded d hd) hecomp hcomp heq]
      exact hkeys
    · exact h.closed e he hecomp hmem fun hp => hp.elim heq hpending

end Interner

namespace Memory

open Interner

variable {data : Set Datum} {pending : Set String} {keys : List String}

def Ranked (keys : List String) (d : Datum) (s : Slot) : Prop :=
  d.isComposite = true → s = .ref (rank keys d.key).toUInt64

theorem Ranked.append {d : Datum} {s : Slot} (h : Ranked keys d s)
    (hkeys : d.isComposite = true → d.key ∈ keys) (more : List String) :
    Ranked (keys ++ more) d s := by
  intro hcomp
  rw [h hcomp, rank_append_of_mem (hkeys hcomp)]

/-- Values none of which has the key of a cell that is being built. -/
def Avoids (pending : Set String) (d : Datum) : Prop :=
  ∀ p ∈ d.visits, p.isComposite = true → p.key ∉ pending

theorem avoids_empty (d : Datum) : Avoids ∅ d := fun _ _ _ => Set.notMem_empty _

theorem Avoids.key {d : Datum} (h : Avoids pending d) (hd : d.isComposite = true) :
    d.key ∉ pending :=
  h d d.mem_visits_self hd

/-- While a value that was read is built, its own key joins the pending ones. -/
theorem Avoids.part {d p : Datum} (h : Avoids pending d) (hd : d.Decoded) (hp : p ∈ d.parts) :
    Avoids (insert d.key pending) p := by
  intro q hq hcomp hmem
  rcases hmem with heq | hmem
  · exact Datum.key_ne_of_mem_parts hd hp hq hcomp heq
  · exact h q (Datum.mem_visits_of_part hp hq) hcomp hmem

private theorem encodeItems_numbers_of {ds : List Datum}
    (ih : ∀ d ∈ ds, ∀ keys m, Stored pending m → Numbers data pending keys m.interner →
      Numbers data pending (keys ++ d.keys) (m.encode d).2.interner ∧
        Ranked (keys ++ d.keys) d (m.encode d).1)
    {m : Memory} (hm : Stored pending m) (h : Numbers data pending keys m.interner) :
    Numbers data pending (keys ++ ds.flatMap Datum.keys) (m.encodeItems ds).2.interner ∧
      List.Forall₂ (Ranked (keys ++ ds.flatMap Datum.keys)) ds (m.encodeItems ds).1 := by
  induction ds generalizing keys m with
  | nil =>
    rw [List.flatMap_nil, List.append_nil]
    exact ⟨h, .nil⟩
  | cons d ds rest =>
    rw [List.forall_mem_cons] at ih
    obtain ⟨hd, hslot⟩ := ih.1 keys m hm h
    obtain ⟨hrest, hslots⟩ := rest ih.2 (encode_grows d hm).2 hd
    rw [List.flatMap_cons, ← List.append_assoc]
    refine ⟨hrest, .cons (hslot.append (fun hcomp => ?_) _) hslots⟩
    exact List.mem_append_right _ (Datum.key_mem_keys hcomp)

/-- Encoding a value meets all keys inside it, and refers to it by its rank. -/
theorem encode_numbers (hdecoded : ∀ d ∈ data, d.Decoded) {d : Datum} (hd : Avoids pending d)
    (hdata : ∀ p ∈ d.visits, p ∈ data) {m : Memory} (hm : Stored pending m)
    (h : Numbers data pending keys m.interner) :
    Numbers data pending (keys ++ d.keys) (m.encode d).2.interner ∧
      Ranked (keys ++ d.keys) d (m.encode d).1 := by
  induction d using Datum.partsInduction generalizing pending keys m with
  | step d ih =>
    cases hcomp : d.isComposite with
    | false =>
      rw [encode_of_atom m hcomp, Datum.keys_of_atom hcomp, List.append_nil]
      exact ⟨h, fun hcomp' => absurd hcomp' (by simp [hcomp])⟩
    | true =>
      rw [encode_of_composite m hcomp]
      cases hfind : m.interner.find? d.key with
      | some id =>
        -- the parts are passed over; their keys were met with that of the value
        rw [intern_of_stored hfind (hm.cell _ (mem_table_of_find? hfind) (hd.key hcomp))]
        obtain ⟨hkey, hid⟩ := (h.find?_iff _ _).1 hfind
        have hkeys := h.closed d (hdata d d.mem_visits_self) hcomp hkey (hd.key hcomp)
        refine ⟨h.append_of_subset hkeys, fun _ => ?_⟩
        rw [rank_append_of_mem hkey, hid]
      | none =>
        rw [intern_of_new hfind]
        have hdd := hdecoded d (hdata d d.mem_visits_self)
        obtain ⟨hitems, -⟩ := encodeItems_numbers_of
          (fun p hp keys m => ih p hp (hd.part hdd hp)
            fun q hq => hdata q (Datum.mem_visits_of_part hp hq))
          (hm.remember hfind) (h.allocate hfind)
        have hall : keys ++ [d.key] ++ d.parts.flatMap Datum.keys = keys ++ d.keys := by
          rw [Datum.keys_of_composite hcomp, List.append_assoc, List.singleton_append]
        rw [hall] at hitems
        refine ⟨hitems.settle hdecoded (hdata d d.mem_visits_self) hcomp
          (List.subset_append_right _ _), fun _ => ?_⟩
        rw [← hall, rank_append_of_mem (List.mem_append_right _ (List.mem_singleton_self _)),
          rank_append_new (h.not_mem hfind), counter, h.next_eq]

theorem encodeItems_numbers (hdecoded : ∀ d ∈ data, d.Decoded) {ds : List Datum}
    (hds : ∀ d ∈ ds, Avoids pending d) (hdata : ∀ d ∈ ds, ∀ p ∈ d.visits, p ∈ data) {m : Memory}
    (hm : Stored pending m) (h : Numbers data pending keys m.interner) :
    Numbers data pending (keys ++ ds.flatMap Datum.keys) (m.encodeItems ds).2.interner ∧
      List.Forall₂ (Ranked (keys ++ ds.flatMap Datum.keys)) ds (m.encodeItems ds).1 :=
  encodeItems_numbers_of (fun d hd _ _ => encode_numbers hdecoded (hds d hd) (hdata d hd)) hm h

end Memory
end Retrace

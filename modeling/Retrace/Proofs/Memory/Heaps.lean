import Mathlib.Logic.Function.Basic
import Retrace.Proofs.Memory.Renaming
import Retrace.Proofs.Snapshot.Search

/-! One interner for many heaps. Values are encoded into them in any order, so that a heap may lack
cells that others have; each heap gets what it lacks of a value and of its parts, and heaps never
disagree about the cell under a number. -/
namespace Retrace

/-- Heaps that share an interner. -/
structure Heaps (ι : Type) where
  interner : Interner
  heap : ι → Heap

namespace Memory

open Datum Interner

variable {ds : List Datum} {m n : Memory}

theorem Knows.contains {d : Datum} {id : HeapId} (h : Knows m d (.ref id))
    (hd : ∀ id, d ≠ .ref id) : m.heap.contains id = true := by
  cases hcomp : d.isComposite with
  | true =>
    obtain ⟨_, heq, -, hcell⟩ := h.of_composite hcomp
    cases heq
    exact hcell
  | false =>
    have hslot := h.of_atom hcomp
    cases d with
    | ref _ => exact absurd rfl (hd _)
    | _ => cases hslot

/-- Where no references were recorded, cells point at cells that are there. -/
theorem Recorded.closed (hds : Plain ds) (h : Recorded {p | p ∈ ds.flatMap visits} m) :
    Closed m.heap {id | m.heap.contains id = true} := by
  intro id hid
  obtain ⟨c, hc⟩ := (SortedMap.contains_iff _ _).1 hid
  obtain ⟨d, hd, -, -, slots, hslots, rfl⟩ := h.cell id c hc
  refine ⟨_, hc, fun target htarget => ?_⟩
  rw [Cell.references, slots_cell hslots.length_eq.symm] at htarget
  obtain ⟨slot, hslot, htarget⟩ := List.mem_filterMap.1 htarget
  obtain ⟨p, hp, hknows⟩ := exists_of_mem_right hslots hslot
  cases slot with
  | ref id =>
    cases htarget
    exact hknows.contains (hds.ne_ref_of_mem_parts hd hp)
  | _ => cases htarget

/-- Memories with one interner do not disagree about a cell. -/
theorem Recorded.agree (hds : Plain ds) (hm : Recorded {p | p ∈ ds.flatMap visits} m)
    (hn : Recorded {p | p ∈ ds.flatMap visits} n) (hinterner : n.interner = m.interner)
    (hdistinct : Distinct m.interner) {id : HeapId} {c c' : Cell}
    (hc : m.heap.get? id = some c) (hc' : n.heap.get? id = some c') : c = c' := by
  have htranslates : Translates (fun id => id) m.interner n.interner := fun key => by
    rw [hinterner, Option.map_id_fun']
    rfl
  obtain ⟨d, -, -, hid, -⟩ := hm.cell id c hc
  have hcell := hm.cell_rename hds htranslates hn hdistinct (hinterner ▸ hdistinct) hid
    (hinterner ▸ hid) hc hc'
  exact (hcell.trans c.rename_id).symm

end Memory

namespace Heaps

variable {ι : Type}

def empty : Heaps ι := ⟨∅, fun _ => ∅⟩

instance : EmptyCollection (Heaps ι) := ⟨empty⟩

def memory (hs : Heaps ι) (i : ι) : Memory := ⟨hs.interner, hs.heap i⟩

def Recorded (data : Set Datum) (hs : Heaps ι) : Prop := ∀ j, (hs.memory j).Recorded data

theorem recorded_empty (data : Set Datum) : Recorded data (∅ : Heaps ι) :=
  fun _ => Memory.recorded_empty data

variable [DecidableEq ι]

def encode (hs : Heaps ι) (i : ι) (d : Datum) : Slot × Heaps ι :=
  let (slot, m) := (hs.memory i).encode d
  (slot, ⟨m.interner, Function.update hs.heap i m.heap⟩)

/-- Encodes values one after the other, each into a heap of its own choice. -/
def run (hs : Heaps ι) (calls : List (ι × Datum)) : Heaps ι :=
  calls.foldl (fun hs call => (hs.encode call.1 call.2).2) hs

open Memory Datum Interner

variable {data : Set Datum} {hs : Heaps ι} {calls : List (ι × Datum)} {i : ι} {d : Datum}

private theorem memory_encode_self (hs : Heaps ι) (i : ι) (d : Datum) :
    (hs.encode i d).2.memory i = ((hs.memory i).encode d).2 := by
  simp only [encode, memory, Function.update_self]

private theorem memory_encode_of_ne (hs : Heaps ι) {i j : ι} (h : j ≠ i) (d : Datum) :
    (hs.encode i d).2.memory j = ⟨((hs.memory i).encode d).2.interner, hs.heap j⟩ := by
  simp only [encode, memory, Function.update_of_ne h]

/-- Each heap is extended: the one that the value is encoded into, and the others by its keys. -/
theorem encode_extends (hs : Heaps ι) (i j : ι) (d : Datum) :
    Extends (hs.memory j) ((hs.encode i d).2.memory j) := by
  have h := Memory.encode_extends (hs.memory i) d
  by_cases hij : j = i
  · subst hij
    rw [memory_encode_self]
    exact h
  · rw [memory_encode_of_ne hs hij]
    exact ⟨h.next_le, h.table, fun _ hid => hid, h.keys_nodup, h.distinct⟩

private theorem run_extends (hs : Heaps ι) (calls : List (ι × Datum)) (j : ι) :
    Extends (hs.memory j) ((hs.run calls).memory j) := by
  induction calls generalizing hs with
  | nil => exact .refl _
  | cons call calls ih => exact (encode_extends hs call.1 j call.2).trans (ih _)

theorem Recorded.encode (h : Recorded data hs) (hdata : ∀ p ∈ d.visits, p ∈ data) (i : ι) :
    Recorded data (hs.encode i d).2 := by
  intro j
  by_cases hij : j = i
  · subst hij
    rw [memory_encode_self]
    exact encode_recorded hdata (h j)
  · refine (h j).of_heap_eq (encode_extends hs i j d) ?_
    rw [memory_encode_of_ne hs hij]
    rfl

theorem Recorded.run (h : Recorded data hs)
    (hdata : ∀ p ∈ (calls.map Prod.snd).flatMap visits, p ∈ data) :
    Recorded data (hs.run calls) := by
  induction calls generalizing hs with
  | nil => exact h
  | cons call calls ih =>
    rw [List.map_cons, List.flatMap_cons, List.forall_mem_append] at hdata
    exact ih (h.encode hdata.1 call.1) hdata.2

/-- After each of any calls the heaps are closed under references, the heap of the call has the cell
of its value, which holds what the parts of the value are encoded as, and no two heaps hold different
cells under one number. -/
theorem heaps_agree (hplain : Plain (d :: calls.map Prod.snd))
    (hnext : (((∅ : Heaps ι).run calls).encode i d).2.interner.next < UInt64.size) :
    let hs := (((∅ : Heaps ι).run calls).encode i d).2
    (∀ j, Closed (hs.heap j) {id | (hs.heap j).contains id = true}) ∧
      (d.isComposite = true → ∃ id slots, (((∅ : Heaps ι).run calls).encode i d).1 = .ref id ∧
        (hs.heap i).get? id = some (d.cell slots) ∧
        List.Forall₂ (fun p s => (hs.memory i).encode p = (s, hs.memory i)) d.parts slots) ∧
      ∀ j k id c c', (hs.heap j).get? id = some c → (hs.heap k).get? id = some c' → c = c' := by
  intro hs
  have hdata : ∀ p ∈ (calls.map Prod.snd).flatMap visits,
      p ∈ {p | p ∈ (d :: calls.map Prod.snd).flatMap visits} :=
    fun p hp => List.mem_append_right _ hp
  have hd : ∀ p ∈ d.visits, p ∈ {p | p ∈ (d :: calls.map Prod.snd).flatMap visits} :=
    fun p hp => List.mem_append_left _ hp
  have hbefore := (recorded_empty (ι := ι) _).run hdata
  have hafter := hbefore.encode hd i
  have hextends := (run_extends ∅ calls i).trans (encode_extends _ i i d)
  have hdistinct := hextends.distinct hnext distinct_empty
  refine ⟨fun j => (hafter j).closed hplain, fun hcomp => ?_, fun j k id c c' hc hc' => ?_⟩
  · have hknows := encode_knows (((∅ : Heaps ι).run calls).memory i) d
    rw [← memory_encode_self] at hknows
    obtain ⟨id, hslot, hid, hcell⟩ := hknows.of_composite hcomp
    obtain ⟨e, he, hecomp, hkey, slots, hslots, hcell⟩ :=
      (hafter i).exists_cell hdistinct hcomp (.cell hcomp hid hcell)
    obtain ⟨hparts, hsame⟩ := hplain.eq_of_key_eq he (hd d d.mem_visits_self) hecomp hcomp hkey
    rw [hparts] at hslots
    refine ⟨id, slots, hslot, hcell.trans (congrArg some (hsame slots)), ?_⟩
    exact hslots.imp fun p s hs => hs.encode_eq (hafter i).keys_nodup
  · exact (hafter j).agree hplain (hafter k) rfl hdistinct hc hc'

/-- A list is encoded into one heap, and a list inside it into another. -/
def fillings : List (Bool × Datum) :=
  let inner := Datum.list [.number (.unsigned 7)]
  [(true, .list [.object "P" [("b", inner)], .function "g" ""]), (false, inner)]

/-- The outer list once more. The second heap has one of its parts and lacks the rest. -/
def refilled : Datum :=
  .list [.object "P" [("b", .list [.number (.unsigned 7)])], .function "g" ""]

def refilledHeaps : Heaps Bool := (((∅ : Heaps Bool).run fillings).encode false refilled).2

theorem fillings_agree :
    Plain (refilled :: fillings.map Prod.snd) ∧ refilledHeaps.interner.next < UInt64.size ∧
      (∀ j, Closed (refilledHeaps.heap j) {id | (refilledHeaps.heap j).contains id = true}) ∧
      (refilled.isComposite = true → ∃ id slots,
        (((∅ : Heaps Bool).run fillings).encode false refilled).1 = .ref id ∧
        (refilledHeaps.heap false).get? id = some (refilled.cell slots) ∧
        List.Forall₂ (fun p s =>
          (refilledHeaps.memory false).encode p = (s, refilledHeaps.memory false))
          refilled.parts slots) ∧
      ∀ j k id c c', (refilledHeaps.heap j).get? id = some c →
        (refilledHeaps.heap k).get? id = some c' → c = c' := by
  have hplain : Plain (refilled :: fillings.map Prod.snd) :=
    plain_intertwined.subset (by simp [intertwined, fillings, refilled])
  have hnext : refilledHeaps.interner.next < UInt64.size := by decide
  exact ⟨hplain, hnext, heaps_agree hplain hnext⟩

end Heaps
end Retrace

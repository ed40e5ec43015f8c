import Retrace.Proofs.Datum.Key
import Retrace.Proofs.Memory.Merging

/-! Where keys tell values apart, the cell under a remembered number is that of every value with the
remembered key, not only of the one it was built for. -/
namespace Retrace

namespace Datum

/-- Callables with one key have one name and one digest. -/
def CallablesApart (data : Set Datum) : Prop :=
  ∀ {name source name' source' : String}, function name source ∈ data →
    function name' source' ∈ data → (function name source).key = (function name' source').key →
      name = name' ∧ digest source = digest source'

/-- Numbers that are printed alike are the same. -/
def NumbersApart (data : Set Datum) : Prop :=
  ∀ {m n : Number}, number m ∈ data → number n ∈ data → m.text = n.text → m.same n = true

/-- Values from JSON, with all inside them, that their keys tell apart. -/
structure Telling (data : Set Datum) : Prop where
  decoded : ∀ d ∈ data, d.Decoded
  part : ∀ d ∈ data, ∀ p ∈ d.parts, p ∈ data
  callables : CallablesApart data
  numbers : NumbersApart data

theorem Alike.cell_eq {d e : Datum} (h : Alike d e) (slots : List Slot) :
    d.cell slots = e.cell slots := by
  cases h with
  | mapping names _ => exact congrArg (fun names => Cell.mapping (names.zip slots)) names
  | object className names _ =>
    exact congrArg (fun names => Cell.object className (names.zip slots)) names
  | _ => rfl

/-- Composite values with one key make the same cells. -/
theorem CallablesApart.cell_eq {data : Set Datum} (h : CallablesApart data) {d e : Datum}
    (hd : d ∈ data) (he : e ∈ data) (hdd : Decoded d) (hed : Decoded e)
    (hdc : d.isComposite = true) (hec : e.isComposite = true) (hkey : d.key = e.key)
    (slots : List Slot) : d.cell slots = e.cell slots := by
  rcases functions_or_alike_of_key_eq hdd hed hdc hec hkey with ⟨hdf, hef⟩ | halike
  · cases d with
    | function name source =>
      cases e with
      | function name' source' =>
        obtain ⟨rfl, hdigest⟩ := h hd he hkey
        exact congrArg (Cell.function name) hdigest
      | _ => cases hef
    | _ => cases hdf
  · exact halike.cell_eq slots

end Datum

namespace Memory

open Datum

variable {data : Set Datum} {m : Memory}

/-- A slot that stands for a value stands for one that is alike. -/
theorem Stands.of_alike {table : List (String × HeapId)} {d e : Datum} {s : Slot}
    (hs : Stands table d s) (h : Alike d e) (hnumbers : NumbersApart data) (hd : d ∈ data)
    (he : e ∈ data) : Stands table e s := by
  cases hs with
  | cell hcomp hid => exact .cell (h.isComposite_eq ▸ hcomp) (h.key_eq ▸ hid)
  | atom hatom hslot =>
    refine .atom (h.isComposite_eq ▸ hatom) ?_
    cases h with
    | @number m n htext =>
      have hsame : (Slot.number n).same (.number m) = true := hnumbers he hd htext.symm
      exact Slot.same_trans hsame hslot
    | list _ | mapping _ _ | function _ _ | object _ _ _ => cases hatom
    | _ => exact hslot

private theorem stands_of_alike {table : List (String × HeapId)} {ds es : List Datum}
    {slots : List Slot} (hs : List.Forall₂ (Stands table) ds slots)
    (h : List.Forall₂ Alike ds es) (hnumbers : NumbersApart data) (hds : ∀ d ∈ ds, d ∈ data)
    (hes : ∀ e ∈ es, e ∈ data) : List.Forall₂ (Stands table) es slots := by
  induction hs generalizing es with
  | nil => cases h; exact .nil
  | cons hd _ ih =>
    cases h with
    | cons hde h =>
      rw [List.forall_mem_cons] at hds hes
      exact .cons (hd.of_alike hde hnumbers hds.1 hes.1) (ih h hds.2 hes.2)

/-- The cell under the number of a key is that of every value with the key. -/
theorem Sound.built_of_mem (h : Sound data ∅ m) (htelling : Telling data) {d : Datum}
    (hd : d ∈ data) (hcomp : d.isComposite = true) {id : HeapId}
    (hid : (d.key, id) ∈ m.interner.table) : Built m d id := by
  obtain ⟨e, he, hecomp, hkey, slots, hslots, hcell⟩ :=
    h.built _ hid (Set.notMem_empty _)
  have hed := htelling.decoded e he
  have hdd := htelling.decoded d hd
  have hparts := alike_parts_of_key_eq hed hdd hecomp hcomp hkey
  refine ⟨slots, ?_, hcell.trans (congrArg some ?_)⟩
  · exact stands_of_alike hslots hparts htelling.numbers (htelling.part e he) (htelling.part d hd)
  · exact CallablesApart.cell_eq htelling.callables he hd hed hdd hecomp hcomp hkey slots

end Memory
end Retrace

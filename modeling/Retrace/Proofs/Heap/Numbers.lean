import Mathlib.Data.List.Forall2
import Retrace.Heap.Json
import Retrace.Proofs.Memory.Merging

/-! The numbers in a cell, and what sameness makes of them: two cells are the same when they are equal
but for the signs of zeros. Their JSON forms tell such cells apart. -/
namespace Retrace

namespace Slot

def mapNumber (f : Number → Number) : Slot → Slot
  | .number n => .number (f n)
  | s => s

end Slot

namespace Cell

def mapNumbers (f : Number → Number) : Cell → Cell
  | .list elements => .list (elements.map (Slot.mapNumber f))
  | .mapping entries => .mapping (entries.map fun e => (e.1, e.2.mapNumber f))
  | .function name digest => .function name digest
  | .object className fields => .object className (fields.map fun e => (e.1, e.2.mapNumber f))

end Cell

/-! ### Zeros -/

/-- The number with no sign if it is zero. -/
def Number.absZero : Number → Number
  | .double ⟨_, 0⟩ => .double ⟨false, 0⟩
  | n => n

theorem Number.same_iff (m n : Number) : m.same n = true ↔ m.absZero = n.absZero := by
  cases m with
  | double x =>
    obtain ⟨neg, units⟩ := x
    cases n with
    | double y =>
      obtain ⟨neg', units'⟩ := y
      cases units <;> cases units' <;> simp [same, Double.same, absZero, and_comm]
    | _ => cases units <;> simp [same, absZero]
  | _ =>
    cases n with
    | double y =>
      obtain ⟨neg', units'⟩ := y
      cases units' <;> simp [same, absZero]
    | _ => simp [same, absZero]

namespace Slot

def absZero : Slot → Slot := mapNumber Number.absZero

theorem same_iff (a b : Slot) : a.same b = true ↔ a.absZero = b.absZero := by
  cases a with
  | number m =>
    cases b with
    | number n =>
      rw [same, Number.same_iff, absZero, mapNumber, mapNumber, Slot.number.injEq]
    | _ => simp [same, absZero, mapNumber]
  | _ => cases b <;> simp [same, absZero, mapNumber]

end Slot

private theorem sameLists_iff_map {same : α → α → Bool} {f : α → β}
    (h : ∀ a b, same a b = true ↔ f a = f b) (as bs : List α) :
    sameLists same as bs = true ↔ as.map f = bs.map f := by
  rw [sameLists_iff, ← List.forall₂_eq_eq_eq, List.forall₂_map_left_iff,
    List.forall₂_map_right_iff]
  simp only [h]

namespace Cell

def absZero : Cell → Cell := mapNumbers Number.absZero

/-- Cells are the same when they are equal but for the signs of zeros. -/
theorem same_iff (c c' : Cell) : c.same c' = true ↔ c.absZero = c'.absZero := by
  have hentries (as bs : Slots) : same.sameEntries as bs = true ↔
      as.map (fun e => (e.1, e.2.absZero)) = bs.map fun e => (e.1, e.2.absZero) :=
    sameLists_iff_map (fun a b => by
      rw [Bool.and_eq_true, decide_eq_true_eq, Slot.same_iff, Prod.mk.injEq]) as bs
  cases c with
  | list as =>
    cases c' with
    | list bs =>
      rw [same, sameLists_iff_map Slot.same_iff]
      exact (Cell.list.injEq _ _).symm.to_iff
    | _ => simp [same, absZero, mapNumbers]
  | mapping as =>
    cases c' with
    | mapping bs =>
      rw [same, hentries]
      exact (Cell.mapping.injEq _ _).symm.to_iff
    | _ => simp [same, absZero, mapNumbers]
  | function name digest =>
    cases c' with
    | function name' digest' => simp [same, absZero, mapNumbers]
    | _ => simp [same, absZero, mapNumbers]
  | object className as =>
    cases c' with
    | object className' bs =>
      rw [same, Bool.and_eq_true, decide_eq_true_eq, hentries]
      exact (Cell.object.injEq _ _ _ _).symm.to_iff
    | _ => simp [same, absZero, mapNumbers]

end Cell
end Retrace

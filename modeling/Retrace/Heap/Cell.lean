import Retrace.Datum
import Retrace.SortedMap

/-! The heap of a step: numbered cells, whose slots hold primitives or references to cells. -/
namespace Retrace

/-- What a binding or a part of a cell holds. -/
inductive Slot
  | ref (id : HeapId)
  | bool (b : Bool)
  | number (n : Number)
  | string (s : String)
  | null
deriving DecidableEq

namespace Slot

def target? : Slot → Option HeapId
  | .ref id => some id
  | _ => none

def same : Slot → Slot → Bool
  | .number m, .number n => m.same n
  | a, b => a = b

theorem same_refl (a : Slot) : a.same a = true := by
  cases a <;> simp [same, Number.same_refl]

end Slot

abbrev Slots := List (String × Slot)

/-- An object on the heap. -/
inductive Cell
  | list (elements : List Slot)
  | mapping (entries : Slots)
  | function (name digest : String)
  | object (className : String) (fields : Slots)
deriving DecidableEq

abbrev Heap := SortedMap HeapId Cell

def sameLists (same : α → α → Bool) : List α → List α → Bool
  | [], [] => true
  | a :: as, b :: bs => same a b && sameLists same as bs
  | _, _ => false

theorem sameLists_refl {same : α → α → Bool} (h : ∀ a, same a a = true) (as : List α) :
    sameLists same as as = true := by
  induction as with
  | nil => rfl
  | cons a as ih => simp [sameLists, h, ih]

namespace Cell

def label : Cell → String
  | .list _ => "list"
  | .mapping _ => "dict"
  | .function _ _ => "function"
  | .object _ _ => "instance"

/-- The parts in order. A callable has none. -/
def slots : Cell → List Slot
  | .list elements => elements
  | .mapping entries => entries.map Prod.snd
  | .function _ _ => []
  | .object _ fields => fields.map Prod.snd

def size (c : Cell) : Nat := c.slots.length

def references (c : Cell) : List HeapId := c.slots.filterMap Slot.target?

/-- Equality up to the sameness of numbers. -/
def same : Cell → Cell → Bool
  | .list as, .list bs => sameLists Slot.same as bs
  | .mapping as, .mapping bs => sameEntries as bs
  | .function name digest, .function name' digest' => name = name' && digest = digest'
  | .object className as, .object className' bs => className = className' && sameEntries as bs
  | _, _ => false
where
  sameEntries (as bs : Slots) : Bool :=
    sameLists (fun a b => a.1 = b.1 && a.2.same b.2) as bs

theorem same_refl (c : Cell) : c.same c = true := by
  have entries (as : Slots) : same.sameEntries as as = true :=
    sameLists_refl (fun a => by simp [Slot.same_refl]) as
  cases c <;> simp [same, entries, sameLists_refl Slot.same_refl]

end Cell
end Retrace

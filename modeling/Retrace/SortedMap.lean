/-! Maps as lists of pairs in ascending order of their keys. Two maps with the same look-ups are
equal. -/
namespace Retrace

/-- A finite map, its keys strictly ascending. -/
structure SortedMap (κ : Type u) (α : Type v) [Ord κ] where
  toList : List (κ × α)
  ascending : toList.Pairwise fun a b => compare a.1 b.1 = .lt

namespace SortedMap

variable {κ : Type u} {α : Type v} [Ord κ]

instance [DecidableEq κ] [DecidableEq α] : DecidableEq (SortedMap κ α) := fun a b =>
  if h : a.toList = b.toList then isTrue (by cases a; cases b; simp_all)
  else isFalse fun e => h (e ▸ rfl)

def empty : SortedMap κ α := ⟨[], .nil⟩

instance : EmptyCollection (SortedMap κ α) := ⟨empty⟩

instance : Inhabited (SortedMap κ α) := ⟨empty⟩

def find? (key : κ) : List (κ × α) → Option α
  | [] => none
  | (k, v) :: rest =>
    match compare key k with
    | .lt => none
    | .eq => some v
    | .gt => find? key rest

def get? (m : SortedMap κ α) (key : κ) : Option α := find? key m.toList

def contains (m : SortedMap κ α) (key : κ) : Bool := (m.get? key).isSome

def erase (m : SortedMap κ α) (key : κ) : SortedMap κ α :=
  ⟨m.toList.filter fun p => compare p.1 key != .eq, m.ascending.filter _⟩

def size (m : SortedMap κ α) : Nat := m.toList.length

def keys (m : SortedMap κ α) : List κ := m.toList.map Prod.fst

def values (m : SortedMap κ α) : List α := m.toList.map Prod.snd

@[simp] theorem get?_empty (k : κ) : (∅ : SortedMap κ α).get? k = none := rfl

theorem find?_eq_none {key : κ} {l : List (κ × α)}
    (h : ∀ p ∈ l, compare key p.1 = .lt) : find? key l = none := by
  cases l with
  | nil => rfl
  | cons q rest => simp [find?, h q (by simp)]

def insertInto (key : κ) (value : α) : List (κ × α) → List (κ × α)
  | [] => [(key, value)]
  | (k, v) :: rest =>
    match compare key k with
    | .lt => (key, value) :: (k, v) :: rest
    | .eq => (key, value) :: rest
    | .gt => (k, v) :: insertInto key value rest

private theorem mem_insertInto {key : κ} {value : α} {p : κ × α} {l : List (κ × α)}
    (h : p ∈ insertInto key value l) : p = (key, value) ∨ p ∈ l := by
  induction l with
  | nil => simpa [insertInto] using h
  | cons q rest ih =>
    obtain ⟨k, v⟩ := q
    unfold insertInto at h
    split at h <;> simp only [List.mem_cons] at h ⊢ <;> grind

variable [Std.TransOrd κ]

private theorem ascending_insertInto (key : κ) (value : α) {l : List (κ × α)}
    (h : l.Pairwise fun a b => compare a.1 b.1 = .lt) :
    (insertInto key value l).Pairwise fun a b => compare a.1 b.1 = .lt := by
  induction l with
  | nil => simp [insertInto]
  | cons q rest ih =>
    obtain ⟨k, v⟩ := q
    obtain ⟨hk, hrest⟩ := List.pairwise_cons.1 h
    unfold insertInto
    split
    · next hlt =>
      refine List.pairwise_cons.2 ⟨fun p hp => ?_, h⟩
      rcases List.mem_cons.1 hp with rfl | hp
      · exact hlt
      · exact Std.TransCmp.lt_trans hlt (hk p hp)
    · next heq =>
      exact List.pairwise_cons.2 ⟨fun p hp => Std.TransCmp.lt_of_eq_of_lt heq (hk p hp), hrest⟩
    · next hgt =>
      refine List.pairwise_cons.2 ⟨fun p hp => ?_, ih hrest⟩
      rcases mem_insertInto hp with rfl | hp
      · exact Std.OrientedCmp.lt_of_gt hgt
      · exact hk p hp

def insert (m : SortedMap κ α) (key : κ) (value : α) : SortedMap κ α :=
  ⟨insertInto key value m.toList, ascending_insertInto key value m.ascending⟩

def insertAll (m : SortedMap κ α) (pairs : List (κ × α)) : SortedMap κ α :=
  pairs.foldl (fun m p => m.insert p.1 p.2) m

def ofList (pairs : List (κ × α)) : SortedMap κ α := empty.insertAll pairs

def overlay (m upper : SortedMap κ α) : SortedMap κ α := m.insertAll upper.toList

variable [Std.LawfulEqOrd κ]

private theorem find?_insertInto (key k : κ) (value : α) (l : List (κ × α)) :
    find? k (insertInto key value l) = if compare k key = .eq then some value else find? k l := by
  induction l with
  | nil =>
    simp only [insertInto, find?]
    cases compare k key <;> simp
  | cons q rest ih =>
    obtain ⟨k', v'⟩ := q
    unfold insertInto
    cases h : compare key k' with
    | lt =>
      simp only [find?]
      cases hk : compare k key with
      | lt => simp [Std.TransCmp.lt_trans hk h]
      | eq => simp
      | gt => simp
    | eq =>
      have := Std.LawfulEqCmp.eq_of_compare h
      subst this
      simp only [find?]
      cases hk : compare k key <;> simp
    | gt =>
      simp only [find?]
      cases hk : compare k k' with
      | lt =>
        have : compare k key = .lt := Std.TransCmp.lt_trans hk (Std.OrientedCmp.lt_of_gt h)
        simp [this]
      | eq =>
        have := Std.LawfulEqCmp.eq_of_compare hk
        subst this
        simp [Std.OrientedCmp.lt_of_gt h]
      | gt => simpa using ih

theorem get?_insert (m : SortedMap κ α) (key k : κ) (value : α) :
    (m.insert key value).get? k = if compare k key = .eq then some value else m.get? k :=
  find?_insertInto key k value m.toList

@[simp] theorem get?_insert_self (m : SortedMap κ α) (key : κ) (value : α) :
    (m.insert key value).get? key = some value := by
  simp [get?_insert]

theorem get?_insert_of_ne (m : SortedMap κ α) {key k : κ} (value : α) (h : k ≠ key) :
    (m.insert key value).get? k = m.get? k := by
  simp [get?_insert, h]

end SortedMap
end Retrace

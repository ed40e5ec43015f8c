import Retrace.Proofs.Memory.Forgetting
import Retrace.Proofs.Memory.Soundness

/-! Supplied cells keep memory sound, whatever they hold: an identity survives a merge only if its
cell and all that it leads to through remembered cells stay the same. Cells that are on the heap
already leave memory as it is, for their numbers are reserved until the counter starts over. -/
namespace Retrace

/-! ### Sameness -/

theorem Double.same_trans {a b c : Double} (hab : a.same b = true) (hbc : b.same c = true) :
    a.same c = true := by
  simp only [Double.same, Bool.and_eq_true, Bool.or_eq_true, decide_eq_true_eq] at *
  obtain ⟨hab, hab'⟩ := hab
  obtain ⟨hbc, hbc'⟩ := hbc
  refine ⟨hab.trans hbc, ?_⟩
  rcases hab' with hab' | hzero
  · rcases hbc' with hbc' | hzero
    · exact .inl (hab'.trans hbc')
    · exact .inr (hab.trans hzero)
  · exact .inr hzero

theorem Number.same_trans {a b c : Number} (hab : a.same b = true) (hbc : b.same c = true) :
    a.same c = true := by
  cases a with
  | unsigned m =>
    cases b with
    | unsigned n => cases of_decide_eq_true hab; exact hbc
    | _ => cases hab
  | negative m =>
    cases b with
    | negative n => cases of_decide_eq_true hab; exact hbc
    | _ => cases hab
  | double x =>
    cases b with
    | double y =>
      cases c with
      | double z => exact Double.same_trans hab hbc
      | _ => cases hbc
    | _ => cases hab

namespace Slot

def isNumber : Slot → Bool
  | .number _ => true
  | _ => false

theorem eq_of_same {a b : Slot} (h : a.same b = true) (ha : a.isNumber = false) : a = b := by
  cases a with
  | number n => cases ha
  | _ => cases b <;> exact of_decide_eq_true h

theorem same_trans {a b c : Slot} (hab : a.same b = true) (hbc : b.same c = true) :
    a.same c = true := by
  cases a with
  | number m =>
    cases b with
    | number n =>
      cases c with
      | number o => exact Number.same_trans hab hbc
      | _ => cases hbc
    | _ => cases hab
  | _ =>
    rw [eq_of_same hab rfl]
    exact hbc

end Slot

theorem sameLists_iff {same : α → α → Bool} {as bs : List α} :
    sameLists same as bs = true ↔ List.Forall₂ (fun a b => same a b = true) as bs := by
  induction as generalizing bs with
  | nil => cases bs <;> simp [sameLists]
  | cons a as ih => cases bs <;> simp [sameLists, ih]

namespace Datum

theorem slots_cell {d : Datum} {slots : List Slot} (h : slots.length = d.parts.length) :
    (d.cell slots).slots = slots := by
  cases d with
  | mapping entries => exact List.map_snd_zip (by simpa [parts] using Nat.le_of_eq h)
  | object className fields => exact List.map_snd_zip (by simpa [parts] using Nat.le_of_eq h)
  | function name source => exact (List.eq_nil_of_length_eq_zero h).symm
  | _ => rfl

private theorem sameEntries_zip {names : List String} {slots : List Slot} {bs : Slots}
    (hlength : slots.length = names.length)
    (h : Cell.same.sameEntries (names.zip slots) bs = true) :
    bs = names.zip (bs.map Prod.snd) ∧
      List.Forall₂ (fun a b => a.same b = true) slots (bs.map Prod.snd) := by
  rw [Cell.same.sameEntries, sameLists_iff] at h
  induction names generalizing slots bs with
  | nil =>
    cases List.eq_nil_of_length_eq_zero hlength
    cases h
    exact ⟨rfl, .nil⟩
  | cons name names ih =>
    cases slots with
    | nil => cases hlength
    | cons slot slots =>
      cases h with
      | cons hb h =>
        rw [Bool.and_eq_true, decide_eq_true_eq] at hb
        obtain ⟨heq, hslots⟩ := ih (Nat.succ.inj hlength) h
        refine ⟨?_, .cons hb.2 hslots⟩
        rw [List.map_cons, List.zip_cons_cons, ← heq, show name = _ from hb.1]

/-- A cell that is the same as that of a value is the cell of the value with slots that are the
same. -/
theorem cell_of_same {d : Datum} {slots : List Slot} {c : Cell}
    (hlength : slots.length = d.parts.length) (h : (d.cell slots).same c = true) :
    ∃ slots', c = d.cell slots' ∧
      List.Forall₂ (fun a b => a.same b = true) slots slots' := by
  cases d with
  | mapping entries =>
    cases c with
    | mapping bs =>
      obtain ⟨heq, hslots⟩ := sameEntries_zip (by simpa [parts] using hlength) h
      exact ⟨_, congrArg Cell.mapping heq, hslots⟩
    | _ => cases h
  | object className fields =>
    cases c with
    | object className' bs =>
      obtain ⟨hclass, h⟩ := Bool.and_eq_true_iff.1 h
      obtain ⟨heq, hslots⟩ := sameEntries_zip (by simpa [parts] using hlength) h
      cases of_decide_eq_true hclass
      exact ⟨_, congrArg (Cell.object className) heq, hslots⟩
    | _ => cases h
  | function name source =>
    cases List.eq_nil_of_length_eq_zero hlength
    cases c with
    | function name' digest' =>
      obtain ⟨hname, hdigest⟩ := Bool.and_eq_true_iff.1 h
      cases of_decide_eq_true hname
      cases of_decide_eq_true hdigest
      exact ⟨[], rfl, .nil⟩
    | _ => cases h
  | _ =>
    cases c with
    | list bs => exact ⟨bs, rfl, sameLists_iff.1 h⟩
    | _ => cases h

end Datum

def Heap.Agrees (heap supplied : Heap) : Prop :=
  ∀ id old new, heap.get? id = some old → supplied.get? id = some new → old.same new = true

namespace Memory

/-! ### Merging -/

theorem get?_merge (m : Memory) (supplied : Heap) (id : HeapId) :
    (m.merge supplied).heap.get? id = (supplied.get? id).or (m.heap.get? id) :=
  SortedMap.get?_overlay m.heap supplied id

theorem contains_merge (m : Memory) (supplied : Heap) (id : HeapId) :
    (m.merge supplied).heap.contains id = true ↔
      supplied.contains id = true ∨ m.heap.contains id = true :=
  SortedMap.contains_overlay m.heap supplied id

theorem merge_table (m : Memory) (supplied : Heap) :
    (m.merge supplied).interner.table =
      (m.interner.forget (m.overwritten supplied) (m.merge supplied).heap).table := by
  rw [merge]
  cases supplied.keys.getLast? <;> rfl

private theorem merge_table_sublist (m : Memory) (supplied : Heap) :
    (m.merge supplied).interner.table.Sublist m.interner.table := by
  rw [merge_table]
  exact Interner.forget_table_sublist _ _ _

theorem merge_next_le (m : Memory) (supplied : Heap) :
    m.interner.next ≤ (m.merge supplied).interner.next := by
  rw [merge]
  cases supplied.keys.getLast? with
  | none => exact Nat.le_of_eq (Interner.forget_next _ _ _).symm
  | some id =>
    refine Nat.le_trans (Nat.le_of_eq ?_) (Interner.next_le_reserve _ _)
    exact (Interner.forget_next _ _ _).symm

/-- The counter passes all supplied numbers, as far as it goes. -/
theorem merge_reserved {m : Memory} {supplied : Heap} {id : HeapId}
    (h : supplied.contains id = true) :
    min (id.toNat + 1) (UInt64.size - 1) ≤ (m.merge supplied).interner.next := by
  have hid := (SortedMap.mem_keys_iff supplied id).2 h
  rw [merge]
  cases hlast : supplied.keys.getLast? with
  | none =>
    rw [List.getLast?_eq_none_iff.1 hlast] at hid
    cases hid
  | some last =>
    have hle : id.toNat ≤ last.toNat := SortedMap.le_getLast_keys supplied hlast hid
    refine Nat.le_trans ?_ (Interner.reserved_le_next _ _)
    omega

/-- The counter has passed all numbers on the heap, as far as it goes. -/
def Reserved (m : Memory) : Prop :=
  ∀ id, m.heap.contains id = true → min (id.toNat + 1) (UInt64.size - 1) ≤ m.interner.next

theorem Reserved.merge {m : Memory} (h : m.Reserved) (supplied : Heap) :
    (m.merge supplied).Reserved := by
  intro id hid
  rcases (contains_merge m supplied id).1 hid with hid | hid
  · exact merge_reserved hid
  · exact Nat.le_trans (h id hid) (merge_next_le m supplied)

/-- A number that is given out is below the counter from then on. -/
theorem Grows.reserved {m m' : Memory} (h : Grows ∅ m m') (hm : m.Reserved) : m'.Reserved := by
  intro id hid
  by_cases hissued : Issued m m' id
  · obtain ⟨n, -, hlt, rfl⟩ := hissued
    have hle : n.toUInt64.toNat ≤ n := Nat.mod_le _ _
    omega
  · rw [SortedMap.contains, h.get?_eq hissued] at hid
    exact Nat.le_trans (hm id hid) h.next_le

theorem mem_overwritten {m : Memory} {supplied : Heap} {id : HeapId} {old new : Cell}
    (hold : m.heap.get? id = some old) (hnew : supplied.get? id = some new)
    (h : old.same new = false) : id ∈ m.overwritten supplied := by
  have hkey := (SortedMap.mem_keys_iff _ _).2 ((SortedMap.contains_iff _ _).2 ⟨_, hnew⟩)
  refine List.mem_filter.2 ⟨hkey, ?_⟩
  simp [hold, hnew, h]

private theorem overwritten_eq_nil_iff {m : Memory} {supplied : Heap} :
    m.overwritten supplied = [] ↔ m.heap.Agrees supplied := by
  constructor
  · intro h id old new hold hnew
    by_contra hne
    have hmem := mem_overwritten hold hnew (Bool.eq_false_of_not_eq_true hne)
    rw [h] at hmem
    cases hmem
  · intro h
    refine List.filter_eq_nil_iff.2 fun id _ => ?_
    cases hold : m.heap.get? id with
    | none => simp
    | some old =>
      cases hnew : supplied.get? id with
      | none => simp
      | some new => simp [h id old new hold hnew]

instance (heap supplied : Heap) : Decidable (heap.Agrees supplied) :=
  decidable_of_iff _ (overwritten_eq_nil_iff (m := ⟨∅, heap⟩))

/-- Cells that agree with the heap make nothing be forgotten. -/
theorem merge_table_of_agrees {m : Memory} {supplied : Heap} (h : m.heap.Agrees supplied) :
    (m.merge supplied).interner.table = m.interner.table := by
  rw [merge_table, overwritten_eq_nil_iff.2 h]
  rfl

/-- A cell that no supplied one overwrites keeps what it holds, up to sameness. -/
theorem same_of_not_overwritten {m : Memory} {supplied : Heap} {id : HeapId} {old : Cell}
    (hold : m.heap.get? id = some old) (h : id ∉ m.overwritten supplied) :
    ∃ new, (m.merge supplied).heap.get? id = some new ∧ old.same new = true := by
  rw [get?_merge, hold]
  cases hnew : supplied.get? id with
  | none => exact ⟨old, rfl, Cell.same_refl old⟩
  | some new =>
    refine ⟨new, rfl, ?_⟩
    by_contra hne
    exact h (mem_overwritten hold hnew (Bool.eq_false_of_not_eq_true hne))

theorem Stored.merge {m : Memory} (h : Stored ∅ m) (supplied : Heap) :
    Stored ∅ (m.merge supplied) where
  distinct := h.distinct.sublist ((merge_table_sublist m supplied).map _)
  cell e he hpending := by
    have hid := h.cell e ((merge_table_sublist m supplied).subset he) hpending
    exact (contains_merge m supplied e.2).2 (.inr hid)

private theorem stands_of_same {table table' : List (String × HeapId)} {ds : List Datum}
    {slots slots' : List Slot} (h : List.Forall₂ (Stands table) ds slots)
    (hsame : List.Forall₂ (fun a b => a.same b = true) slots slots')
    (hkeep : ∀ e ∈ table, Slot.ref e.2 ∈ slots' → e ∈ table') :
    List.Forall₂ (Stands table') ds slots' := by
  induction h generalizing slots' with
  | nil => cases hsame; exact .nil
  | cons hd _ ih =>
    cases hsame with
    | cons hs hsame =>
      refine .cons ?_ (ih hsame fun e he hmem => hkeep e he (List.mem_cons_of_mem _ hmem))
      cases hd with
      | atom hatom hslot => exact .atom hatom (Slot.same_trans hslot hs)
      | cell hcomp hid =>
        cases Slot.eq_of_same hs rfl
        exact .cell hcomp (hkeep _ hid List.mem_cons_self)

/-- A value keeps its cell as long as the cell stays the same and what it leads to stays remembered. -/
theorem Built.of_same {m m' : Memory} {d : Datum} {id : HeapId} (h : Built m d id)
    (hcell : ∀ old, m.heap.get? id = some old →
      ∃ new, m'.heap.get? id = some new ∧ old.same new = true)
    (hkeep : ∀ new, m'.heap.get? id = some new → ∀ e ∈ m.interner.table, e.2 ∈ new.references →
      e ∈ m'.interner.table) : Built m' d id := by
  obtain ⟨slots, hslots, hold⟩ := h
  obtain ⟨new, hnew, hsame⟩ := hcell _ hold
  obtain ⟨slots', rfl, hparts⟩ := Datum.cell_of_same hslots.length_eq.symm hsame
  refine ⟨slots', stands_of_same hslots hparts fun e he hmem => hkeep _ hnew e he ?_, hnew⟩
  rw [Cell.references, Datum.slots_cell (hparts.length_eq.symm.trans hslots.length_eq.symm)]
  exact List.mem_filterMap.2 ⟨_, hmem, rfl⟩

variable {data : Set Datum}

private theorem Sound.identities_merge {m : Memory} (h : Sound data ∅ m) (supplied : Heap) :
    (m.merge supplied).interner.Distinct :=
  h.identities.of_sublist (merge_table_sublist m supplied) (merge_next_le m supplied)

/-- Merging keeps memory sound. -/
theorem Sound.merge {m : Memory} (h : Sound data ∅ m) (supplied : Heap) :
    Sound data ∅ (m.merge supplied) where
  distinct := (h.identities_merge supplied).keys_nodup
  known_nodup := (h.identities_merge supplied).known_nodup
  known_lt := (h.identities_merge supplied).known_lt
  heap_lt := Reserved.merge h.heap_lt supplied
  built e he hpending := by
    rw [merge_table] at he
    obtain ⟨htable, hout⟩ := Interner.mem_forget_table.1 he
    obtain ⟨d, hd, hcomp, hkey, hbuilt⟩ := h.built e htable hpending
    refine ⟨d, hd, hcomp, hkey, hbuilt.of_same (fun old hold => ?_) fun new hnew e' he' href => ?_⟩
    · exact same_of_not_overwritten hold (Interner.not_overwritten_of_not_stale hout)
    · rw [merge_table]
      exact Interner.mem_forget_table.2 ⟨he', Interner.not_stale_of_reference he hnew href⟩

end Memory
end Retrace

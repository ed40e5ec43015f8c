import Mathlib.Logic.Relation
import Retrace.Heap.Memory
import Retrace.Proofs.SortedMap

/-! Which identities are forgotten. The rounds of spreading come to an end on their own. The
forgotten numbers are then closed: no remembered cell outside them points into them. So the numbers
that are forgotten are those from which remembered cells lead to one that is overwritten, and no
others. -/
namespace Retrace

/-- A cell on the heap has a reference to another number. -/
def Heap.Points (heap : Heap) (id target : HeapId) : Prop :=
  ∃ cell, heap.get? id = some cell ∧ target ∈ cell.references

namespace Interner

private theorem mem_parents {known : List HeapId} {heap : Heap} {poisoned : List HeapId}
    {id : HeapId} :
    id ∈ parents known heap poisoned ↔ id ∈ known ∧ id ∉ poisoned ∧
      ∃ cell, heap.get? id = some cell ∧ ∃ target ∈ cell.references, target ∈ poisoned := by
  rw [parents, List.mem_filter]
  cases heap.get? id <;> simp

private theorem subset_spread (known : List HeapId) (heap : Heap) (rounds : Nat)
    (poisoned : List HeapId) : poisoned ⊆ spread known heap rounds poisoned := by
  induction rounds generalizing poisoned with
  | zero => exact List.Subset.refl _
  | succ rounds ih =>
    rw [spread]
    split
    · exact List.Subset.refl _
    · exact List.Subset.trans (List.subset_append_left _ _) (ih _)

/-- A round that adds parents leaves fewer known cells outside. -/
private theorem length_outside_lt {known : List HeapId} {heap : Heap} {poisoned more : List HeapId}
    (h : parents known heap poisoned = more) (hmore : more ≠ []) :
    (known.filter fun id => !(poisoned ++ more).contains id).length <
      (known.filter fun id => !poisoned.contains id).length := by
  obtain ⟨id, hid⟩ := List.exists_mem_of_ne_nil more hmore
  obtain ⟨hknown, hout, -⟩ := mem_parents.1 (h ▸ hid)
  have hsplit : (known.filter fun id => !(poisoned ++ more).contains id) =
      (known.filter fun id => !poisoned.contains id).filter fun id => !more.contains id := by
    rw [List.filter_filter]
    refine List.filter_congr fun k _ => ?_
    simp [Bool.and_comm]
  rw [hsplit]
  refine List.length_filter_lt_length_iff_exists.2 ⟨id, ?_, by simpa using hid⟩
  exact List.mem_filter.2 ⟨hknown, by simpa using hout⟩

/-- Spreading with no bound on its rounds: each round but the last adds parents. -/
inductive Spreads (known : List HeapId) (heap : Heap) : List HeapId → List HeapId → Prop
  | done {poisoned : List HeapId} (h : parents known heap poisoned = []) :
      Spreads known heap poisoned poisoned
  | round {poisoned result : List HeapId} (h : parents known heap poisoned ≠ [])
      (rest : Spreads known heap (poisoned ++ parents known heap poisoned) result) :
      Spreads known heap poisoned result

private theorem Spreads.parents_eq_nil {known : List HeapId} {heap : Heap}
    {poisoned result : List HeapId} (h : Spreads known heap poisoned result) :
    parents known heap result = [] := by
  induction h with
  | done h => exact h
  | round _ _ ih => exact ih

/-- With a round for each known cell outside, spreading ends because nothing is left to add. -/
theorem spreads_spread {known : List HeapId} {heap : Heap} {rounds : Nat} {poisoned : List HeapId}
    (h : (known.filter fun id => !poisoned.contains id).length ≤ rounds) :
    Spreads known heap poisoned (spread known heap rounds poisoned) := by
  induction rounds generalizing poisoned with
  | zero =>
    have hnone := List.eq_nil_of_length_eq_zero (Nat.le_zero.1 h)
    refine .done (List.eq_nil_iff_forall_not_mem.2 fun id hid => ?_)
    obtain ⟨hknown, hout, -⟩ := mem_parents.1 hid
    have hin : id ∈ poisoned := by simpa using List.filter_eq_nil_iff.1 hnone id hknown
    exact hout hin
  | succ rounds ih =>
    rw [spread]
    split
    · next hnil => exact .done hnil
    · next hmore =>
      refine .round hmore (ih ?_)
      have := length_outside_lt rfl hmore
      omega

def stale (i : Interner) (overwritten : List HeapId) (heap : Heap) : List HeapId :=
  spread i.known heap i.known.length overwritten

private theorem spreads_stale (i : Interner) (overwritten : List HeapId) (heap : Heap) :
    Spreads i.known heap overwritten (i.stale overwritten heap) :=
  spreads_spread (List.length_filter_le _ _)

private theorem stale_nil (i : Interner) (heap : Heap) : i.stale [] heap = [] := by
  have hnil : parents i.known heap [] = [] :=
    List.eq_nil_iff_forall_not_mem.2 fun id hid => by
      obtain ⟨-, -, -, -, target, -, h⟩ := mem_parents.1 hid
      cases h
  rw [stale]
  cases i.known.length with
  | zero => rfl
  | succ rounds => rw [spread, hnil]

theorem forget_next (i : Interner) (overwritten : List HeapId) (heap : Heap) :
    (i.forget overwritten heap).next = i.next := by
  rw [forget]
  split <;> rfl

theorem forget_table (i : Interner) (overwritten : List HeapId) (heap : Heap) :
    (i.forget overwritten heap).table =
      i.table.filter fun e => !(i.stale overwritten heap).contains e.2 := by
  cases overwritten with
  | nil =>
    rw [stale_nil]
    exact (List.filter_eq_self.2 fun _ _ => rfl).symm
  | cons id ids => rfl

theorem forget_table_sublist (i : Interner) (overwritten : List HeapId) (heap : Heap) :
    (i.forget overwritten heap).table.Sublist i.table := by
  rw [forget_table]
  exact List.filter_sublist

theorem mem_forget_table {i : Interner} {overwritten : List HeapId} {heap : Heap}
    {e : String × HeapId} :
    e ∈ (i.forget overwritten heap).table ↔ e ∈ i.table ∧ e.2 ∉ i.stale overwritten heap := by
  rw [forget_table, List.mem_filter]
  simp

theorem not_overwritten_of_not_stale {i : Interner} {overwritten : List HeapId} {heap : Heap}
    {id : HeapId} (h : id ∉ i.stale overwritten heap) : id ∉ overwritten :=
  fun hid => h (subset_spread _ _ _ _ hid)

/-- A remembered cell that points at a forgotten number is forgotten. -/
theorem stale_of_points {i : Interner} {overwritten : List HeapId} {heap : Heap}
    {id target : HeapId} (hid : id ∈ i.known) (h : heap.Points id target)
    (htarget : target ∈ i.stale overwritten heap) : id ∈ i.stale overwritten heap := by
  apply Decidable.byContradiction
  intro hout
  have hnil := (i.spreads_stale overwritten heap).parents_eq_nil
  obtain ⟨cell, hcell, href⟩ := h
  have hmem : id ∈ parents i.known heap (i.stale overwritten heap) :=
    mem_parents.2 ⟨hid, hout, cell, hcell, target, href, htarget⟩
  rw [hnil] at hmem
  cases hmem

/-- A cell that stays remembered points at no number that is forgotten. -/
theorem not_stale_of_reference {i : Interner} {overwritten : List HeapId} {heap : Heap}
    {e : String × HeapId} (he : e ∈ (i.forget overwritten heap).table) {cell : Cell}
    (hcell : heap.get? e.2 = some cell) {target : HeapId} (htarget : target ∈ cell.references) :
    target ∉ i.stale overwritten heap := by
  intro hstale
  obtain ⟨htable, hout⟩ := mem_forget_table.1 he
  exact hout (stale_of_points (List.mem_map_of_mem htable) ⟨cell, hcell, htarget⟩ hstale)

/-- A cell leads to another through references of which each is that of a remembered cell. -/
def Leads (i : Interner) (heap : Heap) : HeapId → HeapId → Prop :=
  Relation.ReflTransGen fun id target => id ∈ i.known ∧ heap.Points id target

/-- All that leads to an overwritten cell is forgotten. -/
theorem stale_of_leads {i : Interner} {overwritten : List HeapId} {heap : Heap}
    {id goal : HeapId} (hgoal : goal ∈ overwritten) (h : i.Leads heap id goal) :
    id ∈ i.stale overwritten heap := by
  induction h using Relation.ReflTransGen.head_induction_on with
  | refl => exact subset_spread _ _ _ _ hgoal
  | head hpoints _ ih => exact stale_of_points hpoints.1 hpoints.2 ih

/-- Each round adds only cells that lead to where the spreading began. -/
theorem Spreads.exists_leads {i : Interner} {heap : Heap} {poisoned result : List HeapId}
    (h : Spreads i.known heap poisoned result) {id : HeapId} (hid : id ∈ result) :
    ∃ goal ∈ poisoned, i.Leads heap id goal := by
  induction h with
  | done _ => exact ⟨id, hid, .refl⟩
  | round _ _ ih =>
    obtain ⟨goal, hgoal, hleads⟩ := ih hid
    rcases List.mem_append.1 hgoal with hgoal | hgoal
    · exact ⟨goal, hgoal, hleads⟩
    · obtain ⟨hknown, -, cell, hcell, target, htarget, hpoisoned⟩ := mem_parents.1 hgoal
      exact ⟨target, hpoisoned, hleads.tail ⟨hknown, cell, hcell, htarget⟩⟩

private theorem mem_stale_iff {i : Interner} {overwritten : List HeapId} {heap : Heap}
    {id : HeapId} : id ∈ i.stale overwritten heap ↔ ∃ goal ∈ overwritten, i.Leads heap id goal := by
  constructor
  · exact (i.spreads_stale overwritten heap).exists_leads
  · rintro ⟨goal, hgoal, hleads⟩
    exact stale_of_leads hgoal hleads

/-- What forgetting comes to, for every table and every heap: the rounds end, the counter stays, and
an identity is kept exactly if it is not overwritten itself and leads to no overwritten cell through
remembered cells. -/
theorem forget_exact (i : Interner) (overwritten : List HeapId) (heap : Heap) :
    (∃ stale, Spreads i.known heap overwritten stale ∧
      (i.forget overwritten heap).table = i.table.filter fun e => !stale.contains e.2) ∧
    (i.forget overwritten heap).next = i.next ∧
    ∀ e, e ∈ (i.forget overwritten heap).table ↔
      e ∈ i.table ∧ e.2 ∉ overwritten ∧ ¬ ∃ goal ∈ overwritten, i.Leads heap e.2 goal := by
  refine ⟨⟨_, i.spreads_stale overwritten heap, i.forget_table overwritten heap⟩,
    i.forget_next overwritten heap, fun e => ?_⟩
  rw [mem_forget_table, ← mem_stale_iff]
  constructor
  · rintro ⟨he, hout⟩
    exact ⟨he, not_overwritten_of_not_stale hout, hout⟩
  · rintro ⟨he, -, hout⟩
    exact ⟨he, hout⟩

/-- Two lists that hold each other, and a list that leads to them only by way of a supplied cell. -/
example :
    let heap : Heap := SortedMap.ofList
      [(1, .list [.ref 2]), (2, .list [.ref 1]), (3, .list [.ref 9]), (9, .list [.ref 1])]
    forget ⟨4, [("c", 3), ("b", 2), ("a", 1)]⟩ [2] heap = ⟨4, [("c", 3)]⟩ := by decide

end Interner
end Retrace

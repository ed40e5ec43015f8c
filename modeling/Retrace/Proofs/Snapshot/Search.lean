import Mathlib.Data.Set.Insert
import Retrace.Proofs.SortedMap
import Retrace.Snapshot.Basic

/-! The search for a dangling reference. Its fuel never runs out before the search is done. It finds
nothing exactly if all that a snapshot binds lies in a closed set of cells, which is to say that all
cells which can be reached are there; and what it finds can be reached and is not there. -/
namespace Retrace

/-- Cells that are there and point at none outside. -/
def Closed (heap : Heap) (cells : Set HeapId) : Prop :=
  ∀ id ∈ cells, ∃ cell, heap.get? id = some cell ∧ ∀ target ∈ cell.references, target ∈ cells

private theorem Closed.mem_of_reference {heap : Heap} {cells : Set HeapId} (h : Closed heap cells)
    {id target : HeapId} (hid : id ∈ cells) {cell : Cell} (hcell : heap.get? id = some cell)
    (htarget : target ∈ cell.references) : target ∈ cells := by
  obtain ⟨cell', hcell', htargets⟩ := h id hid
  cases hcell.symm.trans hcell'
  exact htargets target htarget

namespace Snapshot

/-- The search with no bound on its pops: it ends when nothing is pending or a cell is missing. -/
inductive Searches (heap : Heap) : List HeapId → List HeapId → Option HeapId → Prop
  | done (visited : List HeapId) : Searches heap visited [] none
  | missing {visited pending : List HeapId} {id : HeapId} (hid : id ∉ visited)
      (hcell : heap.get? id = none) : Searches heap visited (id :: pending) (some id)
  | drop {visited pending : List HeapId} {id : HeapId} {found : Option HeapId}
      (hid : id ∈ visited) (rest : Searches heap visited pending found) :
      Searches heap visited (id :: pending) found
  | visit {visited pending : List HeapId} {id : HeapId} {cell : Cell} {found : Option HeapId}
      (hid : id ∉ visited) (hcell : heap.get? id = some cell)
      (rest : Searches heap (id :: visited) (cell.references.reverse ++ pending) found) :
      Searches heap visited (id :: pending) found

/-- Each pop has one outcome, so a search has one end. -/
theorem Searches.unique {heap : Heap} {visited pending : List HeapId} {found found' : Option HeapId}
    (h : Searches heap visited pending found) (h' : Searches heap visited pending found') :
    found = found' := by
  induction h with
  | done visited => cases h'; rfl
  | missing hid hcell =>
    cases h' with
    | missing _ _ => rfl
    | drop hid' _ => exact absurd hid' hid
    | visit _ hcell' _ => cases hcell.symm.trans hcell'
  | drop hid _ ih =>
    cases h' with
    | missing hid' _ => exact absurd hid hid'
    | drop _ rest => exact ih rest
    | visit hid' _ _ => exact absurd hid hid'
  | visit hid hcell _ ih =>
    cases h' with
    | missing _ hcell' => cases hcell.symm.trans hcell'
    | drop hid' _ => exact absurd hid' hid
    | visit _ hcell' rest =>
      cases hcell.symm.trans hcell'
      exact ih rest

/-! ### Enough fuel -/

/-- How many references are in cells that are not visited yet. -/
def unvisited (cells : List (HeapId × Cell)) (visited : List HeapId) : Nat :=
  ((cells.filter fun e => !visited.contains e.1).flatMap fun e => e.2.references).length

private theorem unvisited_nil (cells : List (HeapId × Cell)) :
    unvisited cells [] = (cells.flatMap fun e => e.2.references).length := by
  rw [unvisited]
  congr 2
  exact List.filter_eq_self.2 fun _ _ => rfl

private theorem unvisited_cons (e : HeapId × Cell) (cells : List (HeapId × Cell))
    (visited : List HeapId) :
    unvisited (e :: cells) visited =
      (if visited.contains e.1 then 0 else e.2.references.length) + unvisited cells visited := by
  rw [unvisited, List.filter_cons]
  cases h : visited.contains e.1 <;> simp [unvisited]

/-- Visiting a number that no cell has changes nothing. -/
theorem unvisited_of_absent {cells : List (HeapId × Cell)} {id : HeapId}
    (h : ∀ e ∈ cells, e.1 ≠ id) (visited : List HeapId) :
    unvisited cells (id :: visited) = unvisited cells visited := by
  rw [unvisited, unvisited]
  congr 2
  refine List.filter_congr fun e he => ?_
  simp [h e he]

private theorem unvisited_visit {cells : List (HeapId × Cell)} (hkeys : (cells.map Prod.fst).Nodup)
    {e : HeapId × Cell} (he : e ∈ cells) {visited : List HeapId} (hvisited : e.1 ∉ visited) :
    unvisited cells visited =
      e.2.references.length + unvisited cells (e.1 :: visited) := by
  induction cells with
  | nil => cases he
  | cons q rest ih =>
    obtain ⟨hq, hrest⟩ := List.nodup_cons.1 hkeys
    rw [unvisited_cons, unvisited_cons]
    rcases List.mem_cons.1 he with rfl | he
    · have habsent : ∀ p ∈ rest, p.1 ≠ e.1 := fun p hp heq => hq (heq ▸ List.mem_map_of_mem hp)
      rw [unvisited_of_absent habsent]
      simp [hvisited]
    · have hne : q.1 ≠ e.1 := fun heq => hq (heq ▸ List.mem_map_of_mem he)
      have hcontains : (e.1 :: visited).contains q.1 = visited.contains q.1 := by simp [hne]
      rw [ih hrest he, hcontains, Nat.add_left_comm]

/-- With fuel for all pending cells and all references still ahead, the search is over before the
fuel is. -/
theorem searches_search {heap : Heap} {fuel : Nat} {visited pending : List HeapId}
    (hfuel : pending.length + unvisited heap.toList visited ≤ fuel) :
    Searches heap visited pending (search heap fuel visited pending) := by
  induction fuel generalizing visited pending with
  | zero =>
    cases List.eq_nil_of_length_eq_zero (l := pending) (by omega)
    exact .done visited
  | succ fuel ih =>
    cases pending with
    | nil => exact .done visited
    | cons id pending =>
      rw [List.length_cons] at hfuel
      rw [search]
      split
      · next hid => exact .drop (by simpa using hid) (ih (by omega))
      · next hid =>
        have hid : id ∉ visited := by simpa using hid
        cases hcell : heap.get? id with
        | none => exact .missing hid hcell
        | some cell =>
          refine .visit hid hcell (ih ?_)
          have hmem := (SortedMap.get?_eq_some_iff heap id cell).1 hcell
          have hsum : unvisited heap.toList visited =
              cell.references.length + unvisited heap.toList (id :: visited) :=
            unvisited_visit heap.nodup_keys hmem hid
          rw [List.length_append, List.length_reverse]
          omega

private theorem searches_dangling? (s : Snapshot) :
    Searches s.heap [] s.roots.reverse s.dangling? := by
  refine searches_search (Nat.le_of_eq ?_)
  rw [List.length_reverse, unvisited_nil, SortedMap.values, List.flatMap_map]

/-! ### What a search finds -/

/-- Visited cells are there, and point only at visited and pending ones. -/
def Expanded (heap : Heap) (visited pending : List HeapId) : Prop :=
  ∀ id ∈ visited, ∃ cell, heap.get? id = some cell ∧
    ∀ target ∈ cell.references, target ∈ visited ∨ target ∈ pending

/-- A pending cell that was visited already is dropped. -/
theorem Expanded.drop {heap : Heap} {visited pending : List HeapId} {id : HeapId}
    (h : Expanded heap visited (id :: pending)) (hid : id ∈ visited) :
    Expanded heap visited pending := by
  intro k hk
  obtain ⟨cell, hcell, htargets⟩ := h k hk
  refine ⟨cell, hcell, fun target htarget => ?_⟩
  rcases htargets target htarget with htarget | htarget
  · exact .inl htarget
  · rcases List.mem_cons.1 htarget with rfl | htarget
    · exact .inl hid
    · exact .inr htarget

/-- A pending cell is visited, and its references become pending. -/
theorem Expanded.visit {heap : Heap} {visited pending : List HeapId} {id : HeapId} {cell : Cell}
    (h : Expanded heap visited (id :: pending)) (hcell : heap.get? id = some cell) :
    Expanded heap (id :: visited) (cell.references.reverse ++ pending) := by
  intro k hk
  rcases List.mem_cons.1 hk with rfl | hk
  · refine ⟨cell, hcell, fun target htarget => .inr ?_⟩
    exact List.mem_append_left _ (List.mem_reverse.2 htarget)
  · obtain ⟨cell', hcell', htargets⟩ := h k hk
    refine ⟨cell', hcell', fun target htarget => ?_⟩
    rcases htargets target htarget with htarget | htarget
    · exact .inl (List.mem_cons_of_mem _ htarget)
    · rcases List.mem_cons.1 htarget with rfl | htarget
      · exact .inl List.mem_cons_self
      · exact .inr (List.mem_append_right _ htarget)

theorem Expanded.closed {heap : Heap} {visited : List HeapId} (h : Expanded heap visited []) :
    Closed heap {id | id ∈ visited} := by
  intro id hid
  obtain ⟨cell, hcell, htargets⟩ := h id hid
  refine ⟨cell, hcell, ?_⟩
  intro target htarget
  exact (htargets target htarget).resolve_right List.not_mem_nil

/-- A search that finds nothing ends with a closed set of visited cells. -/
theorem Searches.exists_closed {heap : Heap} {visited pending : List HeapId}
    {found : Option HeapId} (h : Searches heap visited pending found) (hfound : found = none)
    (hexpanded : Expanded heap visited pending) :
    ∃ cells, Closed heap cells ∧ (∀ id ∈ visited, id ∈ cells) ∧ ∀ id ∈ pending, id ∈ cells := by
  induction h with
  | done visited => exact ⟨_, hexpanded.closed, fun _ h => h, List.forall_mem_nil _⟩
  | missing _ _ => cases hfound
  | drop hid _ ih =>
    obtain ⟨cells, hclosed, hvisited, hpending⟩ := ih hfound (hexpanded.drop hid)
    exact ⟨cells, hclosed, hvisited, List.forall_mem_cons.2 ⟨hvisited _ hid, hpending⟩⟩
  | visit _ hcell _ ih =>
    obtain ⟨cells, hclosed, hvisited, hpending⟩ := ih hfound (hexpanded.visit hcell)
    obtain ⟨hid, hvisited⟩ := List.forall_mem_cons.1 hvisited
    exact ⟨cells, hclosed, hvisited, List.forall_mem_cons.2
      ⟨hid, fun k hk => hpending k (List.mem_append_right _ hk)⟩⟩

/-- A search among cells that are closed as far as they are there finds one of them that is not. -/
theorem Searches.mem_of_found {heap : Heap} {cells : Set HeapId}
    (hclosed : ∀ id ∈ cells, ∀ cell, heap.get? id = some cell →
      ∀ target ∈ cell.references, target ∈ cells)
    {visited pending : List HeapId} {found : Option HeapId}
    (h : Searches heap visited pending found) (hpending : ∀ id ∈ pending, id ∈ cells)
    {id : HeapId} (hfound : found = some id) : id ∈ cells ∧ heap.get? id = none := by
  induction h with
  | done visited => cases hfound
  | missing _ hcell =>
    cases hfound
    exact ⟨hpending _ List.mem_cons_self, hcell⟩
  | drop _ _ ih => exact ih (List.forall_mem_cons.1 hpending).2 hfound
  | visit _ hcell _ ih =>
    obtain ⟨hid, hrest⟩ := List.forall_mem_cons.1 hpending
    refine ih (fun target htarget => ?_) hfound
    rcases List.mem_append.1 htarget with htarget | htarget
    · exact hclosed _ hid _ hcell target (List.mem_reverse.1 htarget)
    · exact hrest target htarget

private theorem mem_roots (s : Snapshot) (id : HeapId) : id ∈ s.roots ↔ .ref id ∈ s.bindings := by
  have htarget {slot : Slot} : slot.target? = some id ↔ slot = .ref id := by
    cases slot <;> simp [Slot.target?]
  have hmem : id ∈ s.bindings.filterMap Slot.target? ↔ .ref id ∈ s.bindings := by
    simp [List.mem_filterMap, htarget]
  rw [roots, SortedMap.mem_keys_iff, ← hmem, SortedMap.contains_iff]
  constructor
  · rintro ⟨⟨⟩, h⟩
    obtain ⟨k, hk, heq⟩ := List.mem_map.1 (SortedMap.mem_of_get?_ofList h)
    cases heq
    exact hk
  · intro h
    exact SortedMap.exists_get?_ofList (List.mem_map_of_mem (f := fun id => (id, ())) h)

/-- No reference dangles exactly if all bound references lie in a closed set. -/
theorem dangling?_eq_none_iff (s : Snapshot) :
    s.dangling? = none ↔
      ∃ cells, Closed s.heap cells ∧ ∀ id, .ref id ∈ s.bindings → id ∈ cells := by
  constructor
  · intro h
    obtain ⟨cells, hclosed, -, hcells⟩ :=
      s.searches_dangling?.exists_closed h (List.forall_mem_nil _)
    refine ⟨cells, hclosed, fun id hid => hcells id ?_⟩
    exact List.mem_reverse.2 ((mem_roots s id).2 hid)
  · rintro ⟨cells, hclosed, hcells⟩
    refine Option.eq_none_iff_forall_ne_some.2 fun id hfound => ?_
    have hroots : ∀ k ∈ s.roots.reverse, k ∈ cells := fun k hk =>
      hcells k ((mem_roots s k).1 (List.mem_reverse.1 hk))
    obtain ⟨hid, hmissing⟩ := s.searches_dangling?.mem_of_found
      (fun k hk _ hcell _ htarget => hclosed.mem_of_reference hk hcell htarget) hroots hfound
    obtain ⟨cell, hcell, -⟩ := hclosed id hid
    cases hmissing.symm.trans hcell

/-! ### What can be reached -/

/-- A cell to which globals and locals lead, directly or through the references in cells. -/
inductive Reachable (s : Snapshot) : HeapId → Prop
  | root {id : HeapId} (h : .ref id ∈ s.bindings) : Reachable s id
  | step {id target : HeapId} {cell : Cell} (h : Reachable s id)
      (hcell : s.heap.get? id = some cell) (htarget : target ∈ cell.references) :
      Reachable s target

/-- A dangling reference is reachable, and its cell is missing. -/
theorem reachable_of_dangling? {s : Snapshot} {id : HeapId} (h : s.dangling? = some id) :
    s.Reachable id ∧ s.heap.contains id = false := by
  have hclosed : ∀ k ∈ {k | s.Reachable k}, ∀ cell, s.heap.get? k = some cell →
      ∀ target ∈ cell.references, target ∈ {k | s.Reachable k} := by
    intro k hk cell hcell target htarget
    exact Reachable.step hk hcell htarget
  have hroots : ∀ k ∈ s.roots.reverse, k ∈ {k | s.Reachable k} := by
    intro k hk
    exact Reachable.root ((mem_roots s k).1 (List.mem_reverse.1 hk))
  obtain ⟨hreachable, hcell⟩ := s.searches_dangling?.mem_of_found hclosed hroots h
  exact ⟨hreachable, (SortedMap.not_contains_iff _ _).2 hcell⟩

/-- Nothing outside a closed set that holds the roots can be reached. -/
theorem Reachable.mem_of_closed {s : Snapshot} {cells : Set HeapId} (hclosed : Closed s.heap cells)
    (hroots : ∀ id, .ref id ∈ s.bindings → id ∈ cells) {id : HeapId} (h : s.Reachable id) :
    id ∈ cells := by
  induction h with
  | root h => exact hroots _ h
  | step _ hcell htarget ih => exact hclosed.mem_of_reference ih hcell htarget

/-- The check for dangling references is exact for every snapshot: the search comes to an end on its
own, and to this one only, it finds nothing exactly if every cell that can be reached is there, and
what it finds can be reached and is missing. -/
theorem closure_exact (s : Snapshot) :
    (∀ found, Searches s.heap [] s.roots.reverse found ↔ found = s.dangling?) ∧
      (s.dangling? = none ↔ ∀ id, s.Reachable id → s.heap.contains id = true) ∧
      ∀ id, s.dangling? = some id → s.Reachable id ∧ s.heap.contains id = false := by
  refine ⟨fun found => ⟨fun h => h.unique s.searches_dangling?, ?_⟩,
    ⟨fun hnone id hid => ?_, fun hall => ?_⟩, fun id hfound => reachable_of_dangling? hfound⟩
  · rintro rfl
    exact s.searches_dangling?
  · obtain ⟨cells, hclosed, hroots⟩ := (dangling?_eq_none_iff s).1 hnone
    obtain ⟨cell, hcell, -⟩ := hclosed id (hid.mem_of_closed hclosed hroots)
    exact (SortedMap.contains_iff _ _).2 ⟨cell, hcell⟩
  · refine Option.eq_none_iff_forall_ne_some.2 fun id hfound => ?_
    obtain ⟨hreachable, hmissing⟩ := reachable_of_dangling? hfound
    rw [hall id hreachable] at hmissing
    cases hmissing

/-- A list that holds itself and a mapping that holds the list, of which a local knows. The mapping
points at a cell that is not there; so does a third cell, to which nothing leads. -/
def tangled : Snapshot where
  line := 1
  event := .step
  funcName := "f"
  globals := SortedMap.ofList [("n", .number (.unsigned 3))]
  order := ["n"]
  stack := [⟨1, "f", ["xs"], SortedMap.ofList [("xs", .ref 1)], [], true, "frame_0"⟩]
  heap := SortedMap.ofList [(1, .list [.ref 1, .ref 2]),
    (2, .mapping [("back", .ref 1), ("on", .ref 7)]), (3, .list [.ref 9])]
  output := ""
  exception := none

theorem tangled_dangling : tangled.dangling? = some 7 ∧ tangled.Reachable 7 ∧
    tangled.heap.contains 7 = false := by
  have hfound : tangled.dangling? = some 7 := by decide
  exact ⟨hfound, (closure_exact tangled).2.2 7 hfound⟩

end Snapshot
end Retrace

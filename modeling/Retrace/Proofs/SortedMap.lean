import Mathlib.Data.List.Sort
import Retrace.Proofs.Lists
import Retrace.SortedMap

/-! Look-ups after many insertions: a list of pairs bound one after the other, one map laid over
another, and a map whose values are replaced. A map is part of another that has all its entries. -/
namespace Retrace.SortedMap
variable {κ : Type u} {α : Type v} [Ord κ]

theorem contains_iff (m : SortedMap κ α) (k : κ) :
    m.contains k = true ↔ ∃ v, m.get? k = some v :=
  Option.isSome_iff_exists

theorem not_contains_iff (m : SortedMap κ α) (k : κ) :
    m.contains k = false ↔ m.get? k = none := by
  simp [contains]

private theorem mem_of_find? [Std.LawfulEqOrd κ] {k : κ} {v : α} {l : List (κ × α)}
    (h : find? k l = some v) : (k, v) ∈ l := by
  induction l with
  | nil => cases h
  | cons q rest ih =>
    obtain ⟨k', v'⟩ := q
    unfold find? at h
    split at h
    · cases h
    · next heq =>
      have := Std.LawfulEqCmp.eq_of_compare heq
      subst this
      cases h
      exact List.mem_cons_self
    · exact List.mem_cons_of_mem _ (ih h)

instance : HasSubset (SortedMap κ α) := ⟨fun m m' => ∀ p ∈ m.toList, m'.get? p.1 = some p.2⟩

instance [DecidableEq α] (m m' : SortedMap κ α) : Decidable (m ⊆ m') :=
  inferInstanceAs (Decidable (∀ p ∈ m.toList, m'.get? p.1 = some p.2))

def map {β : Type w} (g : α → β) (m : SortedMap κ α) : SortedMap κ β :=
  ⟨m.toList.map fun p => (p.1, g p.2), by rw [List.pairwise_map]; exact m.ascending⟩

theorem get?_map {β : Type w} (g : α → β) (m : SortedMap κ α) (k : κ) :
    (m.map g).get? k = (m.get? k).map g := by
  have hlist (l : List (κ × α)) :
      find? k (l.map fun p => (p.1, g p.2)) = (find? k l).map g := by
    induction l with
    | nil => rfl
    | cons p l ih =>
      rw [List.map_cons, find?, find?]
      split
      · rfl
      · rfl
      · exact ih
  exact hlist m.toList

/-- A map is left as it is when its values are. -/
theorem map_eq_self_iff {g : α → α} {m : SortedMap κ α} : m.map g = m ↔ ∀ v ∈ m.values, g v = v := by
  have hlist : m.map g = m ↔ m.toList.map (fun p => (p.1, g p.2)) = m.toList := by
    obtain ⟨l, hl⟩ := m
    exact SortedMap.mk.injEq _ _ _ _ |>.to_iff
  rw [hlist, Retrace.map_eq_self_iff, values, List.forall_mem_map]
  exact forall₂_congr fun p _ => Prod.mk_right_inj

private theorem map_insertInto {β : Type w} (g : α → β) (key : κ) (v : α) (l : List (κ × α)) :
    (insertInto key v l).map (fun p => (p.1, g p.2)) =
      insertInto key (g v) (l.map fun p => (p.1, g p.2)) := by
  induction l with
  | nil => rfl
  | cons q rest ih =>
    simp only [insertInto, List.map_cons]
    split <;> simp_all

variable [Std.TransOrd κ]

private theorem find?_of_mem {l : List (κ × α)} (h : l.Pairwise fun a b => compare a.1 b.1 = .lt)
    {p : κ × α} (hp : p ∈ l) : find? p.1 l = some p.2 := by
  induction l with
  | nil => cases hp
  | cons q rest ih =>
    obtain ⟨hq, hrest⟩ := List.pairwise_cons.1 h
    rcases List.mem_cons.1 hp with rfl | hp
    · simp [find?]
    · simp only [find?, Std.OrientedCmp.gt_of_lt (hq p hp)]
      exact ih hrest hp

private theorem insertInto_of_lt {key : κ} (value : α) {l : List (κ × α)}
    (h : ∀ p ∈ l, compare p.1 key = .lt) : insertInto key value l = l ++ [(key, value)] := by
  induction l with
  | nil => rfl
  | cons q rest ih =>
    obtain ⟨k, v⟩ := q
    rw [List.forall_mem_cons] at h
    simp only [insertInto, Std.OrientedCmp.gt_of_lt h.1, ih h.2, List.cons_append]

private theorem toList_insertAll {pairs : List (κ × α)} {m : SortedMap κ α}
    (h : (m.toList ++ pairs).Pairwise fun a b => compare a.1 b.1 = .lt) :
    (m.insertAll pairs).toList = m.toList ++ pairs := by
  induction pairs generalizing m with
  | nil => rw [List.append_nil]; rfl
  | cons q rest ih =>
    have hlt : ∀ p ∈ m.toList, compare p.1 q.1 = .lt := fun p hp =>
      (List.pairwise_append.1 h).2.2 p hp q List.mem_cons_self
    have hinsert : (m.insert q.1 q.2).toList = m.toList ++ [q] := insertInto_of_lt q.2 hlt
    rw [insertAll, List.foldl_cons, ← insertAll, ih, hinsert, List.append_assoc]
    · rfl
    · rw [hinsert, List.append_assoc]
      exact h

/-- A map is made of its own entries. -/
theorem ofList_toList (m : SortedMap κ α) : ofList m.toList = m := by
  have hlist : (ofList m.toList).toList = m.toList := toList_insertAll m.ascending
  cases hm : ofList m.toList
  cases m
  cases hm ▸ hlist
  rfl

theorem nodup_keys (m : SortedMap κ α) : (m.toList.map Prod.fst).Nodup := by
  rw [List.Nodup, List.pairwise_map]
  refine m.ascending.imp fun {a b} hlt heq => ?_
  rw [heq] at hlt
  simp at hlt

private theorem map_insert {β : Type w} (g : α → β) (m : SortedMap κ α) (key : κ) (v : α) :
    (m.insert key v).map g = (m.map g).insert key (g v) := by
  simp only [insert, map, map_insertInto]

private theorem map_insertAll {β : Type w} (g : α → β) (m : SortedMap κ α) (pairs : List (κ × α)) :
    (m.insertAll pairs).map g = (m.map g).insertAll (pairs.map fun p => (p.1, g p.2)) := by
  induction pairs generalizing m with
  | nil => rfl
  | cons q rest ih =>
    rw [List.map_cons, insertAll, insertAll, List.foldl_cons, List.foldl_cons, ← map_insert]
    exact ih _

theorem map_ofList {β : Type w} (g : α → β) (pairs : List (κ × α)) :
    (ofList pairs).map g = ofList (pairs.map fun p => (p.1, g p.2)) :=
  map_insertAll g empty pairs

variable [Std.LawfulEqOrd κ]

/-- A look-up finds exactly the listed pairs. -/
theorem get?_eq_some_iff (m : SortedMap κ α) (k : κ) (v : α) :
    m.get? k = some v ↔ (k, v) ∈ m.toList :=
  ⟨mem_of_find?, fun h => find?_of_mem m.ascending h⟩

theorem mem_keys_iff (m : SortedMap κ α) (k : κ) : k ∈ m.keys ↔ m.contains k = true := by
  rw [contains_iff, keys, List.mem_map]
  constructor
  · rintro ⟨⟨k, v⟩, hp, rfl⟩
    exact ⟨v, (get?_eq_some_iff m k v).2 hp⟩
  · rintro ⟨v, hv⟩
    exact ⟨(k, v), (get?_eq_some_iff m k v).1 hv, rfl⟩

theorem mem_values_iff (m : SortedMap κ α) (v : α) : v ∈ m.values ↔ ∃ k, m.get? k = some v := by
  rw [values, List.mem_map]
  constructor
  · rintro ⟨⟨k, v⟩, hp, rfl⟩
    exact ⟨k, (get?_eq_some_iff m k v).2 hp⟩
  · rintro ⟨k, hv⟩
    exact ⟨(k, v), (get?_eq_some_iff m k v).1 hv, rfl⟩

theorem contains_insert (m : SortedMap κ α) (key k : κ) (v : α) :
    (m.insert key v).contains k = true ↔ k = key ∨ m.contains k = true := by
  by_cases hk : k = key
  · simp [contains, hk]
  · simp [contains, get?_insert_of_ne m v hk, hk]

/-- Pairs whose keys ascend: none of them rebinds what another has bound. -/
theorem get?_insertAll_of_ascending {l : List (κ × α)}
    (h : l.Pairwise fun a b => compare a.1 b.1 = .lt) (m : SortedMap κ α) (k : κ) :
    (m.insertAll l).get? k = (find? k l).or (m.get? k) := by
  induction l generalizing m with
  | nil => rfl
  | cons q rest ih =>
    obtain ⟨k', v'⟩ := q
    obtain ⟨hq, hrest⟩ := List.pairwise_cons.1 h
    rw [insertAll, List.foldl_cons, ← insertAll, ih hrest, get?_insert]
    simp only [find?]
    cases hk : compare k k' with
    | lt => rw [find?_eq_none fun p hp => Std.TransCmp.lt_trans hk (hq p hp)]; simp
    | eq =>
      have := Std.LawfulEqCmp.eq_of_compare hk
      subst this
      rw [find?_eq_none hq]; simp
    | gt => simp

/-- The upper of two maps decides where it has an entry. -/
theorem get?_overlay (m upper : SortedMap κ α) (k : κ) :
    (m.overlay upper).get? k = (upper.get? k).or (m.get? k) :=
  get?_insertAll_of_ascending upper.ascending m k

theorem ext_get? {m m' : SortedMap κ α} (h : ∀ k, m.get? k = m'.get? k) : m = m' := by
  have hmem (p : κ × α) : p ∈ m.toList ↔ p ∈ m'.toList := by
    rw [← get?_eq_some_iff, ← get?_eq_some_iff, h]
  have : Std.Irrefl fun a b : κ × α => compare a.1 b.1 = .lt := ⟨by simp⟩
  have : Std.Antisymm fun a b : κ × α => compare a.1 b.1 = .lt :=
    ⟨fun a b hab hba => by simp [Std.OrientedCmp.gt_of_lt hab] at hba⟩
  have hlist := m.ascending.eq_of_mem_iff m'.ascending hmem
  cases m
  cases m'
  cases hlist
  rfl

/-- Nothing is left of a map under one that has all its keys. -/
theorem overlay_eq_right {m upper : SortedMap κ α}
    (h : ∀ k, m.contains k = true → upper.contains k = true) : m.overlay upper = upper := by
  refine ext_get? fun k => ?_
  rw [get?_overlay]
  cases hupper : upper.get? k with
  | some v => rfl
  | none =>
    have hnot : upper.contains k = false := (not_contains_iff _ _).2 hupper
    have hnone : m.contains k = false :=
      Bool.eq_false_of_not_eq_true fun hm => Bool.eq_false_iff.1 hnot (h k hm)
    rw [(not_contains_iff _ _).1 hnone]
    rfl

theorem contains_overlay (m upper : SortedMap κ α) (k : κ) :
    (m.overlay upper).contains k = true ↔ upper.contains k = true ∨ m.contains k = true := by
  simp [contains, get?_overlay]

private theorem get?_insertAll (pairs : List (κ × α)) (m : SortedMap κ α) (k : κ) :
    ((m.insertAll pairs).get? k = m.get? k ∧ ∀ v, (k, v) ∉ pairs) ∨
      ∃ v, (m.insertAll pairs).get? k = some v ∧ (k, v) ∈ pairs := by
  induction pairs generalizing m with
  | nil => exact .inl ⟨rfl, by simp⟩
  | cons q rest ih =>
    obtain ⟨k', v'⟩ := q
    rw [insertAll, List.foldl_cons, ← insertAll]
    rcases ih (m.insert k' v') with ⟨heq, hnot⟩ | ⟨v, hv, hmem⟩
    · by_cases hk : k = k'
      · subst hk
        exact .inr ⟨v', by rw [heq, get?_insert_self], List.mem_cons_self⟩
      · refine .inl ⟨by rw [heq, get?_insert_of_ne m v' hk], fun v hv => ?_⟩
        rcases List.mem_cons.1 hv with h | h
        · exact hk (congrArg Prod.fst h)
        · exact hnot v h
    · exact .inr ⟨v, hv, List.mem_cons_of_mem _ hmem⟩

/-- What is found among pairs bound one after the other is one of them. -/
theorem mem_of_get?_ofList {pairs : List (κ × α)} {k : κ} {v : α}
    (h : (ofList pairs).get? k = some v) : (k, v) ∈ pairs := by
  rcases get?_insertAll pairs empty k with ⟨heq, -⟩ | ⟨w, hw, hmem⟩
  · rw [ofList, heq] at h
    cases h
  · rw [ofList, hw] at h
    cases h
    exact hmem

/-- A key that is bound at all is found. -/
theorem exists_get?_ofList {pairs : List (κ × α)} {k : κ} {v : α} (h : (k, v) ∈ pairs) :
    ∃ w, (ofList pairs).get? k = some w := by
  rcases get?_insertAll pairs empty k with ⟨-, hnot⟩ | ⟨w, hw, -⟩
  · exact absurd h (hnot v)
  · exact ⟨w, hw⟩

theorem ascending_keys {α : Type v} (m : SortedMap UInt64 α) : m.keys.Pairwise (· < ·) := by
  rw [keys, List.pairwise_map]
  exact m.ascending.imp fun h => Std.compare_eq_lt.1 h

/-- The last key is the greatest. -/
theorem le_getLast_keys {α : Type v} (m : SortedMap UInt64 α) {last k : UInt64}
    (h : m.keys.getLast? = some last) (hk : k ∈ m.keys) : k ≤ last := by
  obtain ⟨front, hfront⟩ := List.getLast?_eq_some_iff.1 h
  have hlt := m.ascending_keys
  rw [hfront, List.pairwise_append] at hlt
  rw [hfront] at hk
  rcases List.mem_append.1 hk with hk | hk
  · exact UInt64.le_of_lt (hlt.2.2 k hk last (List.mem_singleton_self last))
  · exact UInt64.le_of_eq (List.mem_singleton.1 hk)

end Retrace.SortedMap

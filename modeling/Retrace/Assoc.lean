/-! Lists of pairs as maps that keep the order of first insertion. -/
namespace Retrace

variable {κ : Type u} {α : Type v} [BEq κ]

/-- Binds a key: in place if it is bound already, else at the end. -/
def upsert (key : κ) (value : α) : List (κ × α) → List (κ × α)
  | [] => [(key, value)]
  | (k, v) :: rest => if k == key then (k, value) :: rest else (k, v) :: upsert key value rest

def upsertAll (pairs : List (κ × α)) (into : List (κ × α)) : List (κ × α) :=
  pairs.foldl (fun entries p => upsert p.1 p.2 entries) into

variable [LawfulBEq κ]

theorem lookup_upsert (key k : κ) (value : α) (entries : List (κ × α)) :
    (upsert key value entries).lookup k = if k == key then some value else entries.lookup k := by
  induction entries with
  | nil => cases h : k == key <;> simp [upsert, h, List.lookup_cons]
  | cons p rest ih =>
    obtain ⟨k', v'⟩ := p
    by_cases h' : k' = key
    · subst h'
      cases h : k == k' <;> simp [upsert, List.lookup_cons, h]
    · by_cases h : k = k'
      · subst h
        simp [upsert, h']
      · have hk : (k == k') = false := beq_false_of_ne h
        simp [upsert, List.lookup_cons, h', hk, ih]

theorem mem_upsert {key : κ} {value : α} {entries : List (κ × α)} {e : κ × α}
    (h : e ∈ upsert key value entries) : e = (key, value) ∨ e ∈ entries := by
  induction entries with
  | nil => exact .inl (List.mem_singleton.1 h)
  | cons p rest ih =>
    obtain ⟨k, v⟩ := p
    unfold upsert at h
    split at h
    · next heq =>
      cases eq_of_beq heq
      exact (List.mem_cons.1 h).imp_right (List.mem_cons_of_mem _)
    · rcases List.mem_cons.1 h with rfl | h
      · exact .inr List.mem_cons_self
      · exact (ih h).imp_right (List.mem_cons_of_mem _)

theorem mem_upsertAll {pairs into : List (κ × α)} {e : κ × α} (h : e ∈ upsertAll pairs into) :
    e ∈ pairs ∨ e ∈ into := by
  induction pairs generalizing into with
  | nil => exact .inr h
  | cons p rest ih =>
    rcases ih h with h | h
    · exact .inl (List.mem_cons_of_mem _ h)
    · rcases mem_upsert h with rfl | h
      · exact .inl List.mem_cons_self
      · exact .inr h

theorem keys_upsert (key : κ) (value : α) (entries : List (κ × α)) :
    (upsert key value entries).map Prod.fst =
      if entries.any (·.1 == key) then entries.map Prod.fst else entries.map Prod.fst ++ [key] := by
  induction entries with
  | nil => rfl
  | cons p rest ih =>
    obtain ⟨k', v'⟩ := p
    by_cases h' : k' = key
    · simp [upsert, h']
    · have hk : (k' == key) = false := beq_false_of_ne h'
      cases h : rest.any (·.1 == key) <;> simp [upsert, hk, ih, h]

theorem nodup_keys_upsert {key : κ} {value : α} {entries : List (κ × α)}
    (h : (entries.map Prod.fst).Nodup) : ((upsert key value entries).map Prod.fst).Nodup := by
  rw [keys_upsert]
  split
  · exact h
  · next hk =>
    simp only [List.nodup_append, h, List.nodup_cons, List.not_mem_nil, not_false_eq_true,
      List.nodup_nil, and_self, List.mem_cons, or_false, true_and]
    intro a ha b hb hab
    subst hb
    subst hab
    simp only [List.any_eq_true, beq_iff_eq, not_exists, not_and, List.mem_map] at hk ha
    obtain ⟨p, hp, rfl⟩ := ha
    exact hk p hp rfl

end Retrace

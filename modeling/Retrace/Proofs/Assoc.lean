import Mathlib.Data.List.Induction
import Retrace.Assoc
import Retrace.Proofs.Lists

/-! What binding pairs one after the other comes to: every key once, where it first occurs, with its
last value. -/
namespace Retrace

variable {κ : Type u} {α : Type v} {β : Type w} [BEq κ]

private theorem upsertAll_concat (pairs into : List (κ × α)) (p : κ × α) :
    upsertAll (pairs ++ [p]) into = upsert p.1 p.2 (upsertAll pairs into) :=
  List.foldl_append

/-! ### Entries that are related one by one -/

def RelatedEntries (S : α → β → Prop) : List (κ × α) → List (κ × β) → Prop :=
  List.Forall₂ fun a b => a.1 = b.1 ∧ S a.2 b.2

variable {S : α → β → Prop}

omit [BEq κ] in

theorem relatedEntries_iff {as : List (κ × α)} {bs : List (κ × β)} :
    RelatedEntries S as bs ↔
      as.map Prod.fst = bs.map Prod.fst ∧ List.Forall₂ S (as.map Prod.snd) (bs.map Prod.snd) := by
  rw [← List.forall₂_eq_eq_eq]
  simp only [List.forall₂_map_left_iff, List.forall₂_map_right_iff]
  constructor
  · exact fun h => ⟨h.imp fun _ _ h => h.1, h.imp fun _ _ h => h.2⟩
  · rintro ⟨hkeys, hvalues⟩
    induction hkeys with
    | nil => exact .nil
    | cons hkey _ ih =>
      cases hvalues with
      | cons hvalue hvalues => exact .cons ⟨hkey, hvalue⟩ (ih hvalues)

private theorem relatedEntries_upsert {as : List (κ × α)} {bs : List (κ × β)}
    (h : RelatedEntries S as bs) {k : κ} {a : α} {b : β} (hab : S a b) :
    RelatedEntries S (upsert k a as) (upsert k b bs) := by
  induction h with
  | nil => exact .cons ⟨rfl, hab⟩ .nil
  | @cons x y _ _ hxy hrest ih =>
    obtain ⟨k', x⟩ := x
    obtain ⟨_, y⟩ := y
    obtain ⟨rfl, hxy⟩ := hxy
    rw [upsert, upsert]
    split
    · exact .cons ⟨rfl, hab⟩ hrest
    · exact .cons ⟨rfl, hxy⟩ ih

/-- Related pairs make related maps. -/
theorem relatedEntries_upsertAll {as : List (κ × α)} {bs : List (κ × β)}
    (h : RelatedEntries S as bs) : RelatedEntries S (upsertAll as []) (upsertAll bs []) := by
  refine List.rel_foldl (P := RelatedEntries S) ?_ .nil h
  rintro as bs hrest ⟨k, a⟩ ⟨_, b⟩ ⟨rfl, hab⟩
  exact relatedEntries_upsert hrest hab

/-! ### Keys and values -/

variable [LawfulBEq κ]

private theorem upsert_of_not_mem {key : κ} (value : α) {entries : List (κ × α)}
    (h : key ∉ entries.map Prod.fst) : upsert key value entries = entries ++ [(key, value)] := by
  induction entries with
  | nil => rfl
  | cons e entries ih =>
    rw [List.map_cons, List.mem_cons, not_or] at h
    have hne : (e.1 == key) = false := beq_false_of_ne (Ne.symm h.1)
    rw [upsert, hne, ih h.2]
    rfl

/-- Keys that are bound once stay in their order. -/
theorem upsertAll_of_nodup {pairs into : List (κ × α)}
    (h : ((into ++ pairs).map Prod.fst).Nodup) : upsertAll pairs into = into ++ pairs := by
  induction pairs generalizing into with
  | nil => exact (List.append_nil into).symm
  | cons p pairs ih =>
    have hnot : p.1 ∉ into.map Prod.fst := by
      rw [List.map_append, List.nodup_append] at h
      exact fun hmem => h.2.2 _ hmem _ List.mem_cons_self rfl
    have hlist : upsert p.1 p.2 into ++ pairs = into ++ p :: pairs := by
      rw [upsert_of_not_mem p.2 hnot, List.append_assoc]
      rfl
    rw [upsertAll, List.foldl_cons, ← upsertAll, ih (hlist ▸ h), hlist]

theorem keys_upsertAll (pairs : List (κ × α)) :
    (upsertAll pairs []).map Prod.fst = (pairs.map Prod.fst).eraseDups := by
  induction pairs using List.reverseRecOn with
  | nil => rfl
  | append_singleton pairs p ih =>
    have hany : (upsertAll pairs []).any (·.1 == p.1) ↔ p.1 ∈ pairs.map Prod.fst := by
      rw [← List.mem_eraseDups, ← ih]
      simp
    rw [upsertAll_concat, keys_upsert, ih, List.map_append]
    split
    · next h => rw [eraseDups_append_of_subset (by simpa using hany.1 h)]
    · next h => rw [List.map_singleton, eraseDups_append_new fun hmem => h (hany.2 hmem)]

private theorem lookup_upsertAll (pairs into : List (κ × α)) (k : κ) :
    (upsertAll pairs into).lookup k = (pairs.reverse.lookup k).or (into.lookup k) := by
  induction pairs using List.reverseRecOn with
  | nil => rfl
  | append_singleton pairs p ih =>
    rw [upsertAll_concat, lookup_upsert, ih, List.reverse_concat, List.lookup_cons]
    cases k == p.1 <;> rfl

/-- The first pair of a key from behind is the last one. -/
theorem lookup_reverse_eq_some_iff {pairs : List (κ × α)} {k : κ} {v : α} :
    pairs.reverse.lookup k = some v ↔
      ∃ front back, pairs = front ++ (k, v) :: back ∧ k ∉ back.map Prod.fst := by
  rw [List.lookup_eq_some_iff]
  constructor
  · rintro ⟨back, front, heq, hback⟩
    refine ⟨front.reverse, back.reverse, ?_, fun hk => ?_⟩
    · rw [← List.reverse_reverse pairs, heq]
      simp
    · obtain ⟨p, hp, rfl⟩ := List.mem_map.1 hk
      simpa using hback p (List.mem_reverse.1 hp)
  · rintro ⟨front, back, rfl, hback⟩
    refine ⟨back.reverse, front.reverse, by simp, fun p hp => bne_iff_ne.2 ?_⟩
    rintro rfl
    exact hback (List.mem_map_of_mem (List.mem_reverse.1 hp))

/-- The entries are the map that pairs make: a repeated key keeps its first place and takes its last
value. -/
structure Collects (pairs entries : List (κ × α)) : Prop where
  keys_eq : entries.map Prod.fst = (pairs.map Prod.fst).eraseDups
  lookup_iff : ∀ k v, entries.lookup k = some v ↔
    ∃ front back, pairs = front ++ (k, v) :: back ∧ k ∉ back.map Prod.fst

theorem collects_upsertAll (pairs : List (κ × α)) : Collects pairs (upsertAll pairs []) where
  keys_eq := keys_upsertAll pairs
  lookup_iff k v := by
    rw [lookup_upsertAll, List.lookup_nil, Option.or_none, lookup_reverse_eq_some_iff]

end Retrace

import Retrace.Proofs.Assoc
import Retrace.Proofs.Datum.Decoded
import Retrace.Scope

/-! Scopes as ordered maps. Binding pairs one after the other and reading the object that lists them
come to the same scope. -/
namespace Retrace

namespace Scope

/-! ### Bound one after the other -/

theorem entries_insertAll (s : Scope) (pairs : List (String × Datum)) :
    (pairs.foldl (fun s p => s.insert p.1 p.2) s).entries = upsertAll pairs s.entries := by
  induction pairs generalizing s with
  | nil => rfl
  | cons p pairs ih => exact ih (s.insert p.1 p.2)

private theorem entries_ofList (pairs : List (String × Datum)) :
    (ofList pairs).entries = upsertAll pairs [] :=
  entries_insertAll ∅ pairs

private theorem collects_ofList (pairs : List (String × Datum)) :
    Collects pairs (ofList pairs).entries := by
  rw [entries_ofList]
  exact collects_upsertAll pairs

theorem mem_ofList {pairs : List (String × Datum)} {e : String × Datum}
    (h : e ∈ (ofList pairs).entries) : e ∈ pairs := by
  rw [entries_ofList] at h
  exact (mem_upsertAll h).resolve_right List.not_mem_nil

/-- Names that are bound once stay in their order. -/
theorem entries_ofList_of_nodup {pairs : List (String × Datum)} (h : (pairs.map Prod.fst).Nodup) :
    (ofList pairs).entries = pairs := by
  rw [entries_ofList, upsertAll_of_nodup h, List.nil_append]

private theorem ofList_entries (s : Scope) : ofList s.entries = s := by
  have h := entries_ofList_of_nodup s.distinct
  cases hs : ofList s.entries
  rw [hs] at h
  cases s
  cases h
  rfl

/-! ### Listed by an object -/

theorem ofJson_object_of_ofEntries {members : List (String × Json)}
    {entries : List (String × Datum)} (h : Datum.ofEntries members = .ok entries) :
    ofJson (.object members) = .ok (ofList entries) := by
  rw [ofJson, h]
  rfl

/-- An object that lists pairs is read entry by entry into the scope in which they are bound one
after the other. A name that is listed again keeps its first place and takes its last value. -/
theorem ofList_ordered (pairs : List (String × Datum)) :
    (ofList pairs).names.Nodup ∧
      (ofList pairs).names = (pairs.map Prod.fst).eraseDups ∧
      (∀ name d, (ofList pairs).get? name = some d ↔
        ∃ front back, pairs = front ++ (name, d) :: back ∧ name ∉ back.map Prod.fst) ∧
      ∀ members : List (String × Json),
        RelatedEntries (fun v d => Datum.ofJson v.settle = .ok d) members pairs →
        ∃ kept, (Json.object members).settle = .object kept ∧
          Collects (members.map fun m => (m.1, m.2.settle)) kept ∧
          Datum.ofEntries kept = .ok (ofList pairs).entries ∧
          ofJson (.object kept) = .ok (ofList pairs) := by
  have hcollects := collects_ofList pairs
  refine ⟨(ofList pairs).distinct, hcollects.keys_eq, hcollects.lookup_iff, fun members h => ?_⟩
  have hsettled : RelatedEntries (fun v d => Datum.ofJson v = .ok d)
      (members.map fun m => (m.1, m.2.settle)) pairs :=
    List.forall₂_map_left_iff.2 h
  have hentries : Datum.ofEntries (upsertAll (members.map fun m => (m.1, m.2.settle)) []) =
      .ok (ofList pairs).entries := by
    rw [entries_ofList, Datum.ofEntries_eq_ok_iff]
    exact relatedEntries_upsertAll hsettled
  refine ⟨_, ?_, collects_upsertAll _, hentries, ?_⟩
  · rw [Json.settle, Json.settleMembers_eq_map]
  · rw [ofJson_object_of_ofEntries hentries, ofList_entries]

/-- Members of an object that names `z` twice, and `k` twice inside. -/
def relisted : List (String × Json) :=
  [("z", .number (.unsigned 1)), ("a", .object [("k", .null), ("k", .array [])]),
    ("z", .string "s")]

def rebound : List (String × Datum) :=
  [("z", .number (.unsigned 1)), ("a", .mapping [("k", .list [])]), ("z", .string "s")]

theorem rebound_ordered :
    RelatedEntries (fun v d => Datum.ofJson v.settle = .ok d) relisted rebound ∧
      (ofList rebound).names = ["z", "a"] ∧
      (ofList rebound).get? "z" = some (.string "s") ∧
      (Json.object relisted).settle =
        .object [("z", .string "s"), ("a", .object [("k", .array [])])] ∧
      ofJson (.object [("z", .string "s"), ("a", .object [("k", .array [])])]) =
        .ok (ofList rebound) := by
  have hrelated : RelatedEntries (fun v d => Datum.ofJson v.settle = .ok d) relisted rebound :=
    .cons ⟨rfl, rfl⟩ (.cons ⟨rfl, rfl⟩ (.cons ⟨rfl, rfl⟩ .nil))
  obtain ⟨-, hnames, hget, hread⟩ := ofList_ordered rebound
  obtain ⟨kept, hkept, -, -, hread⟩ := hread relisted hrelated
  have hsettle : (Json.object relisted).settle =
      .object [("z", .string "s"), ("a", .object [("k", .array [])])] := rfl
  cases hsettle.symm.trans hkept
  refine ⟨hrelated, hnames, (hget "z" _).2 ?_, hsettle, hread⟩
  exact ⟨[_, _], [], rfl, List.not_mem_nil⟩

end Scope
end Retrace

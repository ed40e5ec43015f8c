import Retrace.Json.Reading
import Retrace.Proofs.Assoc

/-! Settled values, in which every object binds its names once. All that is read from a text is
settled, and so is everything inside it. -/
namespace Retrace.Json

private theorem settleItems_eq_map (vs : List Json) : settleItems vs = vs.map settle := by
  induction vs with
  | nil => rfl
  | cons v vs ih => rw [settleItems, ih, List.map_cons]

theorem settleMembers_eq_map (members : List (String × Json)) :
    settleMembers members = members.map fun m => (m.1, m.2.settle) := by
  induction members with
  | nil => rfl
  | cons m members ih => rw [settleMembers, ih, List.map_cons]

def Settled (v : Json) : Prop := ∃ u : Json, u.settle = v

theorem settled_settle (v : Json) : v.settle.Settled := ⟨v, rfl⟩

theorem Settled.of_item {vs : List Json} (h : Settled (.array vs)) {v : Json} (hv : v ∈ vs) :
    v.Settled := by
  obtain ⟨u, hu⟩ := h
  cases u with
  | array us =>
    rw [settle, settleItems_eq_map] at hu
    cases hu
    obtain ⟨u, -, rfl⟩ := List.mem_map.1 hv
    exact settled_settle u
  | _ => cases hu

private theorem Settled.exists_members {ms : List (String × Json)} (h : Settled (.object ms)) :
    ∃ us : List (String × Json), ms = upsertAll (us.map fun m => (m.1, m.2.settle)) [] := by
  obtain ⟨u, hu⟩ := h
  cases u with
  | object us =>
    rw [settle, settleMembers_eq_map] at hu
    cases hu
    exact ⟨us, rfl⟩
  | _ => cases hu

theorem Settled.names_nodup {ms : List (String × Json)} (h : Settled (.object ms)) :
    (ms.map Prod.fst).Nodup := by
  obtain ⟨us, rfl⟩ := h.exists_members
  rw [keys_upsertAll]
  exact nodup_eraseDups _

theorem Settled.of_member {ms : List (String × Json)} (h : Settled (.object ms))
    {m : String × Json} (hm : m ∈ ms) : m.2.Settled := by
  obtain ⟨us, rfl⟩ := h.exists_members
  obtain ⟨u, -, rfl⟩ := List.mem_map.1 ((mem_upsertAll hm).resolve_right List.not_mem_nil)
  exact settled_settle u.2

theorem Settled.of_value {ms : List (String × Json)} (h : Settled (.object ms)) {v : Json}
    (hv : v ∈ ms.map Prod.snd) : v.Settled := by
  obtain ⟨m, hm, rfl⟩ := List.mem_map.1 hv
  exact h.of_member hm

/-- What is read from a text is settled. -/
theorem settled_of_parse {text : String} {v : Json} (h : parse text = .ok v) : v.Settled := by
  unfold parse at h
  cases hread : readText .memory (fun t => Read.ofText t.toJson) text.toList with
  | error e => rw [hread] at h; cases h
  | ok u => rw [hread] at h; cases h; exact settled_settle u

end Retrace.Json

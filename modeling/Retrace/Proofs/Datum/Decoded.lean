import Retrace.Proofs.Datum.Parts
import Retrace.Proofs.Json.Settled

/-! Values read from JSON. The three marked shapes of objects never come out as mappings, and names
are bound once, and so the JSON form of a value that was read tells the value. -/
namespace Retrace

theorem Except.bind_eq_ok {x : Except ε α} {f : α → Except ε β} {b : β}
    (h : x >>= f = .ok b) : ∃ a, x = .ok a ∧ f a = .ok b := by
  cases x with
  | error e => cases h
  | ok a => exact ⟨a, rfl, h⟩

theorem Json.string?_eq_some_iff {v : Json} {s : String} : v.string? = some s ↔ v = .string s := by
  cases v <;> simp [string?]

namespace Datum

/-- Members none of whose readings is another shape than a mapping. -/
structure Unmarked (members : List (String × Json)) : Prop where
  function : ∀ v, members ≠ [("$function", v)]
  object : ∀ v, members ≠ [("$instance", v)]
  reference : referenceId? members = none

/-- How a value comes out of the JSON it is read from. -/
inductive Reading : Json → Datum → Prop
  | null : Reading .null .null
  | bool (b : Bool) : Reading (.bool b) (.bool b)
  | number (n : Number) : Reading (.number n) (.number n)
  | string (s : String) : Reading (.string s) (.string s)
  | ref (members : List (String × Json)) (id : HeapId) : Reading (.object members) (.ref id)
  | list {vs : List Json} {items : List Datum}
      (h : List.Forall₂ (fun v d => ofJson v = .ok d) vs items) :
      Reading (.array vs) (.list items)
  | mapping {members : List (String × Json)} {entries : List (String × Datum)}
      (unmarked : Unmarked members) (names : members.map Prod.fst = entries.map Prod.fst)
      (h : List.Forall₂ (fun v d => ofJson v = .ok d) (members.map Prod.snd)
        (entries.map Prod.snd)) :
      Reading (.object members) (.mapping entries)
  | function (body : Json) (name source : String) :
      Reading (.object [("$function", body)]) (.function name source)
  | object (body : List (String × Json)) {members : List (String × Json)} (className : String)
      {fields : List (String × Datum)} (place : members = [] ∨ ("fields", .object members) ∈ body)
      (names : members.map Prod.fst = fields.map Prod.fst)
      (h : List.Forall₂ (fun v d => ofJson v = .ok d) (members.map Prod.snd)
        (fields.map Prod.snd)) :
      Reading (.object [("$instance", .object body)]) (.object className fields)

private theorem ofItems_eq_ok {vs : List Json} {items : List Datum}
    (h : ofItems vs = .ok items) : List.Forall₂ (fun v d => ofJson v = .ok d) vs items := by
  induction vs generalizing items with
  | nil => cases h; exact .nil
  | cons v vs ih =>
    obtain ⟨d, hd, h⟩ := Except.bind_eq_ok h
    obtain ⟨ds, hds, h⟩ := Except.bind_eq_ok h
    cases h
    exact .cons hd (ih hds)

/-- Members are read one by one, under their names. -/
theorem ofEntries_eq_ok_iff {members : List (String × Json)} {entries : List (String × Datum)} :
    ofEntries members = .ok entries ↔
      RelatedEntries (fun v d => ofJson v = .ok d) members entries := by
  induction members generalizing entries with
  | nil => simp [ofEntries, RelatedEntries, eq_comm]
  | cons m members ih =>
    rw [RelatedEntries, List.forall₂_cons_left_iff]
    constructor
    · intro h
      obtain ⟨d, hd, h⟩ := Except.bind_eq_ok h
      obtain ⟨ds, hds, h⟩ := Except.bind_eq_ok h
      cases h
      exact ⟨(m.1, d), ds, ⟨rfl, hd⟩, ih.1 hds, rfl⟩
    · rintro ⟨⟨name, d⟩, ds, ⟨rfl, hd⟩, hds, rfl⟩
      rw [ofEntries, hd, ih.2 hds]
      rfl

theorem ofEntries_eq_ok {members : List (String × Json)} {entries : List (String × Datum)}
    (h : ofEntries members = .ok entries) :
    members.map Prod.fst = entries.map Prod.fst ∧
      List.Forall₂ (fun v d => ofJson v = .ok d) (members.map Prod.snd)
        (entries.map Prod.snd) :=
  relatedEntries_iff.1 (ofEntries_eq_ok_iff.1 h)

private theorem ofFields_eq_ok {body : List (String × Json)} {fields : List (String × Datum)}
    (h : ofFields body = .ok fields) :
    ∃ members, (members = [] ∨ ("fields", .object members) ∈ body) ∧
      ofEntries members = .ok fields := by
  induction body with
  | nil => exact ⟨[], .inl rfl, h⟩
  | cons m ms ih =>
    unfold ofFields at h
    split at h
    · next heq => cases heq
    · exact ⟨[], .inl rfl, h⟩
    · next heq => cases heq; exact ⟨_, .inr List.mem_cons_self, h⟩
    · cases h
    · next heq =>
      cases heq
      obtain ⟨members, hplace, hmembers⟩ := ih h
      exact ⟨members, hplace.imp_right (List.mem_cons_of_mem _), hmembers⟩

private theorem ofFunction_eq_ok {body : Json} {d : Datum} (h : ofFunction body = .ok d) :
    ∃ name source, d = .function name source := by
  unfold ofFunction at h
  split at h
  · cases h
  · split at h <;> first | cases h; exact ⟨_, _, rfl⟩ | cases h

/-- A value that is read comes out in one of these ways. -/
theorem reading_of_ofJson {v : Json} {d : Datum} (h : ofJson v = .ok d) : Reading v d := by
  unfold ofJson at h
  split at h
  · cases h; exact .null
  · cases h; exact .bool _
  · cases h; exact .number _
  · cases h; exact .string _
  · obtain ⟨items, hitems, h⟩ := Except.bind_eq_ok h
    cases h
    exact .list (ofItems_eq_ok hitems)
  · obtain ⟨name, source, rfl⟩ := ofFunction_eq_ok h
    exact .function _ _ _
  · split at h
    · cases h
    · obtain ⟨fields, hfields, h⟩ := Except.bind_eq_ok h
      cases h
      obtain ⟨members, hplace, hmembers⟩ := ofFields_eq_ok hfields
      obtain ⟨hnames, hvalues⟩ := ofEntries_eq_ok hmembers
      exact .object _ _ hplace hnames hvalues
  · cases h
  · next members hfunction _ hobject =>
    split at h
    · next id _ =>
      cases hid : id.toUInt64.mapError DatumError.reference with
      | error e => rw [hid] at h; cases h
      | ok n =>
        rw [hid] at h
        cases h
        exact .ref _ _
    · next hreference =>
      obtain ⟨entries, hentries, h⟩ := Except.bind_eq_ok h
      cases h
      obtain ⟨hnames, hvalues⟩ := ofEntries_eq_ok hentries
      exact .mapping ⟨fun v hv => hfunction v hv, fun v hv => hobject v hv, hreference⟩ hnames
        hvalues

/-- References are read from objects of their form, and from nothing else. -/
theorem ofJson_eq_ref_iff {v : Json} {id : HeapId} :
    ofJson v = .ok (.ref id) ↔
      ∃ members w, v = .object members ∧ referenceId? members = some w ∧ w.toUInt64 = .ok id := by
  constructor
  · intro h
    unfold ofJson at h
    split at h
    · cases h
    · cases h
    · cases h
    · cases h
    · obtain ⟨items, -, h⟩ := Except.bind_eq_ok h
      cases h
    · obtain ⟨name, source, heq⟩ := ofFunction_eq_ok h
      cases heq
    · split at h
      · cases h
      · obtain ⟨fields, -, h⟩ := Except.bind_eq_ok h
        cases h
    · cases h
    · next members _ _ _ =>
      split at h
      · next w hid =>
        cases hread : w.toUInt64 with
        | error e => rw [hread] at h; cases h
        | ok n =>
          rw [hread] at h
          cases h
          exact ⟨members, w, rfl, hid, hread⟩
      · obtain ⟨entries, -, h⟩ := Except.bind_eq_ok h
        cases h
  · rintro ⟨members, w, rfl, hid, hread⟩
    rw [ofJson]
    · simp only [hid, hread]
      rfl
    all_goals
      rintro body rfl
      cases hid

/-- A value that can be read from some JSON, in which objects bind each name once. -/
def Decoded (d : Datum) : Prop := ∃ v : Json, ofJson v.settle = .ok d

theorem decoded_of_settled {v : Json} {d : Datum} (hv : v.Settled) (h : ofJson v = .ok d) :
    Decoded d := by
  obtain ⟨u, rfl⟩ := hv
  exact ⟨u, h⟩

theorem Decoded.exists_reading {d : Datum} (h : Decoded d) :
    ∃ v : Json, v.Settled ∧ Reading v d := by
  obtain ⟨u, hu⟩ := h
  exact ⟨_, u.settled_settle, reading_of_ofJson hu⟩

/-- The members from which the fields of an instance are read are settled, as their instance is. -/
theorem settled_fields {body members : List (String × Json)}
    (h : Json.Settled (.object [("$instance", .object body)]))
    (hplace : members = [] ∨ ("fields", .object members) ∈ body) :
    Json.Settled (.object members) := by
  obtain rfl | hmem := hplace
  · exact Json.settled_settle (.object [])
  · exact (h.of_member List.mem_cons_self).of_member hmem

private theorem decoded_of_forall₂ {vs : List Json} {ds : List Datum}
    (h : List.Forall₂ (fun v d => ofJson v = .ok d) vs ds) (hvs : ∀ v ∈ vs, v.Settled) {d : Datum}
    (hd : d ∈ ds) : Decoded d := by
  obtain ⟨v, hv, hread⟩ := exists_of_mem_right h hd
  exact decoded_of_settled (hvs v hv) hread

theorem Decoded.of_mem_parts {p d : Datum} (h : Decoded d) (hp : p ∈ d.parts) : Decoded p := by
  obtain ⟨v, hsettled, hreading⟩ := h.exists_reading
  cases hreading with
  | list hread => exact decoded_of_forall₂ hread (fun _ => hsettled.of_item) hp
  | mapping _ _ hread => exact decoded_of_forall₂ hread (fun _ => hsettled.of_value) hp
  | object _ _ hplace _ hread =>
    exact decoded_of_forall₂ hread (fun _ => (settled_fields hsettled hplace).of_value) hp
  | _ => cases hp

theorem Decoded.of_mem_visits {p d : Datum} (h : Decoded d) (hp : p ∈ d.visits) :
    Decoded p := by
  induction d using partsInduction with
  | step d ih =>
    rw [visits_eq] at hp
    rcases List.mem_cons.1 hp with rfl | hp
    · exact h
    · obtain ⟨q, hq, hp⟩ := List.mem_flatMap.1 hp
      exact ih q hq (h.of_mem_parts hq) hp

def names : Datum → List String
  | .mapping entries => entries.map Prod.fst
  | .object _ fields => fields.map Prod.fst
  | _ => []

theorem Decoded.names_nodup {d : Datum} (h : Decoded d) : d.names.Nodup := by
  obtain ⟨v, hsettled, hreading⟩ := h.exists_reading
  cases hreading with
  | mapping _ names _ =>
    rw [Datum.names, ← names]
    exact hsettled.names_nodup
  | object _ _ hplace names _ =>
    rw [Datum.names, ← names]
    exact (settled_fields hsettled hplace).names_nodup
  | _ => exact .nil

/-! ### JSON forms with distinct names -/

theorem upsertAll_entriesToJson {entries : List (String × Datum)}
    (h : (entries.map Prod.fst).Nodup) :
    upsertAll (entriesToJson entries) [] = entriesToJson entries := by
  refine upsertAll_of_nodup ?_
  rw [List.nil_append, entriesToJson_eq, List.map_map]
  exact h

theorem toJson_mapping {entries : List (String × Datum)} (h : (mapping entries).names.Nodup) :
    toJson (.mapping entries) = .object (entriesToJson entries) := by
  rw [toJson, upsertAll_entriesToJson h]

theorem toJson_object {className : String} {fields : List (String × Datum)}
    (h : (object className fields).names.Nodup) :
    toJson (.object className fields) = .object [("$instance",
      .object [("class", .string className), ("fields", .object (entriesToJson fields))])] := by
  rw [toJson, upsertAll_entriesToJson h]

end Datum
end Retrace

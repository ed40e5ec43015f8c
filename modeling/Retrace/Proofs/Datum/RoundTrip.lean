import Retrace.Proofs.Datum.Decoded
import Retrace.Proofs.Json.RecordReading

/-! The JSON form of a value that was read. It is read as the same value again; and it is the JSON
that the value came from exactly if every marker and reference in there was written in full. -/
namespace Retrace

private theorem Except.map_eq_ok {x : Except ε α} {f : α → β} {b : β} (h : x.map f = .ok b) :
    ∃ a, x = .ok a ∧ f a = b := by
  cases x with
  | error e => cases h
  | ok a => exact ⟨a, rfl, Except.ok.inj h⟩

namespace Datum

/-! ### Reading by shapes -/

theorem ofJson_of_unmarked {members : List (String × Json)} (h : Unmarked members) :
    ofJson (.object members) = (ofEntries members).map .mapping := by
  rw [ofJson]
  · rw [h.reference]
    rfl
  · exact fun body heq => h.function body heq
  · exact fun body heq => h.object (.object body) heq
  · exact fun body heq => h.object body heq

theorem ofJson_kind_ref (v : Json) :
    ofJson (.object [("kind", .string "ref"), ("heap_id", v)]) =
      (v.toUInt64.mapError .reference).map .ref :=
  rfl

private theorem ofJson_function (name source : String) :
    ofJson (.object [("$function", .object [("name", .string name), ("source", .string source)])]) =
      .ok (.function name source) :=
  rfl

private theorem ofJson_object (className : String) (fields : List (String × Json)) :
    ofJson (.object [("$instance",
      .object [("class", .string className), ("fields", .object fields)])]) =
        (ofEntries fields).map (.object className) :=
  rfl

/-! ### Read again -/

theorem ofItems_toJson (ds : List Datum) (h : ∀ d ∈ ds, ofJson d.toJson = .ok d) :
    ofItems (itemsToJson ds) = .ok ds := by
  induction ds with
  | nil => rfl
  | cons d ds ih =>
    rw [List.forall_mem_cons] at h
    rw [itemsToJson, ofItems, h.1, ih h.2]
    rfl

private theorem ofEntries_toJson (entries : List (String × Datum))
    (h : ∀ d ∈ entries.map Prod.snd, ofJson d.toJson = .ok d) :
    ofEntries (entriesToJson entries) = .ok entries := by
  rw [entriesToJson_eq, ofEntries_eq_ok_iff, RelatedEntries, List.forall₂_map_left_iff,
    List.forall₂_same]
  exact fun e he => ⟨rfl, h e.2 (List.mem_map_of_mem he)⟩

/-- Of a value that was read the form is a string exactly if it came from one. -/
theorem string?_toJson {v : Json} {d : Datum} (h : ofJson v = .ok d) :
    d.toJson.string? = v.string? := by
  cases reading_of_ofJson h <;> rfl

/-- Whether an object refers to a cell is told by its names and by the members that are strings. -/
theorem referenceId?_eq_none_of_forall₂ {ms ns : List (String × Json)}
    (hnames : ms.map Prod.fst = ns.map Prod.fst)
    (hstrings : List.Forall₂ (fun v w => w.string? = v.string?) (ms.map Prod.snd)
      (ns.map Prod.snd))
    (h : referenceId? ms = none) : referenceId? ns = none := by
  rcases ns with _ | ⟨⟨a, x⟩, _ | ⟨⟨b, y⟩, _ | ⟨n, ns⟩⟩⟩
  · rfl
  · rfl
  · rcases ms with _ | ⟨⟨a', x'⟩, _ | ⟨⟨b', y'⟩, _ | ⟨m, ms⟩⟩⟩
    · cases hnames
    · cases (List.cons.inj hnames).2
    · cases (List.cons.inj hnames).1
      cases (List.cons.inj (List.cons.inj hnames).2).1
      obtain ⟨hx, hstrings⟩ := List.forall₂_cons.1 hstrings
      obtain ⟨hy, -⟩ := List.forall₂_cons.1 hstrings
      simp only [referenceId?] at h ⊢
      rw [hx, hy]
      split at h
      · cases h
      · next hleft =>
        split at h
        · cases h
        · next hright => rw [if_neg hleft, if_neg hright]
    · cases (List.cons.inj (List.cons.inj hnames).2).2
  · rfl

/-- A mapping that was read does not turn into another shape. -/
theorem Unmarked.entriesToJson {members : List (String × Json)} {entries : List (String × Datum)}
    (h : Unmarked members) (hnames : members.map Prod.fst = entries.map Prod.fst)
    (hvalues : List.Forall₂ (fun v d => ofJson v = .ok d) (members.map Prod.snd)
      (entries.map Prod.snd)) : Unmarked (entriesToJson entries) := by
  have hnames' : members.map Prod.fst = (Datum.entriesToJson entries).map Prod.fst := by
    rw [entriesToJson_eq, List.map_map]
    exact hnames
  have hsingle {marker : String} {v : Json} (heq : Datum.entriesToJson entries = [(marker, v)]) :
      ∃ w, members = [(marker, w)] := by
    rw [heq] at hnames'
    rcases members with _ | ⟨⟨name, w⟩, _ | ⟨m, ms⟩⟩
    · cases hnames'
    · cases (List.cons.inj hnames').1
      exact ⟨w, rfl⟩
    · cases (List.cons.inj hnames').2
  refine ⟨fun v heq => ?_, fun v heq => ?_, referenceId?_eq_none_of_forall₂ hnames' ?_ h.reference⟩
  · obtain ⟨w, hw⟩ := hsingle heq
    exact h.function w hw
  · obtain ⟨w, hw⟩ := hsingle heq
    exact h.object w hw
  · rw [entriesToJson_eq, List.map_map,
      show entries.map (Prod.snd ∘ fun e => (e.1, e.2.toJson)) = (entries.map Prod.snd).map toJson
        by simp, List.forall₂_map_right_iff]
    exact hvalues.imp fun _ _ hv => string?_toJson hv

/-- The form of a value that was read is read as the value. -/
theorem ofJson_toJson_of_decoded {d : Datum} (h : Decoded d) : ofJson d.toJson = .ok d := by
  induction d using partsInduction with
  | step d ih =>
    have hparts : ∀ p ∈ d.parts, ofJson p.toJson = .ok p := fun p hp => ih p hp (h.of_mem_parts hp)
    have hnames := h.names_nodup
    obtain ⟨v, -, hreading⟩ := h.exists_reading
    cases hreading with
    | ref members id => rw [toJson, ofJson_kind_ref, Json.toUInt64_ofUInt64]; rfl
    | @list _ items _ => rw [toJson, ofJson, ofItems_toJson items hparts]; rfl
    | @mapping _ entries unmarked names hvalues =>
      rw [toJson_mapping hnames, ofJson_of_unmarked (unmarked.entriesToJson names hvalues),
        ofEntries_toJson entries hparts]
      rfl
    | function body name source => exact ofJson_function name source
    | @object body _ className fields =>
      rw [toJson_object hnames, ofJson_object, ofEntries_toJson fields hparts]
      rfl
    | _ => rfl

/-! ### Written in full -/

def functionInFull : Json → Bool
  | .object [("name", .string _), ("source", .string _)] => true
  | _ => false

mutual

/-- Whether all markers and references that are read in a JSON value are written in full: a callable
with its name and its source, an instance with its class and its fields, a reference with its kind
and its number, each in this order and with nothing else. -/
def inFull : Json → Bool
  | .array items => itemsInFull items
  | .object [("$function", body)] => functionInFull body
  | .object [("$instance", body)] => objectInFull body
  | .object members =>
    ((referenceId? members).isNone || members.map Prod.fst = ["kind", "heap_id"]) &&
      membersInFull members
  | _ => true

def objectInFull : Json → Bool
  | .object [("class", _), ("fields", .object fields)] => membersInFull fields
  | _ => false

def itemsInFull : List Json → Bool
  | [] => true
  | v :: vs => inFull v && itemsInFull vs

def membersInFull : List (String × Json) → Bool
  | [] => true
  | (_, v) :: ms => inFull v && membersInFull ms

end

private theorem eq_of_functionInFull {body : Json} (h : functionInFull body = true) :
    ∃ name source, body = .object [("name", .string name), ("source", .string source)] := by
  unfold functionInFull at h
  split at h
  · exact ⟨_, _, rfl⟩
  · cases h

private theorem eq_of_objectInFull {body : Json} (h : objectInFull body = true) :
    ∃ className fields, body = .object [("class", className), ("fields", .object fields)] ∧
      membersInFull fields = true := by
  unfold objectInFull at h
  split at h
  · exact ⟨_, _, rfl, h⟩
  · cases h

/-- Members that are no marker. -/
theorem inFull_object {members : List (String × Json)}
    (hfunction : ∀ v, members ≠ [("$function", v)])
    (hobject : ∀ v, members ≠ [("$instance", v)]) :
    inFull (.object members) =
      (((referenceId? members).isNone || members.map Prod.fst = ["kind", "heap_id"]) &&
        membersInFull members) := by
  rw [inFull]
  · exact fun v heq => hfunction v heq
  · exact fun v heq => hobject v heq

private theorem inFull_of_unmarked {members : List (String × Json)} (h : Unmarked members) :
    inFull (.object members) = membersInFull members := by
  rw [inFull_object h.function h.object, h.reference]
  rfl

/-- A reference in full has its two members in their order. -/
theorem eq_of_inFull_reference {members : List (String × Json)} {w : Json}
    (hid : referenceId? members = some w) (h : inFull (.object members) = true) :
    members = [("kind", .string "ref"), ("heap_id", w)] := by
  have hnot (marker : String) (v : Json) : members ≠ [(marker, v)] := by
    rintro rfl
    cases hid
  rw [inFull_object (hnot "$function") (hnot "$instance"), hid, Bool.and_eq_true] at h
  have hnames : members.map Prod.fst = ["kind", "heap_id"] := by simpa using h.1
  rcases members with _ | ⟨⟨kind, x⟩, _ | ⟨⟨heapId, y⟩, _ | ⟨m, ms⟩⟩⟩
  · cases hnames
  · cases (List.cons.inj hnames).2
  · cases (List.cons.inj hnames).1
    cases (List.cons.inj (List.cons.inj hnames).2).1
    obtain ⟨hkind, rfl⟩ : x.string? = some "ref" ∧ y = w := by simpa [referenceId?] using hid
    rw [Json.string?_eq_some_iff.1 hkind]
  · cases (List.cons.inj (List.cons.inj hnames).2).2

private theorem itemsToJson_of_inFull {vs : List Json} {ds : List Datum}
    (h : List.Forall₂ (fun v d => ofJson v = .ok d) vs ds) (hvs : ∀ v ∈ vs, v.Settled)
    (hfull : itemsInFull vs = true)
    (hform : ∀ d ∈ ds, ∀ v : Json, v.Settled → ofJson v = .ok d → inFull v = true →
      d.toJson = v) : itemsToJson ds = vs := by
  induction h with
  | nil => rfl
  | cons hv _ ih =>
    rw [itemsInFull, Bool.and_eq_true] at hfull
    rw [List.forall_mem_cons] at hvs hform
    rw [itemsToJson, hform.1 _ hvs.1 hv hfull.1, ih hvs.2 hfull.2 hform.2]

private theorem entriesToJson_of_inFull {ms : List (String × Json)}
    {entries : List (String × Datum)} (h : ofEntries ms = .ok entries) (hms : ∀ m ∈ ms, m.2.Settled)
    (hfull : membersInFull ms = true)
    (hform : ∀ d ∈ entries.map Prod.snd, ∀ v : Json, v.Settled → ofJson v = .ok d →
      inFull v = true → d.toJson = v) : entriesToJson entries = ms := by
  induction ms generalizing entries with
  | nil => cases h; rfl
  | cons m ms ih =>
    obtain ⟨name, v⟩ := m
    obtain ⟨d, hd, h⟩ := Except.bind_eq_ok h
    obtain ⟨ds, hds, h⟩ := Except.bind_eq_ok h
    cases h
    rw [membersInFull, Bool.and_eq_true] at hfull
    rw [List.map_cons, List.forall_mem_cons] at hform
    rw [List.forall_mem_cons] at hms
    rw [entriesToJson, hform.1 v hms.1 hd hfull.1, ih hds hms.2 hfull.2 hform.2]

/-- JSON in full is the form of the value that is read from it. -/
theorem toJson_of_inFull {v : Json} {d : Datum} (hv : v.Settled) (h : ofJson v = .ok d)
    (hfull : inFull v = true) : d.toJson = v := by
  induction d using partsInduction generalizing v with
  | step d ih =>
    have hform : ∀ p ∈ d.parts, ∀ w : Json, w.Settled → ofJson w = .ok p → inFull w = true →
        p.toJson = w :=
      fun p hp w => ih p hp
    have hnames := (decoded_of_settled hv h).names_nodup
    cases reading_of_ofJson h with
    | ref members id =>
      obtain ⟨_, w, heq, hid, hread⟩ := ofJson_eq_ref_iff.1 h
      cases heq
      rw [eq_of_inFull_reference hid hfull, Json.eq_ofUInt64_of_toUInt64 hread]
      rfl
    | @list vs items hitems =>
      rw [inFull] at hfull
      rw [toJson, itemsToJson_of_inFull hitems (fun _ => hv.of_item) hfull hform]
    | @mapping members entries unmarked _ _ =>
      rw [inFull_of_unmarked unmarked] at hfull
      rw [ofJson_of_unmarked unmarked] at h
      obtain ⟨entries', hentries, heq⟩ := Except.map_eq_ok h
      cases heq
      rw [toJson_mapping hnames,
        entriesToJson_of_inFull hentries (fun _ => hv.of_member) hfull hform]
    | function body name source =>
      obtain ⟨name', source', rfl⟩ := eq_of_functionInFull hfull
      cases h
      rfl
    | @object body members className fields =>
      obtain ⟨className', fields', heq, hfields⟩ := eq_of_objectInFull hfull
      cases heq
      have hbody := hv.of_member List.mem_cons_self
      have hsettled : Json.Settled (.object fields') :=
        hbody.of_member (List.mem_cons_of_mem _ List.mem_cons_self)
      cases className' with
      | string name =>
        rw [ofJson_object] at h
        obtain ⟨entries, hentries, heq⟩ := Except.map_eq_ok h
        cases heq
        rw [toJson_object hnames,
          entriesToJson_of_inFull hentries (fun _ => hsettled.of_member) hfields hform]
      | _ => cases h
    | _ => rfl

/-! ### Forms are in full -/

theorem itemsInFull_toJson (ds : List Datum) (h : ∀ d ∈ ds, inFull d.toJson = true) :
    itemsInFull (itemsToJson ds) = true := by
  induction ds with
  | nil => rfl
  | cons d ds ih =>
    rw [List.forall_mem_cons] at h
    rw [itemsToJson, itemsInFull, h.1, ih h.2]
    rfl

private theorem membersInFull_toJson (entries : List (String × Datum))
    (h : ∀ d ∈ entries.map Prod.snd, inFull d.toJson = true) :
    membersInFull (entriesToJson entries) = true := by
  induction entries with
  | nil => rfl
  | cons e entries ih =>
    rw [List.map_cons, List.forall_mem_cons] at h
    rw [entriesToJson, membersInFull, h.1, ih h.2]
    rfl

private theorem inFull_toJson {d : Datum} (h : Decoded d) : inFull d.toJson = true := by
  induction d using partsInduction with
  | step d ih =>
    have hparts : ∀ p ∈ d.parts, inFull p.toJson = true := fun p hp => ih p hp (h.of_mem_parts hp)
    have hnames := h.names_nodup
    obtain ⟨v, -, hreading⟩ := h.exists_reading
    cases hreading with
    | @list _ items _ => rw [toJson, inFull, itemsInFull_toJson items hparts]
    | @mapping _ entries unmarked names hvalues =>
      rw [toJson_mapping hnames, inFull_of_unmarked (unmarked.entriesToJson names hvalues),
        membersInFull_toJson entries hparts]
    | @object body _ className fields =>
      rw [toJson_object hnames]
      exact membersInFull_toJson fields hparts
    | _ => rfl

/-- A value and the JSON that it was read from, in which objects bind each name once: the form of the
value is read as the value again, and it is the JSON itself exactly if that was written in full. -/
theorem form_of_ofJson {v : Json} {d : Datum} (h : ofJson v.settle = .ok d) :
    ofJson d.toJson = .ok d ∧ (d.toJson = v.settle ↔ inFull v.settle = true) := by
  have hdecoded : Decoded d := ⟨v, h⟩
  refine ⟨ofJson_toJson_of_decoded hdecoded, fun heq => ?_, toJson_of_inFull v.settled_settle h⟩
  rw [← heq]
  exact inFull_toJson hdecoded

/-- An instance whose fields are named as the members of a reference, and a reference. -/
def lookalike : Datum :=
  .mapping [("p", .object "P" [("heap_id", .number (.unsigned 7)), ("kind", .string "ref")]),
    ("r", .ref 4)]

def lookalikeJson (reference : List (String × Json)) : Json :=
  .object [("p", .object [("$instance", .object [("class", .string "P"),
      ("fields", .object [("heap_id", .number (.unsigned 7)), ("kind", .string "ref")])])]),
    ("r", .object reference)]

/-- The order in the reference counts, that of the fields does not. -/
theorem lookalike_forms :
    let kindFirst := lookalikeJson [("kind", .string "ref"), ("heap_id", .ofUInt64 4)]
    let idFirst := lookalikeJson [("heap_id", .ofUInt64 4), ("kind", .string "ref")]
    ofJson kindFirst.settle = .ok lookalike ∧ ofJson idFirst.settle = .ok lookalike ∧
      ofJson lookalike.toJson = .ok lookalike ∧
      lookalike.toJson = kindFirst.settle ∧ lookalike.toJson ≠ idFirst.settle := by
  intro kindFirst idFirst
  have hkindFirst : ofJson kindFirst.settle = .ok lookalike := rfl
  have hidFirst : ofJson idFirst.settle = .ok lookalike := rfl
  obtain ⟨hread, hfull⟩ := form_of_ofJson hkindFirst
  have hnot : inFull idFirst.settle = false := by decide
  refine ⟨hkindFirst, hidFirst, hread, hfull.2 (by decide), fun heq => ?_⟩
  rw [(form_of_ofJson hidFirst).2, hnot] at heq
  cases heq

end Datum
end Retrace

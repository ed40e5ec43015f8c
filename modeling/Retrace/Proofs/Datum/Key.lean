import Retrace.Proofs.Datum.Decoded

/-! What a key tells: lists, mappings and instances that were read from JSON have the same key only
if they agree in everything but, perhaps, numbers that are spelled alike. -/
namespace Retrace.Datum

/-- Values that agree up to the spelling of numbers. -/
inductive Alike : Datum → Datum → Prop
  | null : Alike .null .null
  | bool (b : Bool) : Alike (.bool b) (.bool b)
  | number {m n : Number} (h : m.text = n.text) : Alike (.number m) (.number n)
  | string (s : String) : Alike (.string s) (.string s)
  | ref (id : HeapId) : Alike (.ref id) (.ref id)
  | list {ds es : List Datum} (h : List.Forall₂ Alike ds es) : Alike (.list ds) (.list es)
  | mapping {ds es : List (String × Datum)} (names : ds.map Prod.fst = es.map Prod.fst)
      (h : List.Forall₂ Alike (ds.map Prod.snd) (es.map Prod.snd)) :
      Alike (.mapping ds) (.mapping es)
  | function (name source : String) : Alike (.function name source) (.function name source)
  | object (className : String) {ds es : List (String × Datum)}
      (names : ds.map Prod.fst = es.map Prod.fst)
      (h : List.Forall₂ Alike (ds.map Prod.snd) (es.map Prod.snd)) :
      Alike (.object className ds) (.object className es)

private theorem not_decoded_marked {marker : String}
    (hmarker : marker = "$function" ∨ marker = "$instance") (v : Datum) :
    ¬ Decoded (.mapping [(marker, v)]) := by
  intro hdecoded
  obtain ⟨w, -, hreading⟩ := hdecoded.exists_reading
  cases hreading with
  | @mapping members _ unmarked names h =>
    rcases members with _ | ⟨⟨name, x⟩, _ | ⟨m, ms⟩⟩
    · cases names
    · cases (List.cons.inj names).1
      rcases hmarker with rfl | rfl
      · exact unmarked.function x rfl
      · exact unmarked.object x rfl
    · cases (List.cons.inj names).2

private theorem not_decoded_ref (v : Datum) :
    ¬ Decoded (.mapping [("kind", .string "ref"), ("heap_id", v)]) := by
  intro hdecoded
  obtain ⟨w, -, hreading⟩ := hdecoded.exists_reading
  cases hreading with
  | @mapping members _ unmarked names h =>
    rcases members with _ | ⟨⟨kind, x⟩, _ | ⟨⟨id, y⟩, _ | ⟨m, ms⟩⟩⟩
    · cases names
    · cases (List.cons.inj names).2
    · cases (List.cons.inj names).1
      cases (List.cons.inj (List.cons.inj names).2).1
      obtain ⟨hx, -⟩ := List.forall₂_cons.1 h
      cases reading_of_ofJson hx
      exact absurd unmarked.reference (by simp [referenceId?, Json.string?])
    · cases (List.cons.inj (List.cons.inj names).2).2

private theorem eq_string_of_toJson {d : Datum} {s : String} (h : Json.Alike (.string s) d.toJson) :
    d = .string s := by
  cases d with
  | string t => cases h; rfl
  | _ => cases h

private theorem first_name_eq {a b : String} {v w : Json} {ms ns : List (String × Json)}
    (h : Json.Alike (.object ((a, v) :: ms)) (.object ((b, w) :: ns))) : a = b := by
  cases h with
  | object names _ => exact (List.cons.inj names).1

private theorem entries_of_alike {ms : List (String × Json)} {es : List (String × Datum)}
    (h : Json.Alike (.object ms) (.object (entriesToJson es))) :
    ms.map Prod.fst = es.map Prod.fst ∧
      List.Forall₂ (fun v d => Json.Alike v d.toJson) (ms.map Prod.snd) (es.map Prod.snd) := by
  cases h with
  | object names h =>
    rw [entriesToJson_eq, List.map_map] at names h
    refine ⟨names, ?_⟩
    rw [show es.map (Prod.snd ∘ fun e => (e.1, e.2.toJson)) = (es.map Prod.snd).map toJson by
      simp, List.forall₂_map_right_iff] at h
    exact h

/-- The form of a mapping that was read is none of those with a single, marked member. -/
private theorem not_alike_marked {marker : String}
    (hmarker : marker = "$function" ∨ marker = "$instance") {v : Json}
    {es : List (String × Datum)} (he : Decoded (.mapping es)) :
    ¬ Json.Alike (.object [(marker, v)]) (.object (entriesToJson es)) := by
  intro h
  obtain ⟨names, -⟩ := entries_of_alike h
  rcases es with _ | ⟨⟨name, x⟩, _ | ⟨e, es⟩⟩
  · cases names
  · cases (List.cons.inj names).1
    exact not_decoded_marked hmarker x he
  · cases (List.cons.inj names).2

/-- Only a mapping has the form of a mapping that was read. -/
private theorem eq_mapping_of_alike {d : Datum} {es : List (String × Datum)}
    (he : Decoded (.mapping es)) (h : Json.Alike d.toJson (toJson (.mapping es))) :
    ∃ ds, d = .mapping ds := by
  rw [toJson_mapping he.names_nodup] at h
  cases d with
  | mapping ds => exact ⟨ds, rfl⟩
  | ref id =>
    obtain ⟨names, h⟩ := entries_of_alike h
    rcases es with _ | ⟨⟨kind, x⟩, _ | ⟨⟨heapId, y⟩, _ | ⟨e, es⟩⟩⟩
    · cases names
    · cases (List.cons.inj names).2
    · cases (List.cons.inj names).1
      cases (List.cons.inj (List.cons.inj names).2).1
      obtain ⟨hx, -⟩ := List.forall₂_cons.1 h
      cases eq_string_of_toJson hx
      exact absurd he (not_decoded_ref y)
    · cases (List.cons.inj (List.cons.inj names).2).2
  | function name source => exact absurd h (not_alike_marked (.inl rfl) he)
  | object className fields => exact absurd h (not_alike_marked (.inr rfl) he)
  | _ => cases h

private theorem names_entriesToJson (ds : List (String × Datum)) :
    (entriesToJson ds).map Prod.fst = ds.map Prod.fst := by
  rw [entriesToJson_eq, List.map_map]
  rfl

/-- Where names are bound once, forms that are alike have the same names, and forms of values under
them that are alike. -/
private theorem entries_of_forms_alike {ds es : List (String × Datum)}
    (hds : (ds.map Prod.fst).Nodup) (hes : (es.map Prod.fst).Nodup)
    (h : Json.Alike (.object (upsertAll (entriesToJson ds) []))
      (.object (upsertAll (entriesToJson es) []))) :
    ds.map Prod.fst = es.map Prod.fst ∧
      List.Forall₂ (fun d e => Json.Alike d.toJson e.toJson) (ds.map Prod.snd)
        (es.map Prod.snd) := by
  rw [upsertAll_entriesToJson hds, upsertAll_entriesToJson hes] at h
  obtain ⟨names, h⟩ := entries_of_alike h
  rw [names_entriesToJson] at names
  rw [entriesToJson_eq, List.map_map, show ds.map (Prod.snd ∘ fun e => (e.1, e.2.toJson)) =
    (ds.map Prod.snd).map toJson by simp, List.forall₂_map_left_iff] at h
  exact ⟨names, h⟩

private theorem eq_ref_of_alike {id : HeapId} {e : Datum} (he : ∀ es, e ≠ .mapping es)
    (h : Json.Alike (toJson (.ref id)) e.toJson) : e = .ref id := by
  cases e with
  | mapping es => exact absurd rfl (he es)
  | ref id' =>
    cases h with
    | object _ h =>
      obtain ⟨-, h⟩ := List.forall₂_cons.1 h
      obtain ⟨h, -⟩ := List.forall₂_cons.1 h
      cases h with
      | number h =>
        cases Number.unsigned_of_text_eq h
        rfl
  | function _ _ | object _ _ => exact absurd (first_name_eq h) (by decide)
  | _ => cases h

private theorem eq_function_of_alike {name source : String} {e : Datum}
    (he : ∀ es, e ≠ .mapping es) (h : Json.Alike (toJson (.function name source)) e.toJson) :
    e = .function name source := by
  cases e with
  | mapping es => exact absurd rfl (he es)
  | function name' source' =>
    cases h with
    | object _ h =>
      obtain ⟨h, -⟩ := List.forall₂_cons.1 h
      cases h with
      | object _ h =>
        obtain ⟨hname, h⟩ := List.forall₂_cons.1 h
        obtain ⟨hsource, -⟩ := List.forall₂_cons.1 h
        cases hname
        cases hsource
        rfl
  | ref _ | object _ _ => exact absurd (first_name_eq h) (by decide)
  | _ => cases h

private theorem eq_object_of_alike {className : String} {fields : List (String × Datum)}
    {e : Datum} (he : ∀ es, e ≠ .mapping es)
    (h : Json.Alike (toJson (.object className fields)) e.toJson) :
    ∃ fields', e = .object className fields' ∧
      Json.Alike (.object (upsertAll (entriesToJson fields) []))
        (.object (upsertAll (entriesToJson fields') [])) := by
  cases e with
  | mapping es => exact absurd rfl (he es)
  | object className' fields' =>
    cases h with
    | object _ h =>
      obtain ⟨h, -⟩ := List.forall₂_cons.1 h
      cases h with
      | object _ h =>
        obtain ⟨hclass, h⟩ := List.forall₂_cons.1 h
        obtain ⟨hfields, -⟩ := List.forall₂_cons.1 h
        cases hclass
        exact ⟨fields', rfl, hfields⟩
  | ref _ | function _ _ => exact absurd (first_name_eq h) (by decide)
  | _ => cases h

/-- The JSON form of a value that was read tells the value. -/
theorem alike_of_toJson {d e : Datum} (hd : Decoded d) (he : Decoded e)
    (h : Json.Alike d.toJson e.toJson) : Alike d e := by
  induction d using partsInduction generalizing e with
  | step d ih =>
    have hparts (h : List.Forall₂ (fun d e => Json.Alike d.toJson e.toJson) d.parts e.parts) :
        List.Forall₂ Alike d.parts e.parts :=
      forall₂_imp_mem h fun p hp q hq => ih p hp (hd.of_mem_parts hp) (he.of_mem_parts hq)
    by_cases hmapping : (∃ ds, d = .mapping ds) ∨ ∃ es, e = .mapping es
    · obtain ⟨⟨ds, rfl⟩, ⟨es, rfl⟩⟩ : (∃ ds, d = .mapping ds) ∧ ∃ es, e = .mapping es := by
        rcases hmapping with ⟨ds, rfl⟩ | ⟨es, rfl⟩
        · exact ⟨⟨ds, rfl⟩, eq_mapping_of_alike hd (Json.alike_of_text_eq h.text_eq.symm)⟩
        · exact ⟨eq_mapping_of_alike he h, ⟨es, rfl⟩⟩
      obtain ⟨names, h⟩ := entries_of_forms_alike hd.names_nodup he.names_nodup h
      exact .mapping names (hparts h)
    · rw [not_or, not_exists, not_exists] at hmapping
      obtain ⟨hnot, hnot'⟩ := hmapping
      cases d with
      | mapping ds => exact absurd rfl (hnot ds)
      | null => cases e <;> first | exact .null | cases h
      | bool b => cases e <;> first | (cases h; exact .bool b) | cases h
      | string s => cases e <;> first | (cases h; exact .string s) | cases h
      | number n =>
        cases e with
        | number m => cases h with | number h => exact .number h
        | _ => cases h
      | list ds =>
        cases e with
        | list es =>
          rw [toJson, toJson, itemsToJson_eq, itemsToJson_eq] at h
          cases h with
          | array h =>
            rw [List.forall₂_map_left_iff, List.forall₂_map_right_iff] at h
            exact .list (hparts h)
        | _ => cases h
      | ref id =>
        cases eq_ref_of_alike hnot' h
        exact .ref id
      | function name source =>
        cases eq_function_of_alike hnot' h
        exact .function name source
      | object className fields =>
        obtain ⟨fields', rfl, hfields⟩ := eq_object_of_alike hnot' h
        obtain ⟨names, hfields⟩ :=
          entries_of_forms_alike hd.names_nodup he.names_nodup hfields
        exact .object className names (hparts hfields)

private theorem entriesToJson_alike {ds es : List (String × Datum)}
    (names : ds.map Prod.fst = es.map Prod.fst)
    (h : List.Forall₂ Json.Alike ((ds.map Prod.snd).map toJson) ((es.map Prod.snd).map toJson)) :
    Json.Alike (.object (upsertAll (entriesToJson ds) []))
      (.object (upsertAll (entriesToJson es) [])) := by
  have hrelated : RelatedEntries Json.Alike (entriesToJson ds) (entriesToJson es) := by
    refine relatedEntries_iff.2 ⟨by rw [names_entriesToJson, names_entriesToJson, names], ?_⟩
    rw [entriesToJson_eq, entriesToJson_eq, List.map_map, List.map_map]
    rw [List.map_map, List.map_map] at h
    exact h
  obtain ⟨hnames, hvalues⟩ := relatedEntries_iff.1 (relatedEntries_upsertAll hrelated)
  exact .object hnames hvalues

/-- Values that are alike have JSON forms that are alike. -/
theorem Alike.toJson_alike {d e : Datum} (h : Alike d e) : Json.Alike d.toJson e.toJson := by
  induction d using partsInduction generalizing e with
  | step d ih =>
    have hparts {es : List Datum} (h : List.Forall₂ Alike d.parts es) :
        List.Forall₂ Json.Alike (d.parts.map toJson) (es.map toJson) := by
      rw [List.forall₂_map_left_iff, List.forall₂_map_right_iff]
      exact forall₂_imp_mem h fun p hp q _ hpq => ih p hp hpq
    cases h with
    | null => exact .null
    | bool b => exact .bool b
    | number h => exact .number h
    | string s => exact .string s
    | ref id => exact .object rfl (.cons (.string _) (.cons (.number rfl) .nil))
    | list h =>
      rw [toJson, toJson, itemsToJson_eq, itemsToJson_eq]
      exact .array (hparts h)
    | mapping names h => exact entriesToJson_alike names (hparts h)
    | function name source =>
      exact .object rfl (.cons (.object rfl (.cons (.string _) (.cons (.string _) .nil))) .nil)
    | object className names h =>
      exact .object rfl (.cons (.object rfl
        (.cons (.string _) (.cons (entriesToJson_alike names (hparts h)) .nil))) .nil)

theorem Alike.key_eq {d e : Datum} (h : Alike d e) : d.key = e.key := by
  have htext := Json.compact_eq_iff _ _ |>.2 h.toJson_alike.text_eq
  cases h with
  | function name source => rfl
  | _ => exact htext

theorem Alike.isComposite_eq {d e : Datum} (h : Alike d e) : d.isComposite = e.isComposite := by
  cases h <;> rfl

theorem Alike.parts {d e : Datum} (h : Alike d e) : List.Forall₂ Alike d.parts e.parts := by
  cases h with
  | list h => exact h
  | mapping _ h => exact h
  | object _ _ h => exact h
  | _ => exact .nil

/-- Composite values that are not both callables have the same key only if they are alike. -/
theorem alike_of_key_eq {d e : Datum} (hd : Decoded d) (he : Decoded e)
    (hdc : d.isComposite = true) (hec : e.isComposite = true)
    (hf : d.isFunction = false ∨ e.isFunction = false) (h : d.key = e.key) : Alike d e := by
  have hfunction {d e : Datum} (hf : d.isFunction = true) (hec : e.isComposite = true)
      (he : e.isFunction = false) : d.key ≠ e.key := by
    cases d with
    | function name source => exact function_key_ne hec he name source
    | _ => cases hf
  cases hdf : d.isFunction with
  | true => exact absurd h (hfunction hdf hec (hf.resolve_left (by simp [hdf])))
  | false =>
    cases hef : e.isFunction with
    | true => exact absurd h.symm (hfunction hef hdc hdf)
    | false =>
      rw [key_of_not_function hdf, key_of_not_function hef, Json.compact_eq_iff] at h
      exact alike_of_toJson hd he (Json.alike_of_text_eq h)

/-- Composite values that were read and have one key are both callables, or they are alike. -/
theorem functions_or_alike_of_key_eq {d e : Datum} (hd : Decoded d) (he : Decoded e)
    (hdc : d.isComposite = true) (hec : e.isComposite = true) (h : d.key = e.key) :
    d.isFunction = true ∧ e.isFunction = true ∨ Alike d e := by
  cases hdf : d.isFunction with
  | false => exact .inr (alike_of_key_eq hd he hdc hec (.inl hdf) h)
  | true =>
    cases hef : e.isFunction with
    | false => exact .inr (alike_of_key_eq hd he hdc hec (.inr hef) h)
    | true => exact .inl ⟨rfl, rfl⟩

/-- The parts of composite values that were read and have one key are alike. -/
theorem alike_parts_of_key_eq {d e : Datum} (hd : Decoded d) (he : Decoded e)
    (hdc : d.isComposite = true) (hec : e.isComposite = true) (h : d.key = e.key) :
    List.Forall₂ Alike d.parts e.parts := by
  rcases functions_or_alike_of_key_eq hd he hdc hec h with ⟨hdf, hef⟩ | halike
  · rw [parts_eq_nil_of_function hdf, parts_eq_nil_of_function hef]
    exact .nil
  · exact halike.parts

private theorem length_text_lt_of_mem_parts {p d : Datum} (hd : d.names.Nodup) (h : p ∈ d.parts) :
    p.toJson.text.length < d.toJson.text.length := by
  have hentries {entries : List (String × Datum)} (h : p ∈ entries.map Prod.snd) :
      p.toJson.text.length < (Json.text (.object (entriesToJson entries))).length := by
    obtain ⟨⟨name, q⟩, he, rfl⟩ := List.mem_map.1 h
    rw [entriesToJson_eq]
    exact Json.length_text_lt_object (List.mem_map.2 ⟨(name, q), he, rfl⟩)
  cases d with
  | list items =>
    rw [toJson, itemsToJson_eq]
    exact Json.length_text_lt_array (List.mem_map_of_mem h)
  | mapping entries =>
    rw [toJson_mapping hd]
    exact hentries h
  | object className fields =>
    rw [toJson_object hd]
    calc p.toJson.text.length
        < (Json.text (.object (entriesToJson fields))).length := hentries h
      _ < (Json.text (.object [("class", .string className),
            ("fields", .object (entriesToJson fields))])).length :=
          Json.length_text_lt_object (List.mem_cons_of_mem _ List.mem_cons_self)
      _ < _ := Json.length_text_lt_object List.mem_cons_self
  | _ => cases h

private theorem length_text_le_of_mem_visits {p d : Datum} (hd : Decoded d) (h : p ∈ d.visits) :
    p.toJson.text.length ≤ d.toJson.text.length := by
  induction d using partsInduction with
  | step d ih =>
    rw [visits_eq] at h
    rcases List.mem_cons.1 h with rfl | h
    · exact Nat.le_refl _
    · obtain ⟨c, hc, h⟩ := List.mem_flatMap.1 h
      have hle := ih c hc (hd.of_mem_parts hc) h
      exact Nat.le_of_lt (Nat.lt_of_le_of_lt hle (length_text_lt_of_mem_parts hd.names_nodup hc))

/-- A composite that was read has another key than every composite inside it. Where a name was bound
twice, the key would tell nothing of what the name had first. -/
theorem key_ne_of_mem_parts {p q d : Datum} (hd : Decoded d) (hq : q ∈ d.parts)
    (hp : p ∈ q.visits) (hcomp : p.isComposite = true) : p.key ≠ d.key := by
  have hdf : d.isFunction = false := by
    cases h : d.isFunction
    · rfl
    · rw [parts_eq_nil_of_function h] at hq
      cases hq
  have hdc : d.isComposite = true := isComposite_of_mem_parts hq
  cases hpf : p.isFunction with
  | true =>
    cases p with
    | function name source => exact function_key_ne hdc hdf name source
    | _ => cases hpf
  | false =>
    intro h
    have htext : p.toJson.text = d.toJson.text := by
      rw [← key_toList_of_not_function hpf, ← key_toList_of_not_function hdf, h]
    have hlt := Nat.lt_of_le_of_lt (length_text_le_of_mem_visits (hd.of_mem_parts hq) hp)
      (length_text_lt_of_mem_parts hd.names_nodup hq)
    exact Nat.lt_irrefl _ (htext ▸ hlt)

/-- The kinds of values. -/
inductive Shape
  | atom
  | list
  | mapping
  | function
  | object
deriving DecidableEq

def shape : Datum → Shape
  | .list _ => .list
  | .mapping _ => .mapping
  | .function _ _ => .function
  | .object _ _ => .object
  | _ => .atom

private theorem Alike.shape_eq {d e : Datum} (h : Alike d e) : d.shape = e.shape := by
  cases h <;> rfl

/-- Among composite values that were read and are not both callables, the key tells the value: it is
the same for two values exactly if they are alike, and then they have one shape. -/
theorem key_eq_iff_alike {d e : Datum} (hd : Decoded d) (he : Decoded e)
    (hdc : d.isComposite = true) (hec : e.isComposite = true)
    (hf : d.isFunction = false ∨ e.isFunction = false) :
    (d.key = e.key ↔ Alike d e) ∧ (d.shape ≠ e.shape → d.key ≠ e.key) := by
  have halike : d.key = e.key → Alike d e := alike_of_key_eq hd he hdc hec hf
  refine ⟨⟨halike, Alike.key_eq⟩, fun hshape hkey => ?_⟩
  exact hshape (halike hkey).shape_eq

/-- An instance with a callable inside a list, beside an object that is nearly a reference. -/
def method (source : String) : Datum :=
  .object "P" [("m", .list [.function "f" source, .mapping [("kind", .string "ref")]])]

private theorem decoded_method (source : String) : Decoded (method source) :=
  ⟨.object [("$instance", .object [("class", .string "P"), ("fields", .object [("m", .array
    [.object [("$function", .object [("name", .string "f"), ("source", .string source)])],
      .object [("kind", .string "ref")]])])])], rfl⟩

/-- The whole source of a callable counts inside another value, not only its digest. -/
theorem method_key_eq_iff_alike :
    let body := "x => x * x * x * x * x * x * x * x * x * x * x * x"
    Decoded (method (body ++ "1")) ∧ Decoded (method (body ++ "2")) ∧
      digest (body ++ "1") = digest (body ++ "2") ∧
      ((method (body ++ "1")).key = (method (body ++ "2")).key ↔
        Alike (method (body ++ "1")) (method (body ++ "2"))) ∧
      ((method (body ++ "1")).shape ≠ (method (body ++ "2")).shape →
        (method (body ++ "1")).key ≠ (method (body ++ "2")).key) :=
  ⟨decoded_method _, decoded_method _, by cbv,
    key_eq_iff_alike (decoded_method _) (decoded_method _) rfl rfl (.inl rfl)⟩

end Retrace.Datum

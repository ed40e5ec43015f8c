import Retrace.Heap.Json
import Retrace.Proofs.Datum.Decoded
import Retrace.Proofs.Json.RecordReading

/-! References in JSON, as bindings read them and as cells read them. Each reference of a binding is
one of a cell. A cell takes more for a reference: arrays of tag and number, the index of the variant
for its tag, and members besides the two. All other arrays and objects it refuses. -/
namespace Retrace

/-! ### Tag and number -/

namespace Slot

/-- A tag and the number of a cell, in an array or among the members of an object that has each of
them once. -/
inductive Holds : Json → Json → HeapId → Prop
  | array (tag : Json) (id : HeapId) : Holds (.array [tag, .ofUInt64 id]) tag id
  | object {members : List (String × Json)} {tag : Json} {id : HeapId}
      (hkind : members.filter (·.1 = "kind") = [("kind", tag)])
      (hnumber : members.filter (·.1 = "heap_id") = [("heap_id", .ofUInt64 id)]) :
      Holds (.object members) tag id

private theorem Holds.tag_unique {v tag tag' : Json} {id id' : HeapId} (h : Holds v tag id)
    (h' : Holds v tag' id') : tag = tag' := by
  cases h with
  | array => cases h'; rfl
  | object hkind _ =>
    cases h' with
    | object hkind' _ =>
      cases hkind.symm.trans hkind'
      rfl

/-- The name of the variant that references are, or its index. -/
inductive Tag : Json → Prop
  | name : Tag (.string "ref")
  | index : Tag (.number (.unsigned 0))

private theorem isReferenceTag_iff {tag : Json} : isReferenceTag tag = true ↔ Tag tag := by
  constructor
  · intro h
    unfold isReferenceTag at h
    split at h
    · cases of_decide_eq_true h; exact .name
    · cases of_decide_eq_true h; exact .index
    · cases h
  · rintro (_ | _) <;> rfl

private theorem fst_eq_of_filter {members : List (String × Json)} {name a : String} {v : Json}
    (h : members.filter (·.1 = name) = [(a, v)]) : a = name := by
  have hmem : (a, v) ∈ members.filter (·.1 = name) := h ▸ List.mem_singleton_self _
  simpa using (List.mem_filter.1 hmem).2

private theorem tagged_eq_some_iff {tag w : Json} {id : HeapId} :
    (if isReferenceTag tag then w.toUInt64.toOption else none) = some id ↔
      w = .ofUInt64 id ∧ Tag tag := by
  rw [← isReferenceTag_iff]
  constructor
  · intro h
    split at h
    · next htag =>
      cases hw : w.toUInt64 with
      | error e => rw [hw] at h; cases h
      | ok id' =>
        rw [hw] at h
        cases h
        exact ⟨Json.eq_ofUInt64_of_toUInt64 hw, htag⟩
    · cases h
  · rintro ⟨rfl, htag⟩
    rw [if_pos htag, Json.toUInt64_ofUInt64]
    rfl

/-- A cell reads a reference wherever it finds a tag and a number. -/
theorem reference?_eq_some_iff {v : Json} {id : HeapId} :
    reference? v = some id ↔ ∃ tag, Holds v tag id ∧ Tag tag := by
  constructor
  · intro h
    unfold reference? at h
    split at h
    · obtain ⟨rfl, htag⟩ := tagged_eq_some_iff.1 h
      exact ⟨_, .array _ _, htag⟩
    · split at h
      · next hkind hnumber =>
        cases fst_eq_of_filter hkind
        cases fst_eq_of_filter hnumber
        obtain ⟨rfl, htag⟩ := tagged_eq_some_iff.1 h
        exact ⟨_, .object hkind hnumber, htag⟩
      · cases h
    · cases h
  · rintro ⟨tag, hholds, htag⟩
    cases hholds with
    | array => exact tagged_eq_some_iff.2 ⟨rfl, htag⟩
    | object hkind hnumber =>
      simp only [reference?, hkind, hnumber]
      exact tagged_eq_some_iff.2 ⟨rfl, htag⟩

theorem ofJson_eq_ref_iff {v : Json} {id : HeapId} :
    ofJson v = .ok (.ref id) ↔ reference? v = some id := by
  unfold ofJson
  cases reference? v with
  | some id' => simp [pure, Except.pure]
  | none => cases v <;> simp [Json.fail, pure, Except.pure]

/-- An array or an object is a reference to a cell or nothing. -/
theorem ofJson_eq_fail {v : Json} (hv : v.found = .sequence ∨ v.found = .map)
    (h : reference? v = none) : ofJson v = Json.fail (.noShape "Value") := by
  unfold ofJson
  rw [h]
  cases v with
  | array items => rfl
  | object members => rfl
  | _ => simp [Json.found] at hv

end Slot

namespace Datum

open Slot (Holds)

/-- A reference in a binding has two members only, the name of the tag and a number. -/
theorem referenceId?_eq_some_iff {members : List (String × Json)} {w : Json} :
    referenceId? members = some w ↔
      members.length = 2 ∧ members.filter (·.1 = "kind") = [("kind", .string "ref")] ∧
        members.filter (·.1 = "heap_id") = [("heap_id", w)] := by
  rcases members with _ | ⟨⟨a, x⟩, _ | ⟨⟨b, y⟩, _ | ⟨m, ms⟩⟩⟩
  · simp [referenceId?]
  · simp [referenceId?]
  · constructor
    · intro h
      simp only [referenceId?] at h
      split at h
      · next hleft =>
        obtain ⟨rfl, rfl, hx⟩ := hleft
        cases Json.string?_eq_some_iff.1 hx
        cases h
        exact ⟨rfl, rfl, rfl⟩
      · split at h
        · next hright =>
          obtain ⟨rfl, rfl, hy⟩ := hright
          cases Json.string?_eq_some_iff.1 hy
          cases h
          exact ⟨rfl, rfl, rfl⟩
        · cases h
    · rintro ⟨-, hkind, hnumber⟩
      -- One of the two names is the tag's, and only the number's is left for the other.
      by_cases ha : a = "kind"
      · by_cases hb : b = "heap_id" <;> simp_all [referenceId?, Json.string?]
      · by_cases hb : b = "kind"
        · by_cases ha' : a = "heap_id" <;> simp_all [referenceId?, Json.string?]
        · simp_all
  · simp [referenceId?]

private theorem ofJson_eq_ref_iff_holds {v : Json} {id : HeapId} :
    ofJson v = .ok (.ref id) ↔
      ∃ members, v = .object members ∧ members.length = 2 ∧ Holds v (.string "ref") id := by
  rw [ofJson_eq_ref_iff]
  constructor
  · rintro ⟨members, w, rfl, href, hid⟩
    obtain ⟨hlength, hkind, hnumber⟩ := referenceId?_eq_some_iff.1 href
    cases Json.eq_ofUInt64_of_toUInt64 hid
    exact ⟨members, rfl, hlength, .object hkind hnumber⟩
  · rintro ⟨members, rfl, hlength, hholds⟩
    cases hholds with
    | object hkind hnumber =>
      exact ⟨members, _, rfl, referenceId?_eq_some_iff.2 ⟨hlength, hkind, hnumber⟩,
        Json.toUInt64_ofUInt64 id⟩

end Datum

/-! ### Loose references -/

namespace Slot

/-- What a cell takes for a reference and a binding does not: a tag and a number in an array, an
index for the tag, and members besides the two. -/
inductive Loose : Json → HeapId → Prop
  | array {tag : Json} (htag : Tag tag) (id : HeapId) : Loose (.array [tag, .ofUInt64 id]) id
  | index {members : List (String × Json)} {id : HeapId}
      (h : Holds (.object members) (.number (.unsigned 0)) id) : Loose (.object members) id
  | besides {members : List (String × Json)} {id : HeapId}
      (h : Holds (.object members) (.string "ref") id) (hlength : members.length ≠ 2) :
      Loose (.object members) id

theorem Loose.reference? {v : Json} {id : HeapId} (h : Loose v id) : reference? v = some id := by
  cases h with
  | array htag id => exact reference?_eq_some_iff.2 ⟨_, .array _ _, htag⟩
  | index h => exact reference?_eq_some_iff.2 ⟨_, h, .index⟩
  | besides h _ => exact reference?_eq_some_iff.2 ⟨_, h, .name⟩

private theorem Loose.datum_ne_ref {v : Json} {id : HeapId} (h : Loose v id) (id' : HeapId) :
    Datum.ofJson v ≠ .ok (.ref id') := by
  intro hdatum
  obtain ⟨members, rfl, hlength, hholds⟩ := Datum.ofJson_eq_ref_iff_holds.1 hdatum
  cases h with
  | index h => cases h.tag_unique hholds
  | besides _ hnot => exact hnot hlength

private theorem datum_or_loose_of_reference? {v : Json} {id : HeapId} (h : reference? v = some id) :
    Datum.ofJson v = .ok (.ref id) ∨ Loose v id := by
  obtain ⟨tag, hholds, htag⟩ := reference?_eq_some_iff.1 h
  cases hholds with
  | array => exact .inr (.array htag id)
  | @object members _ _ hkind hnumber =>
    have hholds := Holds.object hkind hnumber
    cases htag with
    | index => exact .inr (.index hholds)
    | name =>
      by_cases hlength : members.length = 2
      · exact .inl (Datum.ofJson_eq_ref_iff_holds.2 ⟨members, rfl, hlength, hholds⟩)
      · exact .inr (.besides hholds hlength)

private theorem reference?_of_datum {v : Json} {id : HeapId} (h : Datum.ofJson v = .ok (.ref id)) :
    reference? v = some id := by
  obtain ⟨members, rfl, -, hholds⟩ := Datum.ofJson_eq_ref_iff_holds.1 h
  exact reference?_eq_some_iff.2 ⟨_, hholds, .name⟩

/-- Cells and bindings read the same references, the loose ones apart: those are data in a binding.
An array or an object that neither takes for a reference has no place in a cell. -/
theorem reference_grammar (v : Json) :
    (∀ id, ofJson v = .ok (.ref id) ↔ Datum.ofJson v = .ok (.ref id) ∨ Loose v id) ∧
      (∀ id, Loose v id → ∀ id', Datum.ofJson v ≠ .ok (.ref id')) ∧
      (v.found = .sequence ∨ v.found = .map → (∀ id, Datum.ofJson v ≠ .ok (.ref id)) →
        (∀ id, ¬ Loose v id) → ofJson v = Json.fail (.noShape "Value")) := by
  refine ⟨fun id => ?_, fun id h => h.datum_ne_ref, fun hv hdatum hloose => ?_⟩
  · rw [ofJson_eq_ref_iff]
    constructor
    · exact datum_or_loose_of_reference?
    · rintro (h | h)
      · exact reference?_of_datum h
      · exact h.reference?
  · refine ofJson_eq_fail hv (Option.eq_none_iff_forall_ne_some.2 fun id h => ?_)
    exact (datum_or_loose_of_reference? h).elim (hdatum id) (hloose id)

/-- A reference with a note beside it is one for a cell, and a mapping for a binding. A tag without
a number is refused. -/
theorem annotated_reference :
    let annotated := Json.object
      [("kind", .string "ref"), ("heap_id", .ofUInt64 3), ("note", .null)]
    let tag := Json.array [.string "ref"]
    (Loose annotated 3 ∧ ofJson annotated = .ok (.ref 3) ∧
      Datum.ofJson annotated ≠ .ok (.ref 3)) ∧
    (tag.found = .sequence ∧ Datum.ofJson tag = .ok (.list [.string "ref"]) ∧
      (∀ id, ¬ Loose tag id) ∧ ofJson tag = Json.fail (.noShape "Value")) := by
  intro annotated tag
  have hloose : Loose annotated 3 := .besides (.object rfl rfl) (by decide)
  have htag : Datum.ofJson tag = .ok (.list [.string "ref"]) := rfl
  have hlist (id : HeapId) : Datum.ofJson tag ≠ .ok (.ref id) := by
    rw [htag]
    exact fun h => nomatch h
  have hrefused (id : HeapId) : ¬ Loose (.array [.string "ref"]) id := by rintro ⟨⟩
  exact ⟨⟨hloose, ((reference_grammar annotated).1 3).2 (.inr hloose),
      (reference_grammar annotated).2.1 3 hloose 3⟩,
    rfl, htag, hrefused, (reference_grammar tag).2.2 (.inl rfl) hlist hrefused⟩

/-- A pair of tag and number is a list for a binding and a reference for a cell. -/
theorem tagged_pair_differs :
    let pair := Json.array [.string "ref", .ofUInt64 1]
    Datum.ofJson pair = .ok (.list [.string "ref", .number (.unsigned 1)]) ∧
      ofJson pair = .ok (.ref 1) ∧
      ¬ ∀ v id, ofJson v = .ok (.ref id) ↔ Datum.ofJson v = .ok (.ref id) := by
  intro pair
  have hdatum : Datum.ofJson pair = .ok (.list [.string "ref", .number (.unsigned 1)]) := rfl
  have hslot : ofJson pair = .ok (.ref 1) := rfl
  refine ⟨hdatum, hslot, fun h => ?_⟩
  have href := (h pair 1).1 hslot
  rw [hdatum] at href
  cases href

end Slot
end Retrace

import Retrace.Datum
import Retrace.Proofs.Json.CompactText

/-! The values inside a recorded value, and the order in which encoding meets them. The key of a
callable is none of another composite. -/
namespace Retrace.Datum

/-- The values directly inside a composite one. -/
def parts : Datum → List Datum
  | .list items => items
  | .mapping entries => entries.map Prod.snd
  | .object _ fields => fields.map Prod.snd
  | _ => []

mutual

/-- A value and all values inside it, each in front of its parts. -/
def visits : Datum → List Datum
  | .list items => .list items :: visitItems items
  | .mapping entries => .mapping entries :: visitEntries entries
  | .object className fields => .object className fields :: visitEntries fields
  | d => [d]

def visitItems : List Datum → List Datum
  | [] => []
  | d :: ds => d.visits ++ visitItems ds

def visitEntries : List (String × Datum) → List Datum
  | [] => []
  | (_, d) :: ds => d.visits ++ visitEntries ds

end

private theorem visitItems_eq (ds : List Datum) : visitItems ds = ds.flatMap visits := by
  induction ds with
  | nil => rfl
  | cons d ds ih => rw [visitItems, ih, List.flatMap_cons]

private theorem visitEntries_eq (entries : List (String × Datum)) :
    visitEntries entries = (entries.map Prod.snd).flatMap visits := by
  induction entries with
  | nil => rfl
  | cons e es ih => rw [visitEntries, ih, List.map_cons, List.flatMap_cons]

theorem visits_eq (d : Datum) : d.visits = d :: d.parts.flatMap visits := by
  cases d <;> simp [visits, parts, visitItems_eq, visitEntries_eq]

theorem mem_visits_self (d : Datum) : d ∈ d.visits := by
  rw [visits_eq]
  exact List.mem_cons_self

theorem mem_visits_of_part {p q d : Datum} (hq : q ∈ d.parts) (hp : p ∈ q.visits) :
    p ∈ d.visits := by
  rw [visits_eq d]
  exact List.mem_cons_of_mem _ (List.mem_flatMap.2 ⟨q, hq, hp⟩)

private theorem sizeOf_lt_of_mem_parts {p d : Datum} (h : p ∈ d.parts) : sizeOf p < sizeOf d := by
  have hentries {entries : List (String × Datum)} (h : p ∈ entries.map Prod.snd) :
      sizeOf p < sizeOf entries := by
    obtain ⟨⟨name, q⟩, he, rfl⟩ := List.mem_map.1 h
    have hlt := List.sizeOf_lt_of_mem he
    simp only [Prod.mk.sizeOf_spec] at hlt
    change sizeOf q < sizeOf entries
    omega
  cases d with
  | list items =>
    have hlt : sizeOf p < sizeOf items := List.sizeOf_lt_of_mem h
    simp only [list.sizeOf_spec]
    omega
  | mapping entries =>
    have := hentries h
    simp only [mapping.sizeOf_spec]
    omega
  | object className fields =>
    have := hentries h
    simp only [object.sizeOf_spec]
    omega
  | _ => cases h

/-- What holds of a value whenever it holds of its parts holds of all values. -/
@[elab_as_elim]
theorem partsInduction {motive : Datum → Prop}
    (step : ∀ d, (∀ p ∈ d.parts, motive p) → motive d) (d : Datum) : motive d :=
  step d fun p _ => partsInduction step p
termination_by sizeOf d
decreasing_by exact sizeOf_lt_of_mem_parts ‹_›

/-- A value inside a part is inside the whole. -/
theorem mem_visits_trans {p q d : Datum} (hp : p ∈ q.visits) (hq : q ∈ d.visits) :
    p ∈ d.visits := by
  induction d using partsInduction with
  | step d ih =>
    rw [visits_eq] at hq
    rcases List.mem_cons.1 hq with rfl | hq
    · exact hp
    · obtain ⟨c, hc, hq⟩ := List.mem_flatMap.1 hq
      exact mem_visits_of_part hc (ih c hc hq)

/-! ### Keys -/

theorem itemsToJson_eq (ds : List Datum) : itemsToJson ds = ds.map toJson := by
  induction ds with
  | nil => rfl
  | cons d ds ih => rw [itemsToJson, ih, List.map_cons]

theorem entriesToJson_eq (entries : List (String × Datum)) :
    entriesToJson entries = entries.map fun e => (e.1, e.2.toJson) := by
  induction entries with
  | nil => rfl
  | cons e es ih => rw [entriesToJson, ih, List.map_cons]

def isFunction : Datum → Bool
  | .function _ _ => true
  | _ => false

theorem key_of_not_function {d : Datum} (h : d.isFunction = false) :
    d.key = d.toJson.compact := by
  cases d <;> first | rfl | cases h

theorem key_toList_of_not_function {d : Datum} (h : d.isFunction = false) :
    d.key.toList = d.toJson.text := by
  rw [key_of_not_function h, Json.compact, Json.text, String.toList_ofList]

private theorem function_key_head (name source : String) :
    (function name source).key.toList.head? = some 'f' := by
  simp [key, String.toList_append]

private theorem composite_key_head {d : Datum} (hc : d.isComposite = true)
    (hf : d.isFunction = false) :
    d.key.toList.head? ≠ some 'f' := by
  rw [key_toList_of_not_function hf]
  cases d with
  | list items =>
    rw [toJson]
    cases itemsToJson items <;> simp [Json.text_array_nil, Json.text_array_cons]
  | mapping entries =>
    rw [toJson]
    rcases upsertAll (entriesToJson entries) [] with _ | ⟨⟨name, v⟩, ms⟩ <;>
      simp [Json.text_object_nil, Json.text_object_cons]
  | object className fields => simp [toJson, Json.text_object_cons]
  | function name source => cases hf
  | _ => cases hc

/-- A callable has no key of a list, a mapping or an instance. -/
theorem function_key_ne {d : Datum} (hc : d.isComposite = true) (hf : d.isFunction = false)
    (name source : String) : (function name source).key ≠ d.key := by
  intro h
  exact composite_key_head hc hf (h ▸ function_key_head name source)

theorem parts_eq_nil_of_function {d : Datum} (h : d.isFunction = true) : d.parts = [] := by
  cases d <;> first | rfl | cases h

theorem parts_eq_nil_of_atom {d : Datum} (h : d.isComposite = false) : d.parts = [] := by
  cases d <;> first | rfl | cases h

theorem isComposite_of_mem_parts {p d : Datum} (h : p ∈ d.parts) : d.isComposite = true := by
  cases d <;> first | rfl | cases h

end Retrace.Datum

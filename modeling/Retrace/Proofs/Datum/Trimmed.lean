import Retrace.Proofs.Memory.Encoding
import Retrace.Proofs.Memory.Numbering

/-! Values whose callables keep only the digests of their sources. Trimming changes nothing of a
value that its own cell shows; only the keys of values around a callable tell the rest of a
source. -/
namespace Retrace.Datum

mutual

/-- Cuts the source of each callable in a value to its digest. -/
def trim : Datum → Datum
  | .list items => .list (trimItems items)
  | .mapping entries => .mapping (trimEntries entries)
  | .function name source => .function name (digest source)
  | .object className fields => .object className (trimEntries fields)
  | d => d

def trimItems : List Datum → List Datum
  | [] => []
  | d :: ds => d.trim :: trimItems ds

def trimEntries : List (String × Datum) → List (String × Datum)
  | [] => []
  | (name, d) :: ds => (name, d.trim) :: trimEntries ds

end

theorem trimItems_eq (ds : List Datum) : trimItems ds = ds.map trim := by
  induction ds with
  | nil => rfl
  | cons d ds ih => rw [trimItems, ih, List.map_cons]

theorem trimEntries_eq (entries : List (String × Datum)) :
    trimEntries entries = entries.map fun e => (e.1, e.2.trim) := by
  induction entries with
  | nil => rfl
  | cons e es ih => rw [trimEntries, ih, List.map_cons]

theorem names_trimEntries (entries : List (String × Datum)) :
    (trimEntries entries).map Prod.fst = entries.map Prod.fst := by
  rw [trimEntries_eq, List.map_map]
  rfl

theorem values_trimEntries (entries : List (String × Datum)) :
    (trimEntries entries).map Prod.snd = (entries.map Prod.snd).map trim := by
  rw [trimEntries_eq, List.map_map, List.map_map]
  rfl

private theorem digest_digest (source : String) : digest (digest source) = digest source := by
  rw [digest, digest, String.toList_ofList, List.take_take, Nat.min_self]

/-- What follows a digest's worth of source does not count. -/
theorem digest_append {source : String} (h : digestLength ≤ source.toList.length)
    (ending : String) : digest (source ++ ending) = digest source := by
  rw [digest, digest, String.toList_append, List.take_append_of_le_length h]

theorem isComposite_trim (d : Datum) : d.trim.isComposite = d.isComposite := by
  cases d <;> rfl

theorem slot_trim (d : Datum) : d.trim.slot = d.slot := by
  cases d <;> rfl

theorem parts_trim (d : Datum) : d.trim.parts = d.parts.map trim := by
  cases d with
  | list items => exact trimItems_eq items
  | mapping entries => exact values_trimEntries entries
  | object className fields => exact values_trimEntries fields
  | _ => rfl

/-- A cell shows nothing of a source but the digest. -/
theorem cell_trim (d : Datum) (slots : List Slot) : d.trim.cell slots = d.cell slots := by
  cases d with
  | mapping entries => rw [trim, cell, cell, names_trimEntries]
  | object className fields => rw [trim, cell, cell, names_trimEntries]
  | function name source => simp only [trim, cell, digest_digest]
  | _ => rfl

private theorem length_keys_trim (d : Datum) : d.trim.keys.length = d.keys.length := by
  induction d using partsInduction with
  | step d ih =>
    cases hcomp : d.isComposite with
    | false => rw [keys_of_atom hcomp, keys_of_atom (isComposite_trim d ▸ hcomp)]
    | true =>
      rw [keys_of_composite hcomp, keys_of_composite (isComposite_trim d ▸ hcomp), parts_trim,
        List.length_cons, List.length_cons, List.flatMap_map, List.length_flatMap,
        List.length_flatMap, List.map_congr_left ih]

/-- Values that are trimmed alike have as many keys. -/
theorem length_keys_eq_of_trim {d e : Datum} (h : d.trim = e.trim) :
    d.keys.length = e.keys.length := by
  rw [← length_keys_trim d, h, length_keys_trim]

theorem length_flatMap_keys_of_trim {ds es : List Datum} (h : ds.map trim = es.map trim) :
    (ds.flatMap keys).length = (es.flatMap keys).length := by
  have hlengths (ds : List Datum) :
      ds.map (fun d => d.keys.length) = (ds.map trim).map fun d => d.keys.length := by
    rw [List.map_map]
    exact List.map_congr_left fun d _ => (length_keys_trim d).symm
  rw [List.length_flatMap, List.length_flatMap, hlengths, h, ← hlengths]

end Retrace.Datum

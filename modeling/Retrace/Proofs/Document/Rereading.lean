import Retrace.Proofs.Document.RoundTrip
import Retrace.Proofs.Heap.Numbers

/-! Documents read again. Each number of a document stands for itself in the text, so that reading
the text gives the document with what its numbers are read as. -/
namespace Retrace

open Json

variable {f : Number → Number}

/-! ### JSON forms -/

namespace Json

private theorem mapItems_map {α : Type} {write : α → Json} {g : α → α}
    (h : ∀ a, write (g a) = (write a).mapNumbers f) (as : List α) :
    mapItems f (as.map write) = (as.map g).map write := by
  rw [mapItems_eq, List.map_map, List.map_map]
  exact List.map_congr_left fun a _ => (h a).symm

private theorem mapItems_eq_self {vs : List Json} (h : ∀ v ∈ vs, v.mapNumbers f = v) :
    mapItems f vs = vs := by
  rw [mapItems_eq, map_eq_self_iff]
  exact h

private theorem mapMembers_map {α : Type} {name : α → String} {write : α → Json} {g : α → α}
    (hname : ∀ a, name (g a) = name a) (h : ∀ a, write (g a) = (write a).mapNumbers f)
    (as : List α) :
    mapMembers f (as.map fun a => (name a, write a)) =
      (as.map g).map fun a => (name a, write a) := by
  rw [mapMembers_eq, List.map_map, List.map_map]
  refine List.map_congr_left fun a _ => ?_
  rw [Function.comp_apply, Function.comp_apply, h, hname]

end Json

private theorem mapMembers_names {α : Type} {κ : Type} [Ord κ] (name : κ → String)
    {write : α → Json} {g : α → α} (h : ∀ a, write (g a) = (write a).mapNumbers f)
    (m : SortedMap κ α) :
    mapMembers f (m.toList.map fun e => (name e.1, write e.2)) =
      (m.map g).toList.map fun e => (name e.1, write e.2) :=
  @mapMembers_map f (κ × α) (fun e => name e.1) (fun e => write e.2) (fun e => (e.1, g e.2))
    (fun _ => rfl) (fun e => h e.2) m.toList

section

variable (hf : ∀ n, f (.unsigned n) = .unsigned n)
include hf

private theorem mapNumbers_ofUInt64 (n : UInt64) : (Json.ofUInt64 n).mapNumbers f = .ofUInt64 n :=
  congrArg Json.number (hf n)

private theorem Slot.toJson_mapNumber (s : Slot) :
    (s.mapNumber f).toJson = s.toJson.mapNumbers f := by
  cases s with
  | ref id =>
    simp only [mapNumber, toJson, referenceJson, mapNumbers, mapMembers, mapNumbers_ofUInt64 hf]
  | _ => rfl

namespace Cell

private theorem entriesJson_mapNumber (entries : Slots) :
    entriesJson (entries.map fun e => (e.1, e.2.mapNumber f)) =
      (entriesJson entries).mapNumbers f := by
  rw [entriesJson, entriesJson, Json.mapNumbers]
  refine congrArg Json.array (mapItems_map (fun e => ?_) entries).symm
  simp only [Json.mapNumbers, mapItems, Slot.toJson_mapNumber hf]

private theorem toJson_mapNumbers (c : Cell) : (c.mapNumbers f).toJson = c.toJson.mapNumbers f := by
  cases c <;>
    simp only [mapNumbers, toJson, Json.mapNumbers, mapMembers, entriesJson_mapNumber hf,
      mapItems_map (Slot.toJson_mapNumber hf)]

end Cell

private theorem Heap.toJson_mapNumbers (heap : Heap) :
    toJson (heap.map (Cell.mapNumbers f)) = (toJson heap).mapNumbers f := by
  rw [toJson, toJson, mapNumbers]
  exact congrArg Json.object (mapMembers_names idName (Cell.toJson_mapNumbers hf) heap).symm

private theorem bindingsJson_mapNumbers (bindings : SortedMap String Slot) :
    bindingsJson (bindings.map (Slot.mapNumber f)) = (bindingsJson bindings).mapNumbers f := by
  rw [bindingsJson, bindingsJson, mapNumbers]
  exact congrArg Json.object (mapMembers_names id (Slot.toJson_mapNumber hf) bindings).symm

private theorem idsJson_mapNumbers (ids : List UInt64) :
    mapItems f (ids.map .ofUInt64) = ids.map .ofUInt64 :=
  mapItems_eq_self (List.forall_mem_map.2 fun n _ => mapNumbers_ofUInt64 hf n)

end

private theorem namesJson_mapNumbers (names : List String) :
    (namesJson names).mapNumbers f = namesJson names := by
  rw [namesJson, mapNumbers, mapItems_eq_self (List.forall_mem_map.2 fun _ _ => rfl)]

/-! ### Parts of documents -/

namespace Frame

def mapNumbers (f : Number → Number) (fr : Frame) : Frame :=
  { fr with locals := fr.locals.map (Slot.mapNumber f) }

private theorem toJson_mapNumbers (hf : ∀ n, f (.unsigned n) = .unsigned n) (fr : Frame) :
    (fr.mapNumbers f).toJson = fr.toJson.mapNumbers f := by
  simp only [mapNumbers, toJson, Json.mapNumbers, mapMembers, mapNumbers_ofUInt64 hf,
    bindingsJson_mapNumbers hf, namesJson_mapNumbers, idsJson_mapNumbers hf]

end Frame

namespace Snapshot

def mapNumbers (f : Number → Number) (s : Snapshot) : Snapshot :=
  { s with
    globals := s.globals.map (Slot.mapNumber f)
    stack := s.stack.map (Frame.mapNumbers f)
    heap := s.heap.map (Cell.mapNumbers f) }

private theorem toJson_mapNumbers (hf : ∀ n, f (.unsigned n) = .unsigned n) (s : Snapshot) :
    (s.mapNumbers f).toJson = s.toJson.mapNumbers f := by
  have hstack := mapItems_map (Frame.toJson_mapNumbers hf) s.stack
  cases hexception : s.exception <;>
    simp only [mapNumbers, toJson, Json.mapNumbers, mapMembers, Json.ofNat, mapNumbers_ofUInt64 hf,
      bindingsJson_mapNumbers hf, namesJson_mapNumbers, Heap.toJson_mapNumbers hf, hstack,
      hexception, Option.map, Option.toList, List.append_nil, List.cons_append, List.nil_append]

end Snapshot

namespace Document

def mapNumbers (f : Number → Number) (d : Document) : Document :=
  { d with steps := d.steps.map (Snapshot.mapNumbers f) }

private theorem toJson_mapNumbers (hf : ∀ n, f (.unsigned n) = .unsigned n) (d : Document) :
    (d.mapNumbers f).toJson = d.toJson.mapNumbers f := by
  have hsteps := mapItems_map (Snapshot.toJson_mapNumbers hf) d.steps
  cases hsource : d.source <;>
    simp only [mapNumbers, toJson, Json.mapNumbers, mapMembers, mapNumbers_ofUInt64 hf, hsteps,
      hsource, Option.map, Option.toList, List.append_nil, List.cons_append, List.nil_append]

end Document

/-! ### What stays the same -/

namespace Slot

private theorem mapNumber_eq_self_iff {s : Slot} :
    s.mapNumber f = s ↔ s.Respects fun n => f n = n := by
  cases s with
  | number n => exact Slot.number.injEq _ _ |>.to_iff
  | _ => exact iff_of_true rfl trivial

end Slot

namespace Cell

private theorem mapNumbers_eq_self_iff {c : Cell} :
    c.mapNumbers f = c ↔ ∀ s ∈ c.slots, s.Respects fun n => f n = n := by
  have hentries (entries : Slots) : entries.map (fun e => (e.1, e.2.mapNumber f)) = entries ↔
      ∀ s ∈ entries.map Prod.snd, s.Respects fun n => f n = n := by
    rw [map_eq_self_iff, List.forall_mem_map]
    refine forall₂_congr fun e _ => ?_
    rw [← Slot.mapNumber_eq_self_iff]
    exact Prod.mk_right_inj
  cases c with
  | list elements =>
    rw [mapNumbers, Cell.list.injEq, map_eq_self_iff]
    exact forall₂_congr fun _ _ => Slot.mapNumber_eq_self_iff
  | mapping entries => rw [mapNumbers, Cell.mapping.injEq, hentries, slots]
  | function name digest => exact iff_of_true rfl (List.forall_mem_nil _)
  | object className fields =>
    rw [mapNumbers, Cell.object.injEq, hentries, slots, and_iff_right rfl]

end Cell

private theorem Frame.mapNumbers_eq_self_iff {fr : Frame} :
    fr.mapNumbers f = fr ↔ ∀ s ∈ fr.locals.values, s.Respects fun n => f n = n := by
  have hlocals : fr.mapNumbers f = fr ↔ fr.locals.map (Slot.mapNumber f) = fr.locals := by
    obtain ⟨_, _, _, locals, _, _, _⟩ := fr
    simp [mapNumbers]
  rw [hlocals, SortedMap.map_eq_self_iff]
  exact forall₂_congr fun _ _ => Slot.mapNumber_eq_self_iff

namespace Snapshot

private theorem mapNumbers_eq_self_iff {s : Snapshot} :
    s.mapNumbers f = s ↔ ∀ slot ∈ s.slots, slot.Respects fun n => f n = n := by
  have hparts : s.mapNumbers f = s ↔ s.globals.map (Slot.mapNumber f) = s.globals ∧
      s.stack.map (Frame.mapNumbers f) = s.stack ∧
      s.heap.map (Cell.mapNumbers f) = s.heap := by
    obtain ⟨_, _, _, globals, _, stack, heap, _, _⟩ := s
    simp [mapNumbers]
  rw [hparts, SortedMap.map_eq_self_iff, map_eq_self_iff, SortedMap.map_eq_self_iff, slots, bindings]
  simp only [Slot.mapNumber_eq_self_iff, Frame.mapNumbers_eq_self_iff, Cell.mapNumbers_eq_self_iff,
    List.forall_mem_append, List.forall_mem_flatMap, and_assoc]

end Snapshot

namespace Document

private theorem mapNumbers_eq_self_iff {d : Document} :
    d.mapNumbers f = d ↔ ∀ s ∈ d.steps, ∀ slot ∈ s.slots, slot.Respects fun n => f n = n := by
  have hsteps : d.mapNumbers f = d ↔ d.steps.map (Snapshot.mapNumbers f) = d.steps := by
    obtain ⟨_, _, _, _, steps⟩ := d
    simp [mapNumbers]
  rw [hsteps, map_eq_self_iff]
  exact forall₂_congr fun _ _ => Snapshot.mapNumbers_eq_self_iff

/-! ### Reading a text again -/

def reread (d : Document) : Document := d.mapNumbers Number.reread

theorem reread_eq_iff {d : Document} : d.reread = d ↔ ∀ x ∈ d.doubles, x.reread = x := by
  rw [reread, mapNumbers_eq_self_iff, respects_iff (fun _ => rfl) fun _ => rfl]
  exact forall₂_congr fun _ _ => Number.double.injEq _ _ |>.to_iff

/-- A document whose doubles are finite is read from the bytes of its text, with what its doubles are
read as. -/
theorem ofBytes_text_reread {d : Document} (h : ∀ x ∈ d.doubles, Double.IsFinite x.units) :
    ofBytes d.text.toUTF8 = .ok d.reread := by
  have hnested : Nested Number.IsFinite Tree.maxDepth d.toJson :=
    nested_toJson (fun _ => trivial) ((respects_iff (fun _ => trivial) (fun _ => trivial) d).2 h) 119
  have hread : ofText d.text.toList = .ok d.reread := by
    rw [ofText, text, readText_pretty_reread rfl hnested, Json.reread,
      ← toJson_mapNumbers fun _ => rfl]
    exact ofTree_printed _
  rw [ofBytes, fromUTF8?_toUTF8]
  exact hread

end Document
end Retrace

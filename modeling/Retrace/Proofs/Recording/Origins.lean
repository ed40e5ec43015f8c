import Retrace.Proofs.Json.Parts
import Retrace.Proofs.Recording.Leniency
import Retrace.Proofs.Replay.Run
import Retrace.Proofs.Scope

/-! Where the values of a recording come from. Each bound value was read from one inside the value of
the recording, and so was each slot of the cells that the recording brings along. -/
namespace Retrace

open Json (Contains)

/-- A value that was read inside another, or `null`, which stands for an unbound local. -/
def Datum.ReadInside (v : Json) (d : Datum) : Prop :=
  d = .null ∨ ∃ w, Contains v w ∧ ofJson w = .ok d

def Slot.ReadInside (v : Json) (s : Slot) : Prop := ∃ w, Contains v w ∧ ofJson w = .ok s

theorem Datum.ReadInside.decoded {v : Json} {d : Datum} (hv : v.Settled) (h : d.ReadInside v) :
    d.Decoded := by
  obtain rfl | ⟨w, hw, hread⟩ := h
  · exact ⟨.null, rfl⟩
  · exact Datum.decoded_of_settled (hv.of_contains hw) hread

theorem Datum.ReadInside.of_contains {v u : Json} {d : Datum} (hu : Contains v u)
    (h : d.ReadInside u) : d.ReadInside v :=
  h.imp_right fun ⟨w, hw, hread⟩ => ⟨w, hu.trans hw, hread⟩

theorem Slot.ReadInside.of_contains {v u : Json} {s : Slot} (hu : Contains v u)
    (h : s.ReadInside u) : s.ReadInside v := by
  obtain ⟨w, hw, hread⟩ := h
  exact ⟨w, hu.trans hw, hread⟩

/-! ### Bindings -/

namespace Scope

theorem readInside_of_ofJson {v : Json} {s : Scope} (h : ofJson v = .ok s) :
    ∀ e ∈ s.entries, e.2.ReadInside v := by
  unfold ofJson at h
  split at h
  · split at h
    · next hentries =>
      cases h
      intro e he
      obtain ⟨w, hw, hread⟩ := exists_of_mem_right (Datum.ofEntries_eq_ok hentries).2
        (List.mem_map_of_mem (mem_ofList he))
      exact .inr ⟨w, .single hw, hread⟩
    · cases h
  · cases h

private theorem readInside_get? {v : Json} {s : Scope} (h : ∀ e ∈ s.entries, e.2.ReadInside v)
    (name : String) : ((s.get? name).getD .null).ReadInside v := by
  cases hd : s.get? name with
  | none => exact .inl rfl
  | some d => exact h _ ((Scope.get?_eq_some_iff s name d).1 hd)

end Scope

theorem Activation.readInside_of_ofJson {v : Json} {a : Activation} (h : ofJson v = .ok a) :
    ∀ e ∈ a.entries, e.2.ReadInside v := by
  obtain ⟨ms, hms, h⟩ := Except.bind_eq_ok h
  obtain ⟨frameId, -, h⟩ := Except.bind_eq_ok h
  obtain ⟨funcName, -, h⟩ := Except.bind_eq_ok h
  obtain ⟨locals, hlocals, h⟩ := Except.bind_eq_ok h
  obtain ⟨order, -, h⟩ := Except.bind_eq_ok h
  obtain ⟨parents, -, h⟩ := Except.bind_eq_ok h
  obtain ⟨identity, -, h⟩ := Except.bind_eq_ok h
  cases h
  intro e he
  obtain ⟨name, -, rfl⟩ := List.mem_map.1 he
  cases locals with
  | none => exact .inl rfl
  | some s =>
    obtain ⟨m, hm, hread⟩ := Json.Field.exists_of_get? hlocals
    have hentries := Scope.readInside_of_ofJson (Json.read_of_optional hread)
    have hinside := Scope.readInside_get? hentries name
    exact hinside.of_contains (.single (Json.mem_parts_of_recordFields hms hm))

/-! ### Cells -/

namespace Cell

private theorem exists_of_entryOfJson {v : Json} {e : String × Slot} (h : entryOfJson v = .ok e) :
    ∃ w ∈ v.parts, Slot.ofJson w = .ok e.2 := by
  unfold entryOfJson at h
  split at h
  · cases h
  · obtain ⟨_, -, h⟩ := Except.bind_eq_ok h
    cases h
  · obtain ⟨name, -, h⟩ := Except.bind_eq_ok h
    obtain ⟨slot, hslot, h⟩ := Except.bind_eq_ok h
    split at h
    · cases h
    · cases h
      exact ⟨_, List.mem_cons_of_mem _ List.mem_cons_self, hslot⟩
  · cases h

private theorem readInside_of_entries {v : Json} {entries : Slots}
    (h : Json.toList entryOfJson v = .ok entries) {s : Slot} (hs : s ∈ entries.map Prod.snd) :
    s.ReadInside v := by
  obtain ⟨e, he, rfl⟩ := List.mem_map.1 hs
  obtain ⟨u, hu, hentry⟩ := Json.exists_of_toList h he
  obtain ⟨w, hw, hslot⟩ := exists_of_entryOfJson hentry
  exact ⟨w, .tail (.single hu) hw, hslot⟩

/-- The slots of a cell were read inside a part of its fields. -/
theorem exists_of_ofFields {content : Json} {shape : Shape} {c : Cell}
    (h : ofFields content shape = .ok c) {s : Slot} (hs : s ∈ c.slots) :
    ∃ v ∈ content.parts, s.ReadInside v := by
  cases shape with
  | list =>
    obtain ⟨fields, hfields, h⟩ := Except.bind_eq_ok h
    obtain ⟨elements, helements, h⟩ := Except.bind_eq_ok h
    cases h
    obtain ⟨m, hm, hread⟩ := Json.Field.exists_of_get helements
    obtain ⟨w, hw, hslot⟩ := Json.exists_of_toList hread hs
    exact ⟨m.2, Json.mem_parts_of_recordFields hfields hm, w, .single hw, hslot⟩
  | mapping =>
    obtain ⟨fields, hfields, h⟩ := Except.bind_eq_ok h
    obtain ⟨entries, hentries, h⟩ := Except.bind_eq_ok h
    cases h
    obtain ⟨m, hm, hread⟩ := Json.Field.exists_of_get hentries
    exact ⟨m.2, Json.mem_parts_of_recordFields hfields hm, readInside_of_entries hread hs⟩
  | function =>
    obtain ⟨fields, -, h⟩ := Except.bind_eq_ok h
    obtain ⟨name, -, h⟩ := Except.bind_eq_ok h
    obtain ⟨digest, -, h⟩ := Except.bind_eq_ok h
    cases h
    cases hs
  | object =>
    obtain ⟨fields, hfields, h⟩ := Except.bind_eq_ok h
    obtain ⟨className, -, h⟩ := Except.bind_eq_ok h
    obtain ⟨entries, hentries, h⟩ := Except.bind_eq_ok h
    cases h
    obtain ⟨m, hm, hread⟩ := Json.Field.exists_of_get hentries
    exact ⟨m.2, Json.mem_parts_of_recordFields hfields hm, readInside_of_entries hread hs⟩

private theorem readInside_of_ofTree {v : Json} {c : Cell} (h : ofTree v.tree = .ok c) {s : Slot}
    (hs : s ∈ c.slots) : s.ReadInside v := by
  obtain ⟨⟨shape, content⟩, htagged, h⟩ := Except.bind_eq_ok h
  obtain ⟨u, hu, hinside⟩ := exists_of_ofFields h hs
  exact hinside.of_contains (.single (Json.Tree.parts_subset_of_tagged htagged hu))

end Cell

theorem Heap.readInside_of_ofJson {v : Json} {heap : Heap} (h : ofJson v = .ok heap) {c : Cell}
    (hc : c ∈ heap.values) {s : Slot} (hs : s ∈ c.slots) : s.ReadInside v := by
  obtain ⟨cells, hcells, h⟩ := Except.bind_eq_ok h
  cases h
  cases v with
  | object members =>
    obtain ⟨cells', hread, h⟩ := Except.bind_eq_ok hcells
    cases h
    obtain ⟨id, hid⟩ := (SortedMap.mem_values_iff _ _).1 hc
    obtain ⟨b, hb, hcell⟩ := Json.exists_of_mapM hread (SortedMap.mem_of_get?_ofList hid)
    rw [Json.memberTrees_eq] at hb
    obtain ⟨m, hm, rfl⟩ := List.mem_map.1 hb
    obtain ⟨_, -, hcell⟩ := Except.bind_eq_ok hcell
    obtain ⟨_, hcell, h⟩ := Except.bind_eq_ok hcell
    cases h
    have hinside := Cell.readInside_of_ofTree hcell hs
    exact hinside.of_contains (.single (List.mem_map_of_mem hm))
  | _ => cases hcells

/-! ### Records -/

/-- A record whose values and supplied cells were read inside a value. -/
structure Record.ReadInside (v : Json) (r : Record) : Prop where
  data : ∀ d ∈ r.data, d.ReadInside v
  supplied : ∀ c ∈ r.supplied.values, ∀ s ∈ c.slots, s.ReadInside v

namespace Record

theorem ReadInside.of_contains {v u : Json} {r : Record} (hu : Contains v u)
    (h : r.ReadInside u) : r.ReadInside v where
  data d hd := (h.data d hd).of_contains hu
  supplied c hc s hs := (h.supplied c hc s hs).of_contains hu

private theorem readInside_of_ofMembers {members : List (String × Json)} {r : Record}
    (h : ofMembers members = .ok r) : r.ReadInside (.object members) := by
  have hsays := (ofMembers_eq_ok_iff.1 h).2
  constructor
  · intro d hd
    rcases List.mem_append.1 hd with hd | hd
    · obtain ⟨e, he, rfl⟩ := List.mem_map.1 hd
      rw [bindings] at he
      cases hglobals : r.globals with
      | none => rw [hglobals] at he; cases he
      | some s =>
        rw [hglobals] at he
        obtain ⟨v, hv, hread⟩ := Json.exists_of_told hsays.globals hglobals
        exact (Scope.readInside_of_ofJson hread e he).of_contains (.single hv)
    · obtain ⟨a, ha, hd⟩ := List.mem_flatMap.1 hd
      obtain ⟨e, he, rfl⟩ := List.mem_map.1 hd
      rw [calls] at ha
      cases hstack : r.stack with
      | none => rw [hstack] at ha; cases ha
      | some calls =>
        rw [hstack] at ha
        obtain ⟨v, hv, hread⟩ := Json.exists_of_told hsays.stack hstack
        obtain ⟨u, hu, hcall⟩ := Json.exists_of_toList hread ha
        exact (Activation.readInside_of_ofJson hcall e he).of_contains (.tail (.single hv) hu)
  · intro c hc s hs
    rw [supplied] at hc
    cases hheap : r.heap with
    | none => rw [hheap] at hc; cases hc
    | some cells =>
      rw [hheap] at hc
      obtain ⟨v, hv, hread⟩ := Json.exists_of_told hsays.heap hheap
      exact (Heap.readInside_of_ofJson hread hc hs).of_contains (.single hv)

end Record

namespace Recording

private theorem contains_of_stepList {v : Json} {steps : List Json} (h : stepList v = .ok steps) :
    ∀ w ∈ steps, Contains v w := by
  unfold stepList at h
  split at h
  · cases h
    exact fun w hw => .single hw
  · next members =>
    split at h
    · next hsome =>
      cases h
      obtain ⟨name, -, hname⟩ := List.exists_of_findSome?_eq_some hsome
      obtain ⟨u, hu, harray⟩ := Option.bind_eq_some_iff.1 hname
      have hpart : u ∈ (Json.object members).parts := List.mem_map_of_mem (mem_of_lookup hu)
      cases u with
      | array items => cases harray; exact fun w hw => .tail (.single hpart) hw
      | _ => cases harray
    · cases h
  · cases h

private theorem readInside_of_readSteps {v : Json} {index : Nat} {vs : List Json}
    {records : List Record} (h : readSteps index vs = .ok records) (hvs : ∀ w ∈ vs, Contains v w) :
    ∀ r ∈ records, r.ReadInside v := by
  induction vs generalizing index records with
  | nil =>
    cases h
    exact List.forall_mem_nil _
  | cons w ws ih =>
    rw [List.forall_mem_cons] at hvs
    obtain ⟨r, rest, hr, hrest, rfl⟩ := readSteps_cons_eq_ok_iff.1 h
    refine List.forall_mem_cons.2 ⟨?_, ih hrest hvs.2⟩
    cases w with
    | object members =>
      have hread := (readStep_object_eq_ok_iff index members r).1 hr
      exact (Record.readInside_of_ofMembers hread).of_contains hvs.1
    | _ => cases hr

/-- All that a recording binds or brings along was read inside its value. -/
theorem readInside_of_ofJson {v : Json} {recording : Recording} (h : ofJson v = .ok recording) :
    ∀ r ∈ recording.records, r.ReadInside v := by
  obtain ⟨steps, hsteps, h⟩ := Except.bind_eq_ok h
  obtain ⟨records, hrecords, h⟩ := Except.bind_eq_ok h
  cases h
  exact readInside_of_readSteps hrecords (contains_of_stepList hsteps)

/-- All that a recording binds was read, and so was all inside it. -/
theorem decoded_of_ofJson {v : Json} {recording : Recording}
    (h : ofJson v.settle = .ok recording) : ∀ d ∈ values recording.records, d.Decoded := by
  rintro p ⟨r, hr, d, hd, hp⟩
  have hdecoded := ((readInside_of_ofJson h r hr).data d hd).decoded v.settled_settle
  exact hdecoded.of_mem_visits hp

end Recording
end Retrace

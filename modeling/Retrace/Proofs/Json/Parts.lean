import Mathlib.Logic.Relation
import Retrace.Proofs.Json.OptionalFields

/-! The values inside a value. What a reader gives was read from a part of its own value, whether that
is a list, a record or one variant of a union. -/
namespace Retrace.Json

def parts : Json → List Json
  | .array items => items
  | .object members => members.map Prod.snd
  | _ => []

/-- The second value is the first or stands inside it. -/
def Contains : Json → Json → Prop := Relation.ReflTransGen fun v w => w ∈ v.parts

theorem Settled.of_mem_parts {v w : Json} (h : v.Settled) (hw : w ∈ v.parts) : w.Settled := by
  cases v with
  | array items => exact h.of_item hw
  | object members => exact h.of_value hw
  | _ => cases hw

theorem Settled.of_contains {v w : Json} (h : v.Settled) (hw : Contains v w) : w.Settled := by
  induction hw with
  | refl => exact h
  | tail _ hpart ih => exact ih.of_mem_parts hpart

/-! ### Fields and items -/

theorem read_of_optional {read : Json → Read α} {v : Json} {a : α}
    (h : optional read v = .ok (some a)) : read v = .ok a := by
  unfold optional at h
  split at h
  · cases h
  · cases hread : read v with
    | error e => rw [hread] at h; cases h
    | ok b => rw [hread] at h; cases h; rfl

section

variable {β : Type} {members : List (String × β)} {name : String}

theorem Field.exists_of_get {read : β → Read α} {a : α} (h : Field.get read name members = .ok a) :
    ∃ m ∈ members, read m.2 = .ok a := by
  unfold Field.get at h
  split at h
  · next hlookup => exact ⟨_, mem_of_lookup hlookup, h⟩
  · cases h

theorem Field.exists_of_get? {read : β → Read (Option α)} {a : α}
    (h : Field.get? read name members = .ok (some a)) : ∃ m ∈ members, read m.2 = .ok (some a) := by
  unfold Field.get? at h
  split at h
  · next hlookup => exact ⟨_, mem_of_lookup hlookup, h⟩
  · cases h

end

theorem exists_of_mapM {read : β → Except ε α} {bs : List β} {as : List α}
    (h : bs.mapM read = .ok as) {a : α} (ha : a ∈ as) : ∃ b ∈ bs, read b = .ok a := by
  induction bs generalizing as with
  | nil => cases h; cases ha
  | cons b bs ih =>
    rw [List.mapM_cons] at h
    obtain ⟨first, hfirst, h⟩ := Except.bind_eq_ok h
    obtain ⟨rest, hrest, h⟩ := Except.bind_eq_ok h
    cases h
    rcases List.mem_cons.1 ha with rfl | ha
    · exact ⟨b, List.mem_cons_self, hfirst⟩
    · obtain ⟨c, hc, hread⟩ := ih hrest ha
      exact ⟨c, List.mem_cons_of_mem _ hc, hread⟩

/-- Each item of a list was read from a part. -/
theorem exists_of_toList {read : Json → Read α} {v : Json} {as : List α}
    (h : toList read v = .ok as) {a : α} (ha : a ∈ as) : ∃ w ∈ v.parts, read w = .ok a := by
  cases v with
  | array items => exact exists_of_mapM h ha
  | _ => cases h

/-! ### Records -/

variable {fields : List (Field Json)} {known : List (String × Json)}

private theorem knownMembers_subset {seen : List String} {members : List (String × Json)}
    (h : knownMembers fields seen members = .ok known) : known ⊆ members := by
  obtain ⟨rfl, -⟩ := knownMembers_eq_ok_iff.1 h
  exact List.filter_subset_self members

private theorem mem_of_itemFields {title : String} {count i : Nat} {items : List Json}
    (h : itemFields title count i fields items = .ok known) {m : String × Json} (hm : m ∈ known) :
    m.2 ∈ items := by
  induction fields generalizing i items known with
  | nil => cases h; cases hm
  | cons f fields ih =>
    cases items with
    | nil =>
      rw [itemFields] at h
      split at h
      · cases h
      · exact ih h hm
    | cons v vs =>
      obtain ⟨-, -, h⟩ := Except.bind_eq_ok h
      obtain ⟨rest, hrest, h⟩ := Except.bind_eq_ok h
      cases h
      rcases List.mem_cons.1 hm with rfl | hm
      · exact List.mem_cons_self
      · exact List.mem_cons_of_mem _ (ih hrest hm)

/-- The fields of a record are parts of its value. -/
theorem mem_parts_of_recordFields {title excess : String} {v : Json}
    (h : recordFields title excess fields v = .ok known) {m : String × Json} (hm : m ∈ known) :
    m.2 ∈ v.parts := by
  cases v with
  | array items =>
    obtain ⟨members, hmembers, h⟩ := Except.bind_eq_ok h
    split at h
    · cases h
    · cases h
      exact mem_of_itemFields hmembers hm
  | object members =>
    obtain ⟨members', hmembers, h⟩ := Except.bind_eq_ok h
    split at h
    · cases h
    · cases h
      exact List.mem_map_of_mem (knownMembers_subset hmembers hm)
  | _ => cases h

/-- What an object tells of a field that holds something is a part of it. -/
theorem exists_of_told {read : Json → Read α} {members : List (String × Json)} {name : String}
    {o : Option α} (h : optional read (told members name) = .ok o) {a : α} (ha : o = some a) :
    ∃ v ∈ (Json.object members).parts, read v = .ok a := by
  subst ha
  rw [told] at h
  cases hlookup : members.lookup name with
  | none => rw [hlookup] at h; cases h
  | some v =>
    rw [hlookup] at h
    exact ⟨v, List.mem_map_of_mem (mem_of_lookup hlookup), read_of_optional h⟩

/-! ### Unions -/

namespace Tree

variable {α : Type} {tag : String} {variants : List (String × α)}

private theorem taggedMembers_subset {seen seen' : Option α} {ms members : List (String × Json)}
    (h : taggedMembers tag variants seen (memberTrees ms) = .ok (seen', members)) :
    members ⊆ ms := by
  induction ms generalizing seen members with
  | nil => cases h; exact List.nil_subset _
  | cons m ms ih =>
    obtain ⟨name, v⟩ := m
    rw [memberTrees, taggedMembers] at h
    obtain ⟨_, hname, h⟩ := Except.bind_eq_ok h
    cases hname
    split at h
    · -- the tag is left out
      split at h
      · cases h
      · obtain ⟨a, -, h⟩ := Except.bind_eq_ok h
        exact List.subset_cons_of_subset _ (ih h)
    · obtain ⟨_, hv, h⟩ := Except.bind_eq_ok h
      obtain ⟨⟨_, rest⟩, hrest, h⟩ := Except.bind_eq_ok h
      rw [toJson_tree] at hv
      cases hv
      cases h
      exact List.cons_subset_cons _ (ih hrest)

/-- The fields of a variant are parts of the whole union. -/
theorem parts_subset_of_tagged {union : String} {v content : Json} {a : α}
    (h : tagged union tag variants v.tree = .ok (a, content)) : content.parts ⊆ v.parts := by
  cases v with
  | array items =>
    cases items with
    | nil => cases h
    | cons item items =>
      obtain ⟨_, -, h⟩ := Except.bind_eq_ok h
      rw [itemsToJson_itemTrees] at h
      cases h
      exact List.subset_cons_self item items
  | object members =>
    obtain ⟨⟨seen, rest⟩, hrest, h⟩ := Except.bind_eq_ok h
    cases seen with
    | none => cases h
    | some b => cases h; exact List.map_subset _ (taggedMembers_subset hrest)
  | _ => cases h

end Tree
end Retrace.Json

import Retrace.Json.Record
import Retrace.Proofs.Json.PrintedTree

/-! Reading records and unions from values and from what was printed. An object whose members are
the fields of a record, in their order, is read as that record, and members that are no fields make
no difference; an object with a tag in front is read as the variant that the tag names. -/
namespace Retrace.Json

/-- Members that fill the fields of a record in their order. One that is not required may be left
out. -/
inductive Fills {β : Type} : List (String × β) → List (Field β) → Prop
  | nil : Fills [] []
  | cons {f : Field β} {b : β} {members : List (String × β)} {fields : List (Field β)}
      (hcheck : f.check b = .ok ()) (rest : Fills members fields) :
      Fills ((f.name, b) :: members) (f :: fields)
  | skip {f : Field β} {members : List (String × β)} {fields : List (Field β)}
      (hoptional : f.required = false) (rest : Fills members fields) : Fills members (f :: fields)

namespace Fills

variable {β : Type} {α : Type} {members : List (String × β)} {fields : List (Field β)}

theorem always {name : String} {read : β → Read α} {b : β} {a : α} (h : read b = .ok a)
    (rest : Fills members fields) : Fills ((name, b) :: members) (.always name read :: fields) :=
  .cons (f := .always name read) (congrArg discard h) rest

theorem sometimes {name : String} {read : β → Read α} {b : β} {a : α} (h : read b = .ok a)
    (rest : Fills members fields) :
    Fills ((name, b) :: members) (.sometimes name read :: fields) :=
  .cons (f := .sometimes name read) (congrArg discard h) rest

/-- No required field is missing. -/
theorem missing?_eq_none (h : Fills members fields) : Field.missing? fields members = none := by
  rw [Field.missing?, Option.map_eq_none_iff, List.find?_eq_none]
  induction h with
  | nil => exact List.forall_mem_nil _
  | @cons f b members fields _ _ ih =>
    refine List.forall_mem_cons.2 ⟨by simp, fun g hg => ?_⟩
    have := ih g hg
    rw [List.lookup_cons]
    split <;> simp_all
  | skip hoptional _ ih => exact List.forall_mem_cons.2 ⟨by simp [hoptional], ih⟩

end Fills

theorem find?_of_mem_fields {β : Type} {fields : List (Field β)}
    (hnames : (fields.map Field.name).Nodup) {f : Field β} (hf : f ∈ fields) :
    fields.find? (·.name = f.name) = some f := by
  induction fields with
  | nil => cases hf
  | cons g fields ih =>
    rw [List.map_cons, List.nodup_cons] at hnames
    rcases List.mem_cons.1 hf with rfl | hf
    · simp
    · have hne : g.name ≠ f.name := fun heq => hnames.1 (heq ▸ List.mem_map_of_mem hf)
      rw [List.find?_cons_of_neg (by simpa using hne)]
      exact ih hnames.2 hf

private theorem not_seen {β : Type} {f : Field β} {filled : List (Field β)} {seen : List String}
    (hnames : ((f :: filled).map Field.name).Nodup) (h : ∀ g ∈ f :: filled, g.name ∉ seen) :
    ∀ g ∈ filled, g.name ∉ f.name :: seen := by
  intro g hg hmem
  rcases List.mem_cons.1 hmem with heq | hmem
  · exact (List.nodup_cons.1 hnames).1 (heq ▸ List.mem_map_of_mem hg)
  · exact h g (List.mem_cons_of_mem _ hg) hmem

/-- The members that fill fields are known, and none comes twice. -/
theorem knownMembers_of_fills {fields : List (Field Json)} (hnames : (fields.map Field.name).Nodup)
    {members : List (String × Json)} {filled : List (Field Json)} (h : Fills members filled)
    (hsub : filled.Sublist fields) {seen : List String} (hseen : ∀ f ∈ filled, f.name ∉ seen) :
    knownMembers fields seen members = .ok members := by
  induction h generalizing seen with
  | nil => rfl
  | @cons f b members filled hcheck _ ih =>
    have hf : f ∈ fields := hsub.subset List.mem_cons_self
    have hnot : seen.contains f.name = false := by simpa using hseen f List.mem_cons_self
    have hrest := ih (List.sublist_of_cons_sublist hsub)
      (not_seen (hnames.sublist (hsub.map _)) hseen)
    simp only [knownMembers, find?_of_mem_fields hnames hf, hcheck, hrest, hnot]
    rfl
  | skip _ _ ih =>
    exact ih (List.sublist_of_cons_sublist hsub) fun g hg => hseen g (List.mem_cons_of_mem _ hg)

theorem recordFields_object (title excess : String) {fields : List (Field Json)}
    {members known : List (String × Json)} (hknown : knownMembers fields [] members = .ok known)
    (hmissing : Field.missing? fields known = none) :
    recordFields title excess fields (.object members) = .ok known := by
  simp only [recordFields, hknown, bind, Except.bind, hmissing]
  rfl

theorem recordFields_of_fills (title excess : String) {fields : List (Field Json)}
    (hnames : (fields.map Field.name).Nodup) {members : List (String × Json)}
    (h : Fills members fields) :
    recordFields title excess fields (.object members) = .ok members := by
  have hknown := knownMembers_of_fills hnames h (List.Sublist.refl _) fun _ _ => List.not_mem_nil
  exact recordFields_object title excess hknown h.missing?_eq_none

/-- Members that are no fields are passed over. -/
theorem knownMembers_filter (fields : List (Field Json)) (seen : List String)
    (members : List (String × Json)) :
    knownMembers fields seen (members.filter fun m => (fields.find? (·.name = m.1)).isSome) =
      knownMembers fields seen members := by
  induction members generalizing seen with
  | nil => rfl
  | cons m members ih =>
    obtain ⟨name, v⟩ := m
    rw [List.filter_cons]
    cases hf : fields.find? (·.name = name) with
    | none => simp only [knownMembers, hf, Option.isSome_none, Bool.false_eq_true, if_false, ih]
    | some f => simp only [knownMembers, hf, Option.isSome_some, if_true, ih]

/-- A record is read from its own fields, among whatever other members. -/
theorem recordFields_of_fills_known (title excess : String) {fields : List (Field Json)}
    (hnames : (fields.map Field.name).Nodup) {members : List (String × Json)}
    (h : Fills (members.filter fun m => (fields.find? (·.name = m.1)).isSome) fields) :
    recordFields title excess fields (.object members) =
      .ok (members.filter fun m => (fields.find? (·.name = m.1)).isSome) := by
  have hknown := knownMembers_of_fills hnames h (List.Sublist.refl _) fun _ _ => List.not_mem_nil
  rw [knownMembers_filter] at hknown
  exact recordFields_object title excess hknown h.missing?_eq_none

namespace Tree

def named (members : List (String × Json)) : List (String × Tree) :=
  members.map fun m => (m.1, m.2.printed)

theorem knownMembers_of_fills {fields : List (Field Tree)} (hnames : (fields.map Field.name).Nodup)
    {members : List (String × Json)} {filled : List (Field Tree)} (h : Fills (named members) filled)
    (hsub : filled.Sublist fields) {seen : List String} (hseen : ∀ f ∈ filled, f.name ∉ seen) :
    Tree.knownMembers fields seen (printedMembers members) = .ok (named members) := by
  generalize hms : named members = ms at h ⊢
  induction h generalizing members seen with
  | nil =>
    cases List.map_eq_nil_iff.1 hms
    rfl
  | @cons f b ms filled hcheck _ ih =>
    obtain ⟨⟨name, v⟩, rest, rfl, heq, hrest⟩ := List.map_eq_cons_iff.1 hms
    cases heq
    have hf : f ∈ fields := hsub.subset List.mem_cons_self
    have hnot : seen.contains f.name = false := by simpa using hseen f List.mem_cons_self
    have hrest := ih (List.sublist_of_cons_sublist hsub)
      (not_seen (hnames.sublist (hsub.map _)) hseen) hrest
    have hname : keyName (.printed f.name) = .ok f.name := rfl
    simp only [printedMembers, Tree.knownMembers, hname, bind, Except.bind,
      find?_of_mem_fields hnames hf, hcheck, hrest, hnot]
    rfl
  | skip _ _ ih =>
    exact ih (List.sublist_of_cons_sublist hsub)
      (fun g hg => hseen g (List.mem_cons_of_mem _ hg)) hms

theorem recordFields_of_fills (title : String) {fields : List (Field Tree)}
    (hnames : (fields.map Field.name).Nodup) {members : List (String × Json)}
    (h : Fills (named members) fields) :
    recordFields title fields (Json.object members).printed = .ok (named members) := by
  have hknown := knownMembers_of_fills hnames h (List.Sublist.refl _) fun _ _ => List.not_mem_nil
  simp only [printed, recordFields, hknown, bind, Except.bind, h.missing?_eq_none]
  rfl

end Tree

theorem Field.get_of_lookup {β α : Type} {members : List (String × β)} {name : String} {b : β}
    (h : members.lookup name = some b) {read : β → Read α} {a : α} (hread : read b = .ok a) :
    Field.get read name members = .ok a := by
  rw [Field.get, h]
  exact hread

theorem Field.get?_of_lookup {β α : Type} {members : List (String × β)} {name : String} {b : β}
    (h : members.lookup name = some b) {read : β → Read (Option α)} {a : Option α}
    (hread : read b = .ok a) : Field.get? read name members = .ok a := by
  rw [Field.get?, h]
  exact hread

/-! ### Scalars -/

theorem toUInt64_ofUInt64 (n : UInt64) : (ofUInt64 n).toUInt64 = .ok n := by
  have hread : (Found.number (.unsigned n)).toNat "u64" UInt64.size = .ok n.toNat :=
    if_pos n.toNat_lt
  change (Found.number (.unsigned n)).toUInt64 = .ok n
  rw [Found.toUInt64, hread]
  exact congrArg Except.ok UInt64.ofNat_toNat

theorem eq_ofUInt64_of_toUInt64 {v : Json} {n : UInt64} (h : v.toUInt64 = .ok n) :
    v = ofUInt64 n := by
  cases v with
  | number m =>
    cases m with
    | unsigned k =>
      cases (toUInt64_ofUInt64 k).symm.trans h
      rfl
    | _ => cases h
  | _ => cases h

theorem toUInt32_ofNat (n : UInt32) : (ofNat n.toNat).toUInt32 = .ok n := by
  have hnat : n.toNat.toUInt64.toNat = n.toNat :=
    Nat.mod_eq_of_lt (Nat.lt_trans n.toNat_lt (by decide))
  have hread : (Found.number (.unsigned n.toNat.toUInt64)).toNat "u32" UInt32.size =
      .ok n.toNat := by
    rw [Found.toNat, hnat]
    exact if_pos n.toNat_lt
  change (Found.number (.unsigned n.toNat.toUInt64)).toUInt32 = .ok n
  rw [Found.toUInt32, hread]
  exact congrArg Except.ok UInt32.ofNat_toNat

namespace Tree

theorem toUInt64_printed (n : UInt64) : (ofUInt64 n).printed.toUInt64 = .ok n :=
  toUInt64_ofUInt64 n

theorem toSize_printed (n : UInt64) : (ofUInt64 n).printed.toSize = .ok n := by
  have hread : (Found.number (.unsigned n)).toNat "usize" UInt64.size = .ok n.toNat :=
    if_pos n.toNat_lt
  change (Found.number (.unsigned n)).toSize = .ok n
  rw [Found.toSize, hread]
  exact congrArg Except.ok UInt64.ofNat_toNat

theorem toUInt32_printed (n : UInt32) : (ofNat n.toNat).printed.toUInt32 = .ok n :=
  toUInt32_ofNat n

theorem toText_printed (s : String) : (Json.string s).printed.toText = .ok s := rfl

theorem toBool_printed (b : Bool) : (Json.bool b).printed.toBool = .ok b := rfl

theorem optional_toText_printed (s : String) :
    (Json.string s).printed.optional toText = .ok (some s) := rfl

end Tree

/-! ### Unions -/

theorem variant_of_lookup {α : Type} {variants : List (String × α)} {name : String} {a : α}
    (h : variants.lookup name = some a) : variant variants name = .ok a := by
  rw [variant, h]
  rfl

namespace Tree

variable {α : Type} {variants : List (String × α)} {tag : String}

/-- What stands in a tree is what its value is. -/
theorem found_of_toJson {t : Tree} {v : Json} (h : t.toJson = .ok v) :
    Tree.found t = .ok v.found := by
  cases t with
  | array items closing =>
    rw [toJson] at h
    cases hitems : itemsToJson items with
    | error fault => rw [hitems] at h; cases h
    | ok items' => rw [hitems] at h; cases closing <;> cases h; rfl
  | object ms closing =>
    rw [toJson] at h
    cases hms : membersToJson ms with
    | error fault => rw [hms] at h; cases h
    | ok members => rw [hms] at h; cases closing <;> cases h; rfl
  | flawed start flaw => rw [toJson] at h; cases h
  | _ => rw [toJson] at h; cases h; rfl

/-- A tree that has an object is that of its members. -/
theorem exists_members_of_toJson {t : Tree} {members : List (String × Json)}
    (h : t.toJson = .ok (.object members)) :
    ∃ ms, t = .object ms .closed ∧ membersToJson ms = .ok members := by
  cases t with
  | object ms closing =>
    rw [toJson] at h
    cases hms : membersToJson ms with
    | error fault => rw [hms] at h; cases h
    | ok members' =>
      rw [hms] at h
      cases closing with
      | closed => cases h; exact ⟨ms, rfl, hms⟩
      | cut => cases h
  | array items closing =>
    rw [toJson] at h
    cases hitems : itemsToJson items with
    | error fault => rw [hitems] at h; cases h
    | ok items' => rw [hitems] at h; cases closing <;> cases h
  | _ => rw [toJson] at h; cases h

private theorem membersToJson_cons_eq_ok {key : Key} {t : Tree} {ms : List (Key × Tree)}
    {members : List (String × Json)} (h : membersToJson ((key, t) :: ms) = .ok members) :
    ∃ name v rest, members = (name, v) :: rest ∧ keyName key = .ok name ∧ t.toJson = .ok v ∧
      membersToJson ms = .ok rest := by
  rw [membersToJson] at h
  cases hname : key.name.mapError Flaw.fault with
  | error fault => rw [hname] at h; cases h
  | ok name =>
    cases ht : t.toJson with
    | error fault => rw [hname, ht] at h; cases h
    | ok v =>
      cases hms : membersToJson ms with
      | error fault => rw [hname, ht, hms] at h; cases h
      | ok rest =>
        rw [hname, ht, hms] at h
        cases h
        exact ⟨name, v, rest, rfl, congrArg Read.ofText hname, rfl, rfl⟩

private theorem taggedMembers_of_toJson {ms : List (Key × Tree)} {members : List (String × Json)}
    (hms : membersToJson ms = .ok members) (h : ∀ m ∈ members, m.1 ≠ tag) (seen : Option α) :
    taggedMembers tag variants seen ms = .ok (seen, members) := by
  induction ms generalizing members with
  | nil => cases hms; rfl
  | cons m ms ih =>
    obtain ⟨name, v, rest, rfl, hname, ht, hrest⟩ := membersToJson_cons_eq_ok hms
    rw [List.forall_mem_cons] at h
    simp only [taggedMembers, hname, bind, Except.bind, h.1, if_false, ht, ih hrest h.2]
    rfl

/-- A tree that has a union is read as the variant of its tag with the other members. -/
theorem tagged_of_toJson (union : String) {name : String} {a : α}
    (hname : variants.lookup name = some a) {members : List (String × Json)}
    (h : ∀ m ∈ members, m.1 ≠ tag) {t : Tree}
    (ht : t.toJson = .ok (.object ((tag, .string name) :: members))) :
    tagged union tag variants t = .ok (a, .object members) := by
  obtain ⟨ms, rfl, hms⟩ := exists_members_of_toJson ht
  cases ms with
  | nil => cases hms
  | cons m ms =>
    obtain ⟨key, first⟩ := m
    obtain ⟨_, _, _, heq, hkey, hfirst, hrest⟩ := membersToJson_cons_eq_ok hms
    cases heq
    have hvariant : tagVariant variants first = .ok a := by
      rw [tagVariant, found_of_toJson hfirst]
      exact variant_of_lookup hname
    have hmembers : taggedMembers tag variants none ((key, first) :: ms) =
        .ok (some a, members) := by
      simp only [taggedMembers, hkey, bind, Except.bind, if_true, hvariant,
        taggedMembers_of_toJson hrest h]
      rfl
    rw [tagged, hmembers]
    rfl

end Tree

/-! ### Lists and maps -/

theorem mapM_map_eq_map {α β γ ε : Type} {read : β → Except ε γ} {write : α → β} {view : α → γ}
    {as : List α} (h : ∀ a ∈ as, read (write a) = .ok (view a)) :
    (as.map write).mapM read = .ok (as.map view) := by
  induction as with
  | nil => rfl
  | cons a as ih =>
    rw [List.forall_mem_cons] at h
    rw [List.map_cons, List.mapM_cons, h.1, ih h.2]
    rfl

private theorem mapM_map_of_forall {α β ε : Type} {read : β → Except ε α} {write : α → β}
    {as : List α} (h : ∀ a ∈ as, read (write a) = .ok a) : (as.map write).mapM read = .ok as := by
  have hview : (as.map write).mapM read = .ok (as.map id) := mapM_map_eq_map h
  rw [hview, List.map_id]

theorem toList_map {α : Type} {read : Json → Read α} {write : α → Json} {as : List α}
    (h : ∀ a ∈ as, read (write a) = .ok a) : toList read (.array (as.map write)) = .ok as :=
  mapM_map_of_forall h

namespace Tree

variable {α : Type}

theorem toList_printed {read : Tree → Read α} {write : α → Json} {as : List α}
    (h : ∀ a ∈ as, read (write a).printed = .ok a) :
    toList read (Json.array (as.map write)).printed = .ok as := by
  have hitems : (printedItems (as.map write)).mapM read = .ok as := by
    rw [printedItems_eq, List.map_map]
    exact mapM_map_of_forall h
  rw [printed, toList, hitems]
  rfl

theorem toMembers_object {read : Key → Tree → Read α} {key : α → Key} {tree : α → Tree}
    {as : List α} (h : ∀ a ∈ as, read (key a) (tree a) = .ok a) :
    toMembers read (.object (as.map fun a => (key a, tree a)) .closed) = .ok as := by
  have hmembers : (as.map fun a => (key a, tree a)).mapM (fun m => read m.1 m.2) = .ok as :=
    mapM_map_of_forall h
  rw [toMembers, hmembers]
  rfl

theorem toMembers_printed {read : Key → Tree → Read α} {name : α → String} {write : α → Json}
    {as : List α} (h : ∀ a ∈ as, read (.printed (name a)) (write a).printed = .ok a) :
    toMembers read (Json.object (as.map fun a => (name a, write a))).printed = .ok as := by
  rw [printed, printedMembers_eq, List.map_map]
  exact toMembers_object h

end Tree

/-! ### Trees of values -/

mutual

/-- The tree of a value has this value. -/
theorem toJson_tree : ∀ v : Json, v.tree.toJson = .ok v
  | .null | .bool _ | .number _ | .string _ => by rw [tree, Tree.toJson]
  | .array items => by
    rw [tree, Tree.toJson, itemsToJson_itemTrees items]
    rfl
  | .object members => by
    rw [tree, Tree.toJson, membersToJson_memberTrees members]
    rfl

theorem itemsToJson_itemTrees : ∀ vs : List Json, Tree.itemsToJson (itemTrees vs) = .ok vs
  | [] => rfl
  | v :: vs => by
    rw [itemTrees, Tree.itemsToJson, toJson_tree v, itemsToJson_itemTrees vs]
    rfl

private theorem membersToJson_memberTrees :
    ∀ ms : List (String × Json), Tree.membersToJson (memberTrees ms) = .ok ms
  | [] => rfl
  | (name, v) :: ms => by
    rw [memberTrees, Tree.membersToJson, toJson_tree v, membersToJson_memberTrees ms]
    rfl

end

theorem memberTrees_eq (ms : List (String × Json)) :
    memberTrees ms = ms.map fun m => (.ofName m.1, m.2.tree) := by
  induction ms with
  | nil => rfl
  | cons m ms ih => rw [memberTrees, ih, List.map_cons]

end Retrace.Json

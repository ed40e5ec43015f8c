import Retrace.Proofs.Datum.Decoded
import Retrace.Proofs.Json.RecordReading
import Retrace.Proofs.Lists

/-! Records none of whose fields has to be there. What is read of an object is what it tells under
the name of each field, and an object that does not name a field tells `null`. -/
namespace Retrace.Json

/-! ### Readers that cannot tell values apart -/

/-- Two values that a reader takes for the same, or neither of which it takes. -/
def ReadAlike (read : Json → Except ε α) (v w : Json) : Prop :=
  ∀ a, read v = .ok a ↔ read w = .ok a

theorem mapM_eq_ok_congr {read : Json → Except ε α} {vs ws : List Json}
    (h : List.Forall₂ (ReadAlike read) vs ws) (as : List α) :
    vs.mapM read = .ok as ↔ ws.mapM read = .ok as := by
  have forward {vs ws : List Json} (h : List.Forall₂ (ReadAlike read) vs ws) {as : List α}
      (hread : vs.mapM read = .ok as) : ws.mapM read = .ok as := by
    induction h generalizing as with
    | nil => exact hread
    | @cons v w vs ws hvw _ ih =>
      rw [List.mapM_cons] at hread
      obtain ⟨a, ha, hread⟩ := Except.bind_eq_ok hread
      obtain ⟨rest, hrest, hread⟩ := Except.bind_eq_ok hread
      cases hread
      rw [List.mapM_cons, (hvw a).1 ha, ih hrest]
      rfl
  have hsymm : List.Forall₂ (ReadAlike read) ws vs :=
    (List.Forall₂.flip h).imp fun _ _ hwv a => (hwv a).symm
  exact ⟨forward h, forward hsymm⟩

theorem readAlike_optional {read : Json → Read α} {v w : Json} (h : ReadAlike read v w)
    (hv : v ≠ .null) (hw : w ≠ .null) : ReadAlike (optional read) v w := by
  have hsome {u : Json} (hu : u ≠ .null) (a : Option α) :
      optional read u = .ok a ↔ ∃ b, a = some b ∧ read u = .ok b := by
    rw [optional.eq_2 _ _ hu]
    cases read u with
    | error e => exact ⟨nofun, nofun⟩
    | ok b =>
      constructor
      · rintro ⟨⟩
        exact ⟨b, rfl, rfl⟩
      · rintro ⟨_, rfl, ⟨⟩⟩
        rfl
  intro a
  rw [hsome hv, hsome hw]
  simp only [h _]

/-! ### What an object tells of the fields -/

def told (members : List (String × Json)) (name : String) : Json :=
  (members.lookup name).getD .null

def fieldMembers (fields : List (Field Json)) (members : List (String × Json)) :
    List (String × Json) :=
  members.filter fun m => m.1 ∈ fields.map Field.name

def NamedOnce (fields : List (Field Json)) (members : List (String × Json)) : Prop :=
  ((fieldMembers fields members).map Prod.fst).Nodup

section

variable {fields : List (Field Json)} {members : List (String × Json)} {name : String}

private theorem lookup_fieldMembers (hname : name ∈ fields.map Field.name) :
    (fieldMembers fields members).lookup name = members.lookup name := by
  induction members with
  | nil => rfl
  | cons m members ih =>
    obtain ⟨n, v⟩ := m
    by_cases hn : n ∈ fields.map Field.name
    · rw [fieldMembers, List.filter_cons_of_pos (by simpa using hn), List.lookup_cons,
        List.lookup_cons]
      rw [fieldMembers] at ih
      rw [ih]
    · have hne : (name == n) = false := beq_false_of_ne fun heq => hn (heq ▸ hname)
      rw [fieldMembers, List.filter_cons_of_neg (by simpa using hn), List.lookup_cons, hne]
      exact ih

/-- A field that is read from the members that are fields is read from what the object tells. -/
theorem get?_fieldMembers {α : Type} {read : Json → Read α}
    (hname : name ∈ fields.map Field.name) :
    Field.get? (optional read) name (fieldMembers fields members) =
      optional read (told members name) := by
  rw [Field.get?, lookup_fieldMembers hname, told]
  cases members.lookup name with
  | none => rfl
  | some v => rfl

theorem get?_of_told (fields : List (Field Json)) {α : Type} {read : Json → Read α} {a : Option α}
    (hname : name ∈ fields.map Field.name) (h : optional read (told members name) = .ok a) :
    Field.get? (optional read) name (fieldMembers fields members) = .ok a :=
  (get?_fieldMembers hname).trans h

private theorem fieldMembers_cons_of_mem {v : Json} (hname : name ∈ fields.map Field.name) :
    fieldMembers fields ((name, v) :: members) = (name, v) :: fieldMembers fields members :=
  List.filter_cons_of_pos (by simpa using hname)

private theorem fieldMembers_cons_of_notMem {v : Json} (hname : name ∉ fields.map Field.name) :
    fieldMembers fields ((name, v) :: members) = fieldMembers fields members :=
  List.filter_cons_of_neg (by simpa using hname)

private theorem mem_names_of_find? {f : Field Json} (h : fields.find? (·.name = name) = some f) :
    f ∈ fields ∧ f.name = name :=
  ⟨List.mem_of_find?_eq_some h, by simpa using List.find?_some h⟩

private theorem notMem_names_of_find? (h : fields.find? (·.name = name) = none) :
    name ∉ fields.map Field.name := by
  intro hname
  obtain ⟨f, hf, rfl⟩ := List.mem_map.1 hname
  simpa using List.find?_eq_none.1 h f hf

/-- A member that is a field is taken when the name is new and the value passes. -/
theorem knownMembers_cons_eq_ok_iff {f : Field Json}
    (hf : fields.find? (·.name = name) = some f) {seen : List String} {v : Json}
    {known : List (String × Json)} :
    knownMembers fields seen ((name, v) :: members) = .ok known ↔
      name ∉ seen ∧ f.check v = .ok () ∧
        ∃ rest, knownMembers fields (name :: seen) members = .ok rest ∧
          known = (name, v) :: rest := by
  rw [knownMembers, hf]
  by_cases hseen : name ∈ seen
  · have hcontains : seen.contains name = true := by simpa using hseen
    simp only [hcontains, hseen, if_true, not_true_eq_false, false_and, iff_false]
    intro h
    cases h
  · have hcontains : seen.contains name = false := by simpa using hseen
    simp only [hcontains, hseen, Bool.false_eq_true, if_false, not_false_eq_true, true_and]
    cases hcheck : f.check v with
    | error e =>
      constructor
      · intro h
        cases h
      · rintro ⟨h, -⟩
        cases h
    | ok u =>
      cases hrest : knownMembers fields (name :: seen) members with
      | error e =>
        constructor
        · intro h
          cases h
        · rintro ⟨-, _, h, -⟩
          cases h
      | ok rest =>
        constructor
        · rintro ⟨⟩
          exact ⟨rfl, rest, rfl, rfl⟩
        · rintro ⟨-, _, ⟨⟩, rfl⟩
          rfl

/-- The known members are those that are fields, when each passes its examination and none comes
twice. -/
theorem knownMembers_eq_ok_iff {seen : List String} {known : List (String × Json)} :
    knownMembers fields seen members = .ok known ↔
      known = fieldMembers fields members ∧ NamedOnce fields members ∧
        (∀ m ∈ fieldMembers fields members, m.1 ∉ seen) ∧
        ∀ m ∈ members, ∀ f, fields.find? (·.name = m.1) = some f → f.check m.2 = .ok () := by
  induction members generalizing seen known with
  | nil =>
    constructor
    · rintro ⟨⟩
      exact ⟨rfl, .nil, List.forall_mem_nil _, List.forall_mem_nil _⟩
    · rintro ⟨rfl, -⟩
      rfl
  | cons m members ih =>
    obtain ⟨name, v⟩ := m
    rw [List.forall_mem_cons, NamedOnce]
    cases hf : fields.find? (·.name = name) with
    | none =>
      have hskip : knownMembers fields seen ((name, v) :: members) =
          knownMembers fields seen members := by rw [knownMembers, hf]
      rw [hskip, ih, fieldMembers_cons_of_notMem (notMem_names_of_find? hf)]
      constructor
      · rintro ⟨hk, hn, hs, hc⟩
        refine ⟨hk, hn, hs, fun f h => ?_, hc⟩
        cases h
      · rintro ⟨hk, hn, hs, -, hc⟩
        exact ⟨hk, hn, hs, hc⟩
    | some f =>
      obtain ⟨hmem, hname⟩ := mem_names_of_find? hf
      rw [knownMembers_cons_eq_ok_iff hf,
        fieldMembers_cons_of_mem (hname ▸ List.mem_map_of_mem hmem), List.forall_mem_cons,
        List.map_cons, List.nodup_cons]
      simp only [ih, NamedOnce, List.mem_cons, not_or, Option.some.injEq, forall_eq']
      constructor
      · rintro ⟨hseen, hcheck, _, ⟨rfl, hnodup, hnew, hrest⟩, rfl⟩
        refine ⟨rfl, ⟨?_, hnodup⟩, ⟨hseen, fun m hm => (hnew m hm).2⟩, hcheck, hrest⟩
        rintro hagain
        obtain ⟨m, hm, heq⟩ := List.mem_map.1 hagain
        exact (hnew m hm).1 heq
      · rintro ⟨rfl, ⟨hnew, hnodup⟩, ⟨hseen, hother⟩, hcheck, hrest⟩
        refine ⟨hseen, hcheck, _, ⟨rfl, hnodup, fun m hm => ⟨?_, hother m hm⟩, hrest⟩, rfl⟩
        exact fun heq => hnew (heq ▸ List.mem_map_of_mem hm)

/-- Every field of a record may be missing, and then it is as if it were `null`. -/
structure AllOptional (fields : List (Field Json)) : Prop where
  distinct : (fields.map Field.name).Nodup
  free : ∀ f ∈ fields, f.required = false
  null : ∀ f ∈ fields, f.check .null = .ok ()

/-- Each member that is a field passes when all passes that the object tells of the fields. -/
theorem checks_iff_told (h : AllOptional fields) (honce : NamedOnce fields members) :
    (∀ m ∈ members, ∀ f, fields.find? (·.name = m.1) = some f → f.check m.2 = .ok ()) ↔
      ∀ f ∈ fields, f.check (told members f.name) = .ok () := by
  constructor
  · intro hcheck f hf
    rw [told]
    cases hlook : members.lookup f.name with
    | none => exact h.null f hf
    | some v => exact hcheck _ (mem_of_lookup hlook) f (find?_of_mem_fields h.distinct hf)
  · rintro hcheck ⟨name, v⟩ hm f hf
    obtain ⟨hmem, rfl⟩ := mem_names_of_find? hf
    have hname := List.mem_map_of_mem (f := Field.name) hmem
    have hfield : (f.name, v) ∈ fieldMembers fields members :=
      List.mem_filter.2 ⟨hm, by simpa using hname⟩
    have hlook := (lookup_iff_mem honce).2 hfield
    rw [lookup_fieldMembers hname] at hlook
    have := hcheck f hmem
    rwa [told, hlook] at this

/-- An object has the fields of a record that are all optional when none is named twice and all
passes that it tells of them. -/
theorem knownMembers_eq_ok_iff_told (h : AllOptional fields) {known : List (String × Json)} :
    knownMembers fields [] members = .ok known ↔
      known = fieldMembers fields members ∧ NamedOnce fields members ∧
        ∀ f ∈ fields, f.check (told members f.name) = .ok () := by
  rw [knownMembers_eq_ok_iff]
  constructor
  · rintro ⟨hknown, honce, -, hcheck⟩
    exact ⟨hknown, honce, (checks_iff_told h honce).1 hcheck⟩
  · rintro ⟨hknown, honce, hcheck⟩
    exact ⟨hknown, honce, fun _ _ => List.not_mem_nil, (checks_iff_told h honce).2 hcheck⟩

theorem recordFields_eq_ok_iff_told (title excess : String) (h : AllOptional fields)
    {known : List (String × Json)} :
    recordFields title excess fields (.object members) = .ok known ↔
      known = fieldMembers fields members ∧ NamedOnce fields members ∧
        ∀ f ∈ fields, f.check (told members f.name) = .ok () := by
  rw [← knownMembers_eq_ok_iff_told h]
  have hmissing (ms : List (String × Json)) : Field.missing? fields ms = none := by
    rw [Field.missing?, Option.map_eq_none_iff, List.find?_eq_none]
    intro f hf
    simp [h.free f hf]
  constructor
  · intro hfields
    obtain ⟨ms, hms, heq⟩ := Except.bind_eq_ok hfields
    rw [hmissing] at heq
    cases heq
    exact hms
  · intro hknown
    exact recordFields_object title excess hknown (hmissing known)

end

/-! ### Edits that a reader of such a record does not notice -/

/-- One edit of the members of an object: another order, one more member that is no field, or one
more member that is `null` under a name that was not there. -/
inductive Edit (fields : List (Field Json)) :
    List (String × Json) → List (String × Json) → Prop
  | reorder {ms ns : List (String × Json)} (h : ms.Perm ns) : Edit fields ms ns
  | stray (name : String) (v : Json) {ms : List (String × Json)}
      (h : name ∉ fields.map Field.name) : Edit fields ms ((name, v) :: ms)
  | unset (name : String) {ms : List (String × Json)} (h : name ∉ ms.map Prod.fst) :
      Edit fields ms ((name, .null) :: ms)

namespace Edit

variable {fields : List (Field Json)} {ms ns : List (String × Json)}

theorem namedOnce_iff (h : Edit fields ms ns) : NamedOnce fields ms ↔ NamedOnce fields ns := by
  cases h with
  | reorder h => exact ((h.filter _).map _).nodup_iff
  | stray name v h => rw [NamedOnce, NamedOnce, fieldMembers_cons_of_notMem h]
  | unset name h =>
    by_cases hname : name ∈ fields.map Field.name
    · rw [NamedOnce, NamedOnce, fieldMembers_cons_of_mem hname, List.map_cons, List.nodup_cons]
      refine (and_iff_right fun hagain => h ?_).symm
      exact ((List.filter_sublist (l := ms)).map _).subset hagain
    · rw [NamedOnce, NamedOnce, fieldMembers_cons_of_notMem hname]

/-- An edited object tells the same of each field. -/
theorem told_eq (h : Edit fields ms ns) (honce : NamedOnce fields ms) {name : String}
    (hname : name ∈ fields.map Field.name) : told ms name = told ns name := by
  have told_cons {n : String} (hn : n ≠ name) (v : Json) :
      told ((n, v) :: ms) name = told ms name := by
    rw [told, List.lookup_cons, beq_false_of_ne hn.symm]
    rfl
  cases h with
  | reorder h =>
    have honce' : NamedOnce fields ns := ((h.filter _).map _).nodup_iff.1 honce
    have hlook : (fieldMembers fields ms).lookup name = (fieldMembers fields ns).lookup name := by
      refine Option.ext fun v => ?_
      rw [lookup_iff_mem honce, lookup_iff_mem honce']
      exact (h.filter _).mem_iff
    rw [told, told, ← lookup_fieldMembers hname, hlook, lookup_fieldMembers hname]
  | stray n v h =>
    have hne : n ≠ name := fun heq => h (heq ▸ hname)
    exact (told_cons hne v).symm
  | unset n h =>
    by_cases hn : n = name
    · subst hn
      have hnone : ms.lookup n = none :=
        List.lookup_eq_none_iff.2 fun m hm => by
          have : n ≠ m.1 := fun heq => h (heq ▸ List.mem_map_of_mem hm)
          simpa using this
      rw [told, told, hnone, List.lookup_cons_self]
      rfl
    · exact (told_cons hn .null).symm

end Edit

/-! ### Another value for one member -/

section

variable {fields : List (Field Json)} {front back : List (String × Json)} {name : String}
  {v w : Json}

theorem namedOnce_replace :
    NamedOnce fields (front ++ (name, v) :: back) ↔ NamedOnce fields (front ++ (name, w) :: back) := by
  have hnames : (fieldMembers fields (front ++ (name, v) :: back)).map Prod.fst =
      (fieldMembers fields (front ++ (name, w) :: back)).map Prod.fst := by
    by_cases hname : name ∈ fields.map Field.name <;>
      simp only [fieldMembers, List.filter_append, List.filter_cons, hname, decide_true,
        decide_false, Bool.false_eq_true, if_true, if_false, List.map_append, List.map_cons]
  rw [NamedOnce, NamedOnce, hnames]

theorem told_replace_of_ne {n : String} (h : n ≠ name) :
    told (front ++ (name, v) :: back) n = told (front ++ (name, w) :: back) n := by
  rw [told, told, List.lookup_append, List.lookup_append, List.lookup_cons, List.lookup_cons,
    beq_false_of_ne h]

/-- Under the replaced name stands the old value here and the new one there, unless the name was
there before. -/
theorem told_replace :
    told (front ++ (name, v) :: back) name = told (front ++ (name, w) :: back) name ∨
      told (front ++ (name, v) :: back) name = v ∧
        told (front ++ (name, w) :: back) name = w := by
  simp only [told, List.lookup_append, List.lookup_cons_self]
  cases front.lookup name with
  | none => exact .inr ⟨rfl, rfl⟩
  | some u => exact .inl rfl

end

end Retrace.Json

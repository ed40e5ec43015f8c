import Mathlib.Logic.Relation
import Retrace.Proofs.Json.OptionalFields
import Retrace.Snapshot.Replay

/-! What a recording may be written like. The order of the members of a step or of a frame, members
that mean nothing, and members that are `null` make no difference to what is read. -/
namespace Retrace

open Json (optional told NamedOnce AllOptional Edit ReadAlike get?_of_told)

namespace Activation

private theorem fields_optional : AllOptional fields where
  distinct := by decide
  free := by simp [fields, Json.Field.sometimes]
  null := by
    simp only [fields, List.forall_mem_cons]
    exact ⟨rfl, rfl, rfl, rfl, rfl, rfl, List.forall_mem_nil _⟩

/-- A call that says what is told under the names of its fields. -/
structure Says (tell : String → Json) (a : Activation) : Prop where
  frameId : optional Json.toUInt64 (tell "frame_id") = .ok a.frameId
  funcName : optional Json.toText (tell "func_name") = .ok a.funcName
  locals : optional Scope.ofJson (tell "locals") = .ok a.locals
  order : optional names (tell "ordered_varnames") = .ok a.order
  parents : optional ids (tell "parent_frame_id_list") = .ok a.parents
  identity : optional Json.toText (tell "unique_hash") = .ok a.identity

private theorem Says.checked {tell : String → Json} {a : Activation} (h : a.Says tell) :
    ∀ f ∈ fields, f.check (tell f.name) = .ok () := by
  simp only [fields, List.forall_mem_cons]
  exact ⟨congrArg discard h.frameId, congrArg discard h.funcName, congrArg discard h.locals,
    congrArg discard h.order, congrArg discard h.parents, congrArg discard h.identity,
    List.forall_mem_nil _⟩

/-- What is read of a frame is what its object says of the fields. -/
theorem ofJson_object_eq_ok_iff {members : List (String × Json)} {a : Activation} :
    ofJson (.object members) = .ok a ↔ NamedOnce fields members ∧ a.Says (told members) := by
  constructor
  · intro h
    obtain ⟨ms, hms, h⟩ := Except.bind_eq_ok h
    obtain ⟨rfl, honce, -⟩ := (Json.recordFields_eq_ok_iff_told _ _ fields_optional).1 hms
    obtain ⟨frameId, hframeId, h⟩ := Except.bind_eq_ok h
    obtain ⟨funcName, hfuncName, h⟩ := Except.bind_eq_ok h
    obtain ⟨locals, hlocals, h⟩ := Except.bind_eq_ok h
    obtain ⟨order, horder, h⟩ := Except.bind_eq_ok h
    obtain ⟨parents, hparents, h⟩ := Except.bind_eq_ok h
    obtain ⟨identity, hidentity, h⟩ := Except.bind_eq_ok h
    cases h
    rw [Json.get?_fieldMembers (by decide)] at hframeId hfuncName hlocals horder hparents hidentity
    exact ⟨honce, hframeId, hfuncName, hlocals, horder, hparents, hidentity⟩
  · rintro ⟨honce, h⟩
    have hms := (Json.recordFields_eq_ok_iff_told "struct RawFrame" "fewer elements in array"
      fields_optional).2 ⟨rfl, honce, h.checked⟩
    rw [ofJson, hms]
    simp only [bind, Except.bind, get?_of_told fields (by decide) h.frameId,
      get?_of_told fields (by decide) h.funcName, get?_of_told fields (by decide) h.locals,
      get?_of_told fields (by decide) h.order, get?_of_told fields (by decide) h.parents,
      get?_of_told fields (by decide) h.identity]
    rfl

theorem Says.congr {tell other : String → Json} {a : Activation} (h : a.Says tell)
    (heq : ∀ name ∈ fields.map Json.Field.name, tell name = other name) : a.Says other where
  frameId := heq "frame_id" (by decide) ▸ h.frameId
  funcName := heq "func_name" (by decide) ▸ h.funcName
  locals := heq "locals" (by decide) ▸ h.locals
  order := heq "ordered_varnames" (by decide) ▸ h.order
  parents := heq "parent_frame_id_list" (by decide) ▸ h.parents
  identity := heq "unique_hash" (by decide) ▸ h.identity

/-- An edited frame is read alike. -/
theorem readAlike_of_edit {ms ns : List (String × Json)} (h : Edit fields ms ns) :
    ReadAlike ofJson (.object ms) (.object ns) := by
  intro a
  rw [ofJson_object_eq_ok_iff, ofJson_object_eq_ok_iff, ← h.namedOnce_iff]
  refine and_congr_right fun honce => ?_
  have htold (name : String) (hname : name ∈ fields.map Json.Field.name) :
      told ms name = told ns name := h.told_eq honce hname
  exact ⟨fun ha => ha.congr htold, fun ha => ha.congr fun name hname => (htold name hname).symm⟩

end Activation

namespace Record

private theorem fields_optional : AllOptional fields where
  distinct := by decide
  free := by simp [fields, Json.Field.sometimes]
  null := by
    simp only [fields, List.forall_mem_cons]
    exact ⟨rfl, rfl, rfl, rfl, rfl, rfl, rfl, rfl, rfl, List.forall_mem_nil _⟩

/-- A record that says what is told under the names of its fields. -/
structure Says (tell : String → Json) (r : Record) : Prop where
  line : optional Json.toUInt32 (tell "line") = .ok r.line
  event : optional Event.ofJson (tell "event") = .ok r.event
  funcName : optional Json.toText (tell "func_name") = .ok r.funcName
  globals : optional Scope.ofJson (tell "globals") = .ok r.globals
  order : optional Activation.names (tell "ordered_globals") = .ok r.order
  stack : optional activations (tell "stack_to_render") = .ok r.stack
  heap : optional Heap.ofJson (tell "heap") = .ok r.heap
  output : optional Json.toText (tell "stdout") = .ok r.output
  exception : optional Json.toText (tell "exception_msg") = .ok r.exception

private theorem Says.checked {tell : String → Json} {r : Record} (h : r.Says tell) :
    ∀ f ∈ fields, f.check (tell f.name) = .ok () := by
  simp only [fields, List.forall_mem_cons]
  exact ⟨congrArg discard h.line, congrArg discard h.event, congrArg discard h.funcName,
    congrArg discard h.globals, congrArg discard h.order, congrArg discard h.stack,
    congrArg discard h.heap, congrArg discard h.output, congrArg discard h.exception,
    List.forall_mem_nil _⟩

/-- What is read of a step is what its object says of the fields. -/
theorem ofMembers_eq_ok_iff {members : List (String × Json)} {r : Record} :
    ofMembers members = .ok r ↔ NamedOnce fields members ∧ r.Says (told members) := by
  constructor
  · intro h
    obtain ⟨ms, hms, h⟩ := Except.bind_eq_ok h
    obtain ⟨rfl, honce, -⟩ := (Json.knownMembers_eq_ok_iff_told fields_optional).1 hms
    obtain ⟨line, hline, h⟩ := Except.bind_eq_ok h
    obtain ⟨event, hevent, h⟩ := Except.bind_eq_ok h
    obtain ⟨funcName, hfuncName, h⟩ := Except.bind_eq_ok h
    obtain ⟨globals, hglobals, h⟩ := Except.bind_eq_ok h
    obtain ⟨order, horder, h⟩ := Except.bind_eq_ok h
    obtain ⟨stack, hstack, h⟩ := Except.bind_eq_ok h
    obtain ⟨heap, hheap, h⟩ := Except.bind_eq_ok h
    obtain ⟨output, houtput, h⟩ := Except.bind_eq_ok h
    obtain ⟨exception, hexception, h⟩ := Except.bind_eq_ok h
    cases h
    rw [Json.get?_fieldMembers (by decide)] at hline hevent hfuncName hglobals horder
    rw [Json.get?_fieldMembers (by decide)] at hstack hheap houtput hexception
    exact ⟨honce, hline, hevent, hfuncName, hglobals, horder, hstack, hheap, houtput, hexception⟩
  · rintro ⟨honce, h⟩
    have hms := (Json.knownMembers_eq_ok_iff_told fields_optional).2 ⟨rfl, honce, h.checked⟩
    rw [ofMembers, hms]
    simp only [bind, Except.bind, get?_of_told fields (by decide) h.line,
      get?_of_told fields (by decide) h.event, get?_of_told fields (by decide) h.funcName,
      get?_of_told fields (by decide) h.globals, get?_of_told fields (by decide) h.order,
      get?_of_told fields (by decide) h.stack, get?_of_told fields (by decide) h.heap,
      get?_of_told fields (by decide) h.output, get?_of_told fields (by decide) h.exception]
    rfl

/-- Where the calls are read alike and the rest is the same, a record says the same. -/
theorem Says.congr {tell other : String → Json} {r : Record} (h : r.Says tell)
    (hcalls : ReadAlike (optional activations) (tell "stack_to_render")
      (other "stack_to_render"))
    (heq : ∀ name ∈ fields.map Json.Field.name, name ≠ "stack_to_render" →
      tell name = other name) : r.Says other where
  line := heq "line" (by decide) (by decide) ▸ h.line
  event := heq "event" (by decide) (by decide) ▸ h.event
  funcName := heq "func_name" (by decide) (by decide) ▸ h.funcName
  globals := heq "globals" (by decide) (by decide) ▸ h.globals
  order := heq "ordered_globals" (by decide) (by decide) ▸ h.order
  stack := (hcalls r.stack).1 h.stack
  heap := heq "heap" (by decide) (by decide) ▸ h.heap
  output := heq "stdout" (by decide) (by decide) ▸ h.output
  exception := heq "exception_msg" (by decide) (by decide) ▸ h.exception

theorem readAlike_of_edit {ms ns : List (String × Json)} (h : Edit fields ms ns) (r : Record) :
    ofMembers ms = .ok r ↔ ofMembers ns = .ok r := by
  rw [ofMembers_eq_ok_iff, ofMembers_eq_ok_iff, ← h.namedOnce_iff]
  refine and_congr_right fun honce => ?_
  have htold (name : String) (hname : name ∈ fields.map Json.Field.name) :
      told ms name = told ns name := h.told_eq honce hname
  have hcalls := htold "stack_to_render" (by decide)
  constructor
  · intro hr
    exact hr.congr (fun a => by rw [hcalls]) fun name hname _ => htold name hname
  · intro hr
    exact hr.congr (fun a => by rw [hcalls]) fun name hname _ => (htold name hname).symm

/-- Calls one of which is replaced by a call that is read alike are read alike. -/
theorem readAlike_activations {outer inner : List Json} {v w : Json}
    (h : ReadAlike Activation.ofJson v w) :
    ReadAlike (optional activations) (.array (outer ++ v :: inner))
      (.array (outer ++ w :: inner)) := by
  have hsame (vs : List Json) : List.Forall₂ (ReadAlike Activation.ofJson) vs vs :=
    List.forall₂_same.2 fun _ _ _ => Iff.rfl
  have hitems := List.rel_append (hsame outer) (List.Forall₂.cons h (hsame inner))
  exact Json.readAlike_optional (Json.mapM_eq_ok_congr hitems) nofun nofun

/-- A step that lists a call anew, to be read alike, is read alike. -/
theorem readAlike_of_call {front back : List (String × Json)} {v w : Json}
    (h : ReadAlike (optional activations) v w) (r : Record) :
    ofMembers (front ++ ("stack_to_render", v) :: back) = .ok r ↔
      ofMembers (front ++ ("stack_to_render", w) :: back) = .ok r := by
  rw [ofMembers_eq_ok_iff, ofMembers_eq_ok_iff, Json.namedOnce_replace (w := w)]
  refine and_congr_right fun _ => ?_
  have hcalls : ReadAlike (optional activations)
      (told (front ++ ("stack_to_render", v) :: back) "stack_to_render")
      (told (front ++ ("stack_to_render", w) :: back) "stack_to_render") := by
    rcases Json.told_replace with heq | ⟨hv, hw⟩
    · rw [heq]
      exact fun _ => Iff.rfl
    · rw [hv, hw]
      exact h
  constructor
  · intro hr
    exact hr.congr hcalls fun name _ hne => Json.told_replace_of_ne hne
  · intro hr
    exact hr.congr (fun a => (hcalls a).symm) fun name _ hne => Json.told_replace_of_ne hne

end Record

namespace Recording

/-- One edit of a step: of its own members, or of those of one frame on its stack. -/
inductive StepEdit : Json → Json → Prop
  | step {ms ns : List (String × Json)} (h : Edit Record.fields ms ns) :
      StepEdit (.object ms) (.object ns)
  | frame {ms ns : List (String × Json)} (h : Edit Activation.fields ms ns)
      (front back : List (String × Json)) (outer inner : List Json) :
      StepEdit
        (.object (front ++ ("stack_to_render", .array (outer ++ .object ms :: inner)) :: back))
        (.object (front ++ ("stack_to_render", .array (outer ++ .object ns :: inner)) :: back))

/-- Steps with any number of edits between them, there or back. -/
abbrev SameSteps : List Json → List Json → Prop :=
  List.Forall₂ (Relation.EqvGen StepEdit)

theorem readStep_object_eq_ok_iff (index : Nat) (members : List (String × Json)) (r : Record) :
    readStep index (.object members) = .ok r ↔ Record.ofMembers members = .ok r := by
  rw [readStep]
  cases Record.ofMembers members with
  | error e => exact ⟨nofun, nofun⟩
  | ok r' =>
    constructor
    · rintro ⟨⟩
      rfl
    · rintro ⟨⟩
      rfl

/-- An edited step is read alike. -/
theorem StepEdit.readAlike {v w : Json} (h : StepEdit v w) (index : Nat) :
    ReadAlike (readStep index) v w := by
  intro r
  cases h with
  | step h =>
    rw [readStep_object_eq_ok_iff, readStep_object_eq_ok_iff]
    exact Record.readAlike_of_edit h r
  | frame h =>
    rw [readStep_object_eq_ok_iff, readStep_object_eq_ok_iff]
    exact Record.readAlike_of_call
      (Record.readAlike_activations (Activation.readAlike_of_edit h)) r

private theorem readAlike_of_eqvGen {v w : Json} (h : Relation.EqvGen StepEdit v w) (index : Nat) :
    ReadAlike (readStep index) v w := by
  induction h with
  | rel v w h => exact h.readAlike index
  | refl v => exact fun _ => Iff.rfl
  | symm v w _ ih => exact fun r => (ih r).symm
  | trans v w u _ _ ih₁ ih₂ => exact fun r => (ih₁ r).trans (ih₂ r)

theorem readSteps_cons_eq_ok_iff {index : Nat} {v : Json} {vs : List Json} {records : List Record} :
    readSteps index (v :: vs) = .ok records ↔
      ∃ r rest, readStep index v = .ok r ∧ readSteps (index + 1) vs = .ok rest ∧
        records = r :: rest := by
  constructor
  · intro h
    obtain ⟨r, hr, h⟩ := Except.bind_eq_ok h
    obtain ⟨rest, hrest, h⟩ := Except.bind_eq_ok h
    cases h
    exact ⟨r, rest, hr, hrest, rfl⟩
  · rintro ⟨r, rest, hr, hrest, rfl⟩
    rw [readSteps, hr, hrest]
    rfl

theorem SameSteps.readSteps {steps steps' : List Json} (h : SameSteps steps steps') (index : Nat)
    (records : List Record) :
    readSteps index steps = .ok records ↔ readSteps index steps' = .ok records := by
  induction h generalizing index records with
  | nil => exact Iff.rfl
  | @cons v w vs ws hvw _ ih =>
    rw [readSteps_cons_eq_ok_iff, readSteps_cons_eq_ok_iff]
    simp only [readAlike_of_eqvGen hvw index _, ih]

theorem ofJson_array_eq_ok_iff {steps : List Json} {recording : Recording} :
    ofJson (.array steps) = .ok recording ↔
      recording.source = none ∧ readSteps 0 steps = .ok recording.records := by
  constructor
  · intro h
    obtain ⟨_, hsteps, h⟩ := Except.bind_eq_ok h
    cases hsteps
    obtain ⟨records, hrecords, h⟩ := Except.bind_eq_ok h
    cases h
    exact ⟨rfl, hrecords⟩
  · obtain ⟨source, records⟩ := recording
    rintro ⟨rfl, hrecords⟩
    have hlist : ofJson (.array steps) =
        (readSteps 0 steps).bind fun records => .ok ⟨none, records⟩ := rfl
    rw [hlist, hrecords]
    rfl

/-- The order of the members of steps and frames, members that are no fields and members that are
`null` change neither whether a list of steps is a recording, nor which, nor what is replayed. -/
theorem same_of_sameSteps {steps steps' : List Json} (h : SameSteps steps steps') :
    (∀ recording, ofJson (.array steps) = .ok recording ↔
      ofJson (.array steps') = .ok recording) ∧
    ∀ limit outcome,
      (∃ recording, ofJson (.array steps) = .ok recording ∧
        replay limit recording.records = outcome) ↔
      ∃ recording, ofJson (.array steps') = .ok recording ∧
        replay limit recording.records = outcome := by
  have hread (recording : Recording) : ofJson (.array steps) = .ok recording ↔
      ofJson (.array steps') = .ok recording := by
    rw [ofJson_array_eq_ok_iff, ofJson_array_eq_ok_iff, h.readSteps]
  refine ⟨hread, fun limit outcome => ?_⟩
  simp only [hread]

/-- A step with a call, written plainly. -/
def plainStep : Json :=
  let locals := Json.object [("b", .number (.unsigned 1)), ("a", .array [])]
  .object [("line", .number (.unsigned 3)), ("event", .null), ("stack_to_render", .array
    [.object [("func_name", .string "f"), ("locals", locals)]])]

/-- The same step with its members in another order, one of them left out because it is `null`, and
with members that say nothing, of the step and of the frame. -/
def wordyStep : Json :=
  let locals := Json.object [("b", .number (.unsigned 1)), ("a", .array [])]
  .object [("heap", .null), ("note", .bool true), ("stack_to_render", .array
    [.object [("ordered_varnames", .null), ("locals", locals), ("func_name", .string "f")]]),
    ("line", .number (.unsigned 3))]

private theorem plainStep_edited : Relation.EqvGen StepEdit plainStep wordyStep := by
  -- the frame
  refine .trans _ _ _ (.rel _ _ (.frame (.reorder (.swap _ _ [])) [_, _] [] [] [])) ?_
  refine .trans _ _ _ (.rel _ _ (.frame (.unset "ordered_varnames" (by decide)) [_, _] [] [] [])) ?_
  -- the step
  refine .trans _ _ _ (.rel _ _ (.step (.reorder (.swap _ _ _)))) ?_
  refine .trans _ _ _ (.symm _ _ (.rel _ _ (.step (.unset "event" (by decide))))) ?_
  refine .trans _ _ _ (.rel _ _ (.step (.reorder (.swap _ _ [])))) ?_
  refine .trans _ _ _ (.rel _ _ (.step (.stray "note" (.bool true) (by decide)))) ?_
  exact .rel _ _ (.step (.unset "heap" (by decide)))

theorem wordyStep_same : SameSteps [plainStep, .object []] [wordyStep, .object []] ∧
    ∃ recording, ofJson (.array [plainStep, .object []]) = .ok recording ∧
      ofJson (.array [wordyStep, .object []]) = .ok recording := by
  have h : SameSteps [plainStep, .object []] [wordyStep, .object []] :=
    .cons plainStep_edited (.cons (.refl _) .nil)
  exact ⟨h, _, rfl, ((same_of_sameSteps h).1 _).1 rfl⟩

end Recording
end Retrace

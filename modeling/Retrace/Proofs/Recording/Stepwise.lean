import Retrace.Proofs.Recording.Leniency

/-! Recordings step by step. Whether the steps are a bare list or stand in an object makes no
difference to them. A list of steps is read if each of its steps can be read when it stands alone;
if not, the first that cannot tells why. -/
namespace Retrace

namespace RecordingError

def invalidStep? : RecordingError → Option (Nat × String)
  | .notObject index kind => some (index, "step must be a JSON object, found " ++ kind)
  | .step index error => some (index, error.message)
  | _ => none

def atStep (index : Nat) : RecordingError → RecordingError
  | .notObject _ kind => .notObject index kind
  | .step _ error => .step index error
  | e => e

private theorem invalidStep?_atStep {e : RecordingError} {i : Nat} {reason : String}
    (h : e.invalidStep? = some (i, reason)) (index : Nat) :
    (e.atStep index).invalidStep? = some (index, reason) := by
  cases e with
  | notObject _ _ => cases h; rfl
  | step _ _ => cases h; rfl
  | _ => cases h

private theorem message_of_invalidStep? {e : RecordingError} {index : Nat} {reason : String}
    (h : e.invalidStep? = some (index, reason)) : e.message = message.invalid index reason := by
  cases e with
  | notObject _ _ => cases h; rfl
  | step _ _ => cases h; rfl
  | _ => cases h

end RecordingError

namespace Recording

/-! ### One step -/

/-- The index of a step counts in its errors only. -/
theorem readStep_eq (index : Nat) (v : Json) :
    readStep index v = (readStep 0 v).mapError (.atStep index) := by
  cases v with
  | object members =>
    rw [readStep, readStep]
    cases Record.ofMembers members <;> rfl
  | _ => rfl

private theorem readStep_eq_ok_iff {index : Nat} {v : Json} {r : Record} :
    readStep index v = .ok r ↔ readStep 0 v = .ok r := by
  rw [readStep_eq]
  cases readStep 0 v with
  | error e => exact ⟨nofun, nofun⟩
  | ok r' => exact Iff.rfl

private theorem exists_reason {index : Nat} {v : Json} {e : RecordingError}
    (h : readStep index v = .error e) : ∃ reason, e.invalidStep? = some (index, reason) := by
  cases v with
  | object members =>
    rw [readStep] at h
    cases hmembers : Record.ofMembers members with
    | error error => rw [hmembers] at h; cases h; exact ⟨_, rfl⟩
    | ok r => rw [hmembers] at h; cases h
  | _ => cases h; exact ⟨_, rfl⟩

/-- Where the steps have been found, the recording is that of the steps. -/
theorem ofJson_of_stepList {v : Json} {steps : List Json} (h : stepList v = .ok steps) :
    ofJson v = (readSteps 0 steps).map fun records => ⟨sourceText v, records⟩ := by
  have hread : ofJson v = (readSteps 0 steps).bind fun records => .ok ⟨sourceText v, records⟩ := by
    rw [ofJson, h]
    rfl
  rw [hread]
  cases readSteps 0 steps <;> rfl

/-- A list of one step is read as that step is. -/
theorem ofJson_alone (v : Json) :
    ofJson (.array [v]) = (readStep 0 v).map fun r => ⟨none, [r]⟩ := by
  have hone : readSteps 0 [v] = (readStep 0 v).bind fun r => .ok [r] := rfl
  rw [ofJson_of_stepList rfl, hone]
  cases readStep 0 v <;> rfl

private theorem alone_eq_ok_iff {v : Json} {r : Record} :
    ofJson (.array [v]) = .ok ⟨none, [r]⟩ ↔ readStep 0 v = .ok r := by
  rw [ofJson_alone]
  cases readStep 0 v with
  | error e => exact ⟨nofun, nofun⟩
  | ok r' =>
    constructor
    · rintro ⟨⟩
      rfl
    · rintro ⟨⟩
      rfl

private theorem alone_eq_error_iff {v : Json} {e : RecordingError} :
    ofJson (.array [v]) = .error e ↔ readStep 0 v = .error e := by
  rw [ofJson_alone]
  cases readStep 0 v with
  | error e' =>
    constructor
    · rintro ⟨⟩
      rfl
    · rintro ⟨⟩
      rfl
  | ok r => exact ⟨nofun, nofun⟩

private theorem exists_alone_iff {v : Json} :
    (∃ recording, ofJson (.array [v]) = .ok recording) ↔ ∃ r, readStep 0 v = .ok r := by
  rw [ofJson_alone]
  cases readStep 0 v with
  | error e =>
    constructor
    · rintro ⟨_, ⟨⟩⟩
    · rintro ⟨_, ⟨⟩⟩
  | ok r => exact ⟨fun _ => ⟨r, rfl⟩, fun _ => ⟨_, rfl⟩⟩

/-! ### All steps -/

theorem readSteps_eq_ok_iff {index : Nat} {vs : List Json} {records : List Record} :
    readSteps index vs = .ok records ↔
      List.Forall₂ (fun v r => readStep 0 v = .ok r) vs records := by
  induction vs generalizing index records with
  | nil =>
    rw [List.forall₂_nil_left_iff]
    exact ⟨fun h => by cases h; rfl, fun h => by cases h; rfl⟩
  | cons v vs ih =>
    rw [readSteps_cons_eq_ok_iff, List.forall₂_cons_left_iff]
    simp only [readStep_eq_ok_iff, ih]

private theorem readSteps_cons_eq_error_iff {index : Nat} {v : Json} {vs : List Json}
    {e : RecordingError} :
    readSteps index (v :: vs) = .error e ↔
      readStep index v = .error e ∨
        (∃ r, readStep index v = .ok r) ∧ readSteps (index + 1) vs = .error e := by
  have hcons : readSteps index (v :: vs) = (readStep index v).bind fun r =>
      (readSteps (index + 1) vs).bind fun rest => .ok (r :: rest) := rfl
  rw [hcons]
  cases hv : readStep index v with
  | error own => simp [Except.bind]
  | ok r => cases hvs : readSteps (index + 1) vs <;> simp [Except.bind]

/-- The first step that fails gives its error, with its own index. -/
theorem readSteps_eq_error_iff {index : Nat} {vs : List Json} {e : RecordingError} :
    readSteps index vs = .error e ↔
      ∃ k v own, vs[k]? = some v ∧ (∀ w ∈ vs.take k, ∃ r, readStep 0 w = .ok r) ∧
        readStep 0 v = .error own ∧ e = own.atStep (index + k) := by
  induction vs generalizing index with
  | nil => exact ⟨nofun, fun ⟨_, _, _, h, _⟩ => nomatch h⟩
  | cons v vs ih =>
    rw [readSteps_cons_eq_error_iff, ih]
    constructor
    · rintro (hv | ⟨⟨r, hr⟩, k, w, own, hk, hbefore, hown, rfl⟩)
      · rw [readStep_eq] at hv
        cases hzero : readStep 0 v with
        | error own =>
          rw [hzero] at hv
          cases hv
          exact ⟨0, v, own, rfl, List.forall_mem_nil _, hzero, rfl⟩
        | ok r => rw [hzero] at hv; cases hv
      · refine ⟨k + 1, w, own, hk, ?_, hown, by rw [Nat.add_right_comm]; rfl⟩
        exact List.forall_mem_cons.2 ⟨⟨r, readStep_eq_ok_iff.1 hr⟩, hbefore⟩
    · rintro ⟨k, w, own, hk, hbefore, hown, rfl⟩
      cases k with
      | zero =>
        cases hk
        exact .inl (by rw [readStep_eq, hown]; rfl)
      | succ k =>
        obtain ⟨⟨r, hr⟩, hbefore⟩ := List.forall_mem_cons.1 hbefore
        refine .inr ⟨⟨r, readStep_eq_ok_iff.2 hr⟩, k, w, own, hk, hbefore, hown, ?_⟩
        rw [Nat.add_right_comm]
        rfl

/-! ### Objects around the steps -/

/-- An object has the steps under the first of the names under which it has a list. -/
def Wraps (members : List (String × Json)) (steps : List Json) : Prop :=
  ∃ front name back, stepNames = front ++ name :: back ∧
    members.lookup name = some (.array steps) ∧
    ∀ other ∈ front, ∀ items, members.lookup other ≠ some (.array items)

private theorem array?_lookup_eq_some_iff {members : List (String × Json)} {name : String}
    {items : List Json} :
    (members.lookup name).bind Json.array? = some items ↔
      members.lookup name = some (.array items) := by
  cases members.lookup name with
  | none => simp
  | some v => cases v <;> simp [Json.array?]

private theorem stepList_of_wraps {members : List (String × Json)} {steps : List Json}
    (h : Wraps members steps) : stepList (.object members) = .ok steps := by
  obtain ⟨front, name, back, hnames, hsteps, hfront⟩ := h
  have hfirst : (stepNames.findSome? fun name => (members.lookup name).bind Json.array?) =
      some steps := by
    rw [hnames, List.findSome?_append, List.findSome?_eq_none_iff.2, List.findSome?_cons,
      array?_lookup_eq_some_iff.2 hsteps]
    · rfl
    · intro other hother
      refine Option.eq_none_iff_forall_ne_some.2 fun items hitems => ?_
      exact hfront other hother items (array?_lookup_eq_some_iff.1 hitems)
  rw [stepList, hfirst]
  rfl

/-- An object around a list of steps gives the records of the list, or its error. -/
theorem ofJson_of_wraps {members : List (String × Json)} {steps : List Json}
    (h : Wraps members steps) :
    ofJson (.object members) = (ofJson (.array steps)).map fun recording =>
      ⟨sourceText (.object members), recording.records⟩ := by
  rw [ofJson_of_stepList (stepList_of_wraps h), ofJson_of_stepList (v := .array steps) rfl]
  cases readSteps 0 steps <;> rfl

/-! ### Steps that stand alone -/

theorem ofJson_array_eq_ok_iff_alone {steps : List Json} {recording : Recording} :
    ofJson (.array steps) = .ok recording ↔ recording.source = none ∧
      List.Forall₂ (fun v r => ofJson (.array [v]) = .ok ⟨none, [r]⟩) steps recording.records := by
  rw [ofJson_array_eq_ok_iff, readSteps_eq_ok_iff]
  simp only [alone_eq_ok_iff]

private theorem ofJson_array_eq_error_iff_alone {steps : List Json} {e : RecordingError} :
    ofJson (.array steps) = .error e ↔
      ∃ index v own, steps[index]? = some v ∧
        (∀ w ∈ steps.take index, ∃ recording, ofJson (.array [w]) = .ok recording) ∧
        ofJson (.array [v]) = .error own ∧ e = own.atStep index := by
  have hread : ofJson (.array steps) = .error e ↔ readSteps 0 steps = .error e := by
    rw [ofJson_of_stepList rfl]
    cases readSteps 0 steps with
    | error e' => exact ⟨fun h => by cases h; rfl, fun h => by cases h; rfl⟩
    | ok records => exact ⟨nofun, nofun⟩
  rw [hread, readSteps_eq_error_iff]
  simp only [alone_eq_error_iff, exists_alone_iff, Nat.zero_add]

private theorem exists_ofJson_array_iff {steps : List Json} :
    (∃ recording, ofJson (.array steps) = .ok recording) ↔
      ∀ v ∈ steps, ∃ recording, ofJson (.array [v]) = .ok recording := by
  constructor
  · rintro ⟨recording, h⟩ v hv
    obtain ⟨k, hk⟩ := List.getElem?_of_mem hv
    obtain ⟨r, -, hr⟩ := exists_getElem?_right (ofJson_array_eq_ok_iff_alone.1 h).2 hk
    exact ⟨_, hr⟩
  · intro h
    cases hsteps : ofJson (.array steps) with
    | ok recording => exact ⟨recording, rfl⟩
    | error e =>
      obtain ⟨k, v, own, hk, -, hown, -⟩ := ofJson_array_eq_error_iff_alone.1 hsteps
      obtain ⟨recording, hok⟩ := h v (List.mem_of_getElem? hk)
      rw [hok] at hown
      cases hown

/-- A list of steps and an object around it give the same records or the same error. The list is
read exactly if each step is read when it stands alone, and its records are then those of the single
steps. If not, the error is that of the first step that is not read alone, with the index at which
this step stands. -/
theorem ofJson_stepwise (steps : List Json) :
    (∀ members, Wraps members steps →
      ofJson (.object members) = (ofJson (.array steps)).map fun recording =>
        ⟨sourceText (.object members), recording.records⟩) ∧
    (∀ recording, ofJson (.array steps) = .ok recording ↔ recording.source = none ∧
      List.Forall₂ (fun v r => ofJson (.array [v]) = .ok ⟨none, [r]⟩) steps recording.records) ∧
    ((∃ recording, ofJson (.array steps) = .ok recording) ↔
      ∀ v ∈ steps, ∃ recording, ofJson (.array [v]) = .ok recording) ∧
    ∀ error, ofJson (.array steps) = .error error ↔
      ∃ index v own reason, steps[index]? = some v ∧
        (∀ w ∈ steps.take index, ∃ recording, ofJson (.array [w]) = .ok recording) ∧
        ofJson (.array [v]) = .error own ∧ own.invalidStep? = some (0, reason) ∧
        error = own.atStep index ∧ error.invalidStep? = some (index, reason) ∧
        error.message = RecordingError.message.invalid index reason := by
  refine ⟨fun members => ofJson_of_wraps, fun _ => ofJson_array_eq_ok_iff_alone,
    exists_ofJson_array_iff, fun error => ?_⟩
  rw [ofJson_array_eq_error_iff_alone]
  constructor
  · rintro ⟨index, v, own, hv, hbefore, hown, rfl⟩
    obtain ⟨reason, hreason⟩ := exists_reason (alone_eq_error_iff.1 hown)
    have hmoved := RecordingError.invalidStep?_atStep hreason index
    exact ⟨index, v, own, reason, hv, hbefore, hown, hreason, rfl, hmoved,
      RecordingError.message_of_invalidStep? hmoved⟩
  · rintro ⟨index, v, own, reason, hv, hbefore, hown, -, herror, -⟩
    exact ⟨index, v, own, hv, hbefore, hown, herror⟩

/-- A step that is read, one with an event that does not exist, and one that is no object. -/
def mixedSteps : List Json :=
  [.object [("line", .number (.unsigned 2))], .object [("event", .string "teleport")],
    .number (.unsigned 42)]

/-- An object with the steps under the second of the names. What it has under the first is no list,
and under the last it has an empty one. -/
def decoyed : List (String × Json) :=
  [("execution_trace", .array []), ("steps", .array mixedSteps), ("code", .string "x = 1"),
    ("trace", .object [])]

theorem decoyed_stepwise :
    let error := Json.ReadError.shape (.variant "teleport" (Event.names.map Prod.fst))
    Wraps decoyed mixedSteps ∧ ofJson (.array mixedSteps) = .error (.step 1 error) ∧
      ofJson (.object decoyed) = .error (.step 1 error) ∧
      (RecordingError.step 1 error).invalidStep? = some (1, error.message) := by
  intro error
  have hwraps : Wraps decoyed mixedSteps := by
    refine ⟨["trace"], "steps", ["execution_trace"], rfl, rfl, ?_⟩
    rintro other hother items hitems
    cases List.mem_singleton.1 hother
    cases hitems
  obtain ⟨hsame, -, -, herror⟩ := ofJson_stepwise mixedSteps
  have hfails : ofJson (.array mixedSteps) = .error (.step 1 error) := by
    refine (herror _).2 ⟨1, _, .step 0 error, error.message, rfl, ?_, rfl, rfl, rfl, rfl, rfl⟩
    exact List.forall_mem_singleton.2 ⟨_, rfl⟩
  refine ⟨hwraps, hfails, ?_, rfl⟩
  rw [hsame decoyed hwraps, hfails]
  rfl

end Recording
end Retrace

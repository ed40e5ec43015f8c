import Retrace.Proofs.Document.Rereading
import Retrace.Proofs.Recording.Origins
import Retrace.Proofs.Replay.Numbers

/-! Numbers on their way from a recording into a document and back. Those of a recording that was read
from a text are finite, so each text of a document of it is read again; the whole numbers come back,
and of the doubles those whose digits are put together to them. -/
namespace Retrace

/-! ### Numbers of recordings -/

namespace Json

theorem IsFinite.of_mem_parts {v w : Json} (h : v.IsFinite) (hw : w ∈ v.parts) : w.IsFinite := by
  cases h with
  | array h => exact h w hw
  | object h =>
    obtain ⟨m, hm, rfl⟩ := List.mem_map.1 hw
    exact h m hm
  | _ => cases hw

theorem IsFinite.of_contains {v w : Json} (h : v.IsFinite) (hw : Contains v w) : w.IsFinite := by
  induction hw with
  | refl => exact h
  | tail _ hpart ih => exact ih.of_mem_parts hpart

end Json

theorem Slot.isFinite_of_ofJson {v : Json} (hv : v.IsFinite) {s : Slot} (h : ofJson v = .ok s) :
    s.Respects Number.IsFinite := by
  unfold ofJson at h
  split at h
  · cases h; trivial
  · cases h; trivial
  · cases h
    cases hv with
    | number hn => exact hn
  · cases h; trivial
  · cases h; trivial
  · cases h

theorem Record.ReadInside.isFinite {v : Json} (hv : v.IsFinite) {r : Record}
    (h : r.ReadInside v) : r.Respects Number.IsFinite where
  data d hd := by
    obtain rfl | ⟨w, hw, hread⟩ := h.data d hd
    · exact fun n hn => nomatch List.mem_singleton.1 hn
    · exact Datum.isFinite_of_ofJson (hv.of_contains hw) hread
  supplied id c hc s hs := by
    obtain ⟨w, hw, hread⟩ := h.supplied c ((SortedMap.mem_values_iff _ _).2 ⟨id, hc⟩) s hs
    exact Slot.isFinite_of_ofJson (hv.of_contains hw) hread

/-- All numbers in a recording that was read from a text are such that 64 bits can hold them. -/
theorem Recording.isFinite_of_ofText {text : String} {recording : Recording}
    (h : ofText text = .ok recording) : ∀ r ∈ recording.records, r.Respects Number.IsFinite := by
  obtain ⟨v, hv, h⟩ := Except.bind_eq_ok h
  cases hparse : Json.parse text with
  | error e => rw [hparse] at hv; cases hv
  | ok w =>
    rw [hparse] at hv
    cases hv
    exact fun r hr => (readInside_of_ofJson h r hr).isFinite (Json.isFinite_of_parse hparse)

/-! ### Numbers that are shown -/

/-- A slot that shows a bound number as what a function makes of it. -/
def Datum.ShownAs (f : Number → Number) (d : Datum) (s : Slot) : Prop :=
  ∀ n, d = .number n → s = .number (f n)

namespace Snapshot

private theorem ofRecord_shownAs (m : Memory) (r : Record) :
    (ofRecord m r).1.Shows (Datum.ShownAs id) r :=
  (ofRecord_shows_known m r).imp fun d s hknows n hd => by
    subst hd
    exact hknows.of_atom rfl

end Snapshot

/-- Bindings whose slots are replaced. -/
theorem Binds.map {R R' : Datum → Slot → Prop} {entries : List (String × Datum)}
    {bindings : SortedMap String Slot} (h : Binds R entries bindings) {g : Slot → Slot}
    (himp : ∀ d s, R d s → R' d (g s)) : Binds R' entries (bindings.map g) where
  exists_value hslot := by
    rw [SortedMap.get?_map] at hslot
    obtain ⟨s, hs, rfl⟩ := Option.map_eq_some_iff.1 hslot
    obtain ⟨d, hd, hR⟩ := h.exists_value hs
    exact ⟨d, hd, himp d s hR⟩
  exists_slot e he := by
    obtain ⟨s, hs⟩ := h.exists_slot e he
    exact ⟨g s, by rw [SortedMap.get?_map, hs]; rfl⟩

theorem Snapshot.Shows.mapNumbers {f : Number → Number} {r : Record} {s : Snapshot}
    (h : s.Shows (Datum.ShownAs id) r) : (s.mapNumbers f).Shows (Datum.ShownAs f) r := by
  have hmap (d : Datum) (slot : Slot) (hslot : d.ShownAs id slot) :
      d.ShownAs f (slot.mapNumber f) := by
    intro n hd
    rw [hslot n hd]
    rfl
  refine ⟨h.globals.map hmap, ?_⟩
  rw [Snapshot.mapNumbers, List.forall₂_map_right_iff]
  exact h.stack.imp fun a fr hlocals => hlocals.map hmap

/-! ### Survival -/

namespace Number

/-- Whether a number comes back from its text: a whole number does, and a double when the roundings
of its digits and of their product with the power of ten lead to it. -/
def Survives : Number → Prop
  | .double x => Double.scale (Double.written x.units).1 (Double.written x.units).2 = some x.units
  | _ => True

instance : (n : Number) → Decidable n.Survives
  | .double x => inferInstanceAs (Decidable
      (Double.scale (Double.written x.units).1 (Double.written x.units).2 = some x.units))
  | .unsigned _ | .negative _ => .isTrue trivial

theorem reread_eq_iff {n : Number} (h : n.IsFinite) : n.reread = n ↔ n.Survives := by
  cases n with
  | double x => exact (Number.double.injEq _ _).to_iff.trans (Double.reread_eq_iff h)
  | _ => exact iff_of_true rfl trivial

end Number

namespace Recording

private theorem isFinite_doubles {text : String} {recording : Recording}
    (htext : ofText text = .ok recording) {limit : Option Nat} {d : Document}
    (hreplay : replay limit recording.records = .ok d.steps) :
    ∀ x ∈ d.doubles, Double.IsFinite x.units := by
  refine (Document.respects_iff (P := Number.IsFinite) (fun _ => trivial) (fun _ => trivial) d).1 ?_
  rw [(eq_snapshots_of_replay hreplay).1]
  exact snapshots_respects Heap.respects_empty (isFinite_of_ofText htext)

/-- The document of a replayed text is always read again. Each bound number is shown as it was read,
and then as what its own text is read as; that is the same number exactly if it survives. -/
theorem document_reread {text : String} {recording : Recording} (htext : ofText text = .ok recording)
    {limit : Option Nat} {d : Document} (hreplay : replay limit recording.records = .ok d.steps) :
    Document.ofBytes d.text.toUTF8 = .ok d.reread ∧
      (d.reread = d ↔ ∀ x ∈ d.doubles, (Number.double x).Survives) ∧
      (∀ x ∈ d.doubles, x.IsShort → (Number.double x).Survives) ∧
      ∀ (k : Nat) (r : Record), recording.records[k]? = some r →
        (∀ n, .number n ∈ r.data → (n.reread = n ↔ n.Survives)) ∧
        ∃ s s', d.steps[k]? = some s ∧ d.reread.steps[k]? = some s' ∧
          s.Shows (Datum.ShownAs id) r ∧ s'.Shows (Datum.ShownAs Number.reread) r := by
  have hdoubles := isFinite_doubles htext hreplay
  have hsurvives (x : Double) (hx : x ∈ d.doubles) : x.reread = x ↔ (Number.double x).Survives :=
    Double.reread_eq_iff (hdoubles x hx)
  refine ⟨Document.ofBytes_text_reread hdoubles, ?_, ?_, ?_⟩
  · rw [Document.reread_eq_iff]
    exact forall₂_congr hsurvives
  · exact fun x hx hshort => (hsurvives x hx).1 (Double.reread_of_isShort (hdoubles x hx) hshort)
  · intro k r hr
    have hdata (n : Number) (hn : .number n ∈ r.data) : n.IsFinite :=
      (isFinite_of_ofText htext r (List.mem_of_getElem? hr)).data _ hn n (Datum.mem_visits_self _)
    have hs : d.steps[k]? = some (Snapshot.ofRecord (before recording.records k) r).1 := by
      rw [(eq_snapshots_of_replay hreplay).1, getElem?_snapshots, hr]
      rfl
    have hs' : d.reread.steps[k]? =
        some ((Snapshot.ofRecord (before recording.records k) r).1.mapNumbers Number.reread) := by
      rw [Document.reread, Document.mapNumbers, List.getElem?_map, hs]
      rfl
    have hshows := Snapshot.ofRecord_shownAs (before recording.records k) r
    exact ⟨fun n hn => Number.reread_eq_iff (hdata n hn), _, _, hs, hs', hshows, hshows.mapNumbers⟩

/-- The snapshots of the recording in a text, if it can be read and replayed. -/
def replayText? (text : String) : Option (List Snapshot) :=
  (ofText text).toOption.bind fun recording => (replay none recording.records).toOption

private theorem exists_of_replayText? {text : String} {ss : List Snapshot}
    (h : replayText? text = some ss) :
    ∃ recording, ofText text = .ok recording ∧ replay none recording.records = .ok ss := by
  have ok_of_toOption {ε α : Type} {x : Except ε α} {a : α} (hx : x.toOption = some a) :
      x = .ok a := by
    cases x with
    | error e => cases hx
    | ok b => cases hx; rfl
  obtain ⟨recording, hread, hreplay⟩ := Option.bind_eq_some_iff.1 h
  exact ⟨recording, ok_of_toOption hread, ok_of_toOption hreplay⟩

def oneStep (globals : SortedMap String Slot) (heap : Heap) : Document where
  version := Document.currentVersion
  generatedAt := "2024-01-01T00:00:00+00:00"
  totalSteps := 1
  source := none
  steps := [
    { line := 1, event := .step, funcName := "<module>", globals, order := globals.keys, stack := []
      heap, output := "", exception := none }]

/-- Of the doubles that this text binds, one does not survive: the literal behind `x` is read as the
double after one hundred, whose own text is read as one hundred. The greatest is not short. -/
theorem numerals_reread :
    let text := "[\x7b\"globals\":\x7b\"x\":100.00000000000002,\"y\":[0.1,1e23],\"z\":-5\x7d\x7d]"
    let x : Double := ⟨false, 7036874417766401 <<< 1028⟩
    let tenth : Double := ⟨false, 7205759403792794 <<< 1018⟩
    let great : Double := ⟨false, 5960464477539062 <<< 1098⟩
    let globals := SortedMap.ofList [("x", .number (.double x)), ("y", .ref 1),
      ("z", .number (.negative ⟨4, by decide⟩))]
    let d := oneStep globals
      (SortedMap.ofList [(1, .list [.number (.double tenth), .number (.double great)])])
    ∃ recording, ofText text = .ok recording ∧ replay none recording.records = .ok d.steps ∧
      Document.ofBytes d.text.toUTF8 = .ok d.reread ∧ d.reread ≠ d ∧
      d.doubles = [x, tenth, great] ∧ ¬ (Number.double x).Survives ∧
      tenth.IsShort ∧ ¬ great.IsShort ∧ (Number.double great).Survives := by
  intro text x tenth great globals d
  have hreplayed : replayText? text = some d.steps := by decide +kernel
  obtain ⟨recording, htext, hreplay⟩ := exists_of_replayText? hreplayed
  obtain ⟨hread, hiff, -⟩ := document_reread htext hreplay
  have hdoubles : d.doubles = [x, tenth, great] := by decide +kernel
  have hx : ¬ (Number.double x).Survives := by decide +kernel
  refine ⟨recording, htext, hreplay, hread, fun heq => hx (hiff.1 heq x ?_), hdoubles, hx,
    by decide +kernel, by decide +kernel, by decide +kernel⟩
  rw [hdoubles]
  exact List.mem_cons_self

/-- The literal is accepted, and the document of its recording holds the nearest double, written with
digits that stand for no other; the reader makes one hundred of them. -/
theorem after_hundred_lost :
    let text := "[\x7b\"globals\":\x7b\"x\":100.00000000000002\x7d\x7d]"
    let x : Double := ⟨false, 7036874417766401 <<< 1028⟩
    let hundred : Double := ⟨false, 100 * Double.unit⟩
    let document (y : Double) := oneStep (SortedMap.ofList [("x", .number (.double y))]) ∅
    ∃ recording, ofText text = .ok recording ∧
      replay none recording.records = .ok (document x).steps ∧
      (Number.double x).text = "100.00000000000001".toList ∧
      Document.ofBytes (document x).text.toUTF8 = .ok (document hundred) ∧ x ≠ hundred := by
  intro text x hundred document
  have hreplayed : replayText? text = some (document x).steps := by decide +kernel
  obtain ⟨recording, htext, hreplay⟩ := exists_of_replayText? hreplayed
  have hreread : (document x).reread = document hundred := by decide +kernel
  refine ⟨recording, htext, hreplay, by decide +kernel, ?_, by decide +kernel⟩
  rw [← hreread]
  exact Document.ofBytes_text_reread (isFinite_doubles htext hreplay)

end Recording
end Retrace

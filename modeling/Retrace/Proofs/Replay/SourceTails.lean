import Retrace.Proofs.Memory.Twins
import Retrace.Proofs.Replay.Numbering

/-! Recordings that differ only in what comes after the digests of sources. They are replayed alike
as long as the same composite values have equal keys in both: the rest of a source counts nowhere
but in the keys of the values around a callable. -/
namespace Retrace

/-! ### Trimmed records -/

def Scope.trim (s : Scope) : Scope where
  entries := Datum.trimEntries s.entries
  distinct := by
    rw [Datum.names_trimEntries]
    exact s.distinct

def Activation.trim (a : Activation) : Activation := { a with locals := a.locals.map Scope.trim }

def Record.trim (r : Record) : Record :=
  { r with
    globals := r.globals.map Scope.trim
    stack := r.stack.map fun calls => calls.map Activation.trim }

private theorem Scope.get?_trim (s : Scope) (name : String) :
    s.trim.get? name = (s.get? name).map Datum.trim := by
  change (Datum.trimEntries s.entries).lookup name = (s.entries.lookup name).map Datum.trim
  rw [Datum.trimEntries_eq]
  generalize s.entries = entries
  induction entries with
  | nil => rfl
  | cons e es ih =>
    rw [List.map_cons, List.lookup_cons, List.lookup_cons, ih]
    cases name == e.1 <;> rfl

namespace Activation

private theorem scope_trim (a : Activation) : a.trim.scope = a.scope.trim := by
  rw [scope, scope, trim]
  cases a.locals <;> rfl

private theorem declared_trim (a : Activation) : a.trim.declared = a.declared := by
  rw [declared, declared, scope_trim, Scope.names, Scope.trim, Datum.names_trimEntries]
  rfl

private theorem entries_trim (a : Activation) : a.trim.entries = Datum.trimEntries a.entries := by
  rw [entries, entries, Datum.trimEntries_eq, List.map_map, declared_trim, scope_trim]
  refine List.map_congr_left fun name _ => ?_
  rw [Scope.get?_trim, Function.comp_apply]
  cases a.scope.get? name <;> rfl

end Activation

namespace Record

private theorem entries_bindings_trim (r : Record) :
    r.trim.bindings.entries = Datum.trimEntries r.bindings.entries := by
  rw [bindings, bindings, trim]
  cases r.globals <;> rfl

private theorem calls_trim (r : Record) : r.trim.calls = r.calls.map Activation.trim := by
  rw [calls, calls, trim]
  cases r.stack <;> rfl

private theorem globalOrder_trim (r : Record) : r.trim.globalOrder = r.globalOrder := by
  have hnames : r.trim.bindings.names = r.bindings.names := by
    rw [Scope.names, Scope.names, entries_bindings_trim, Datum.names_trimEntries]
  rw [globalOrder, globalOrder, hnames]
  rfl

private theorem data_trim (r : Record) : r.trim.data = r.data.map Datum.trim := by
  rw [data, data, entries_bindings_trim, calls_trim, List.map_append, Datum.values_trimEntries,
    List.flatMap_map, List.map_flatMap]
  simp only [Activation.entries_trim, Datum.values_trimEntries]

end Record

/-! ### One record -/

open Relator (BiUnique)

variable {R : String → String → Prop} {m m' : Memory}

namespace Memory

theorem Twin.encodeBindings (hR : BiUnique R) {entries entries' : List (String × Datum)}
    (htrim : Datum.trimEntries entries = Datum.trimEntries entries')
    (hkeys : List.Forall₂ R ((entries.map Prod.snd).flatMap Datum.keys)
      ((entries'.map Prod.snd).flatMap Datum.keys)) (h : Twin R m m') :
    (m.encodeBindings entries).1 = (m'.encodeBindings entries').1 ∧
      Twin R (m.encodeBindings entries).2 (m'.encodeBindings entries').2 := by
  have hnames : entries.map Prod.fst = entries'.map Prod.fst := by
    rw [← Datum.names_trimEntries, htrim, Datum.names_trimEntries]
  have hvalues : (entries.map Prod.snd).map Datum.trim =
      (entries'.map Prod.snd).map Datum.trim := by
    rw [← Datum.values_trimEntries, htrim, Datum.values_trimEntries]
  obtain ⟨hslots, hm⟩ := h.encodeItems hR hvalues hkeys
  rw [Memory.encodeBindings, Memory.encodeBindings, encodeEntries_eq, encodeEntries_eq, hnames,
    hslots]
  exact ⟨rfl, hm⟩

end Memory

namespace Frame

private theorem ofActivation_twin (hR : BiUnique R) {a a' : Activation} (htrim : a.trim = a'.trim)
    (hkeys : List.Forall₂ R ((a.entries.map Prod.snd).flatMap Datum.keys)
      ((a'.entries.map Prod.snd).flatMap Datum.keys)) (h : Memory.Twin R m m') (position : Nat)
    (active : Bool) :
    (ofActivation m a position active).1 = (ofActivation m' a' position active).1 ∧
      Memory.Twin R (ofActivation m a position active).2 (ofActivation m' a' position active).2 := by
  have hentries : Datum.trimEntries a.entries = Datum.trimEntries a'.entries := by
    rw [← Activation.entries_trim, htrim, Activation.entries_trim]
  have horder : a.declared = a'.declared := by
    rw [← Activation.declared_trim, htrim, Activation.declared_trim]
  obtain ⟨hlocals, hm⟩ := h.encodeBindings hR hentries hkeys
  refine ⟨?_, hm⟩
  change Frame.mk (a.trim.frameId.getD _) (a.trim.funcName.getD _) a.declared
      (m.encodeBindings a.entries).1 (a.trim.parents.getD _) active (a.trim.identity.getD _) =
    (ofActivation m' a' position active).1
  rw [htrim, horder, hlocals]
  rfl

private theorem ofStack_twin (hR : BiUnique R) (idle : Bool) {calls calls' : List Activation}
    (htrim : calls.map Activation.trim = calls'.map Activation.trim)
    (hkeys : List.Forall₂ R ((calls.flatMap fun a => a.entries.map Prod.snd).flatMap Datum.keys)
      ((calls'.flatMap fun a => a.entries.map Prod.snd).flatMap Datum.keys))
    (h : Memory.Twin R m m') (position : Nat) :
    (ofStack idle m position calls).1 = (ofStack idle m' position calls').1 ∧
      Memory.Twin R (ofStack idle m position calls).2 (ofStack idle m' position calls').2 := by
  induction calls generalizing calls' m m' position with
  | nil =>
    cases List.map_eq_nil_iff.1 htrim.symm
    exact ⟨rfl, h⟩
  | cons a rest ih =>
    cases calls' with
    | nil => cases htrim
    | cons a' rest' =>
      obtain ⟨ha, hrest⟩ := List.cons.inj htrim
      have hempty : rest.isEmpty = rest'.isEmpty := by
        rw [← List.isEmpty_map (f := Activation.trim), hrest, List.isEmpty_map]
      have hvalues : (a.entries.map Prod.snd).map Datum.trim =
          (a'.entries.map Prod.snd).map Datum.trim := by
        rw [← Datum.values_trimEntries, ← Activation.entries_trim, ha, Activation.entries_trim,
          Datum.values_trimEntries]
      simp only [List.flatMap_cons, List.flatMap_append] at hkeys
      obtain ⟨hkey, hkeys⟩ :=
        forall₂_of_append (Datum.length_flatMap_keys_of_trim hvalues).symm hkeys
      obtain ⟨hframe, hm⟩ := ofActivation_twin hR ha hkey h position (rest.isEmpty && !idle)
      obtain ⟨hframes, hm⟩ := ih hrest hkeys hm (position + 1)
      rw [ofStack, ofStack, ← hempty]
      exact ⟨List.cons_eq_cons.2 ⟨hframe, hframes⟩, hm⟩

private theorem ofActivations_twin (hR : BiUnique R) (event : Event)
    {calls calls' : List Activation}
    (htrim : calls.map Activation.trim = calls'.map Activation.trim)
    (hkeys : List.Forall₂ R ((calls.flatMap fun a => a.entries.map Prod.snd).flatMap Datum.keys)
      ((calls'.flatMap fun a => a.entries.map Prod.snd).flatMap Datum.keys))
    (h : Memory.Twin R m m') :
    (ofActivations m event calls).1 = (ofActivations m' event calls').1 ∧
      Memory.Twin R (ofActivations m event calls).2 (ofActivations m' event calls').2 :=
  ofStack_twin hR _ htrim hkeys h 0

end Frame

namespace Snapshot

/-- The fields that trimming leaves alone are those of the trimmed record. -/
private theorem ofRecord_eq (m : Memory) (r : Record) :
    ofRecord m r =
      (⟨r.trim.line.getD Record.defaultLine, r.trim.finalEvent,
          r.trim.funcName.getD Record.moduleName,
          ((arrive m r).encodeBindings r.bindings.entries).1, r.globalOrder,
          (Frame.ofActivations ((arrive m r).encodeBindings r.bindings.entries).2
            r.trim.finalEvent r.calls).1,
          (Frame.ofActivations ((arrive m r).encodeBindings r.bindings.entries).2
            r.trim.finalEvent r.calls).2.heap,
          r.trim.output.getD "", r.trim.exception⟩,
        (Frame.ofActivations ((arrive m r).encodeBindings r.bindings.entries).2
          r.trim.finalEvent r.calls).2) := rfl

/-- Records that are trimmed alike have the same snapshot in twin memories. -/
theorem ofRecord_twin (hR : BiUnique R) {r r' : Record} (htrim : r.trim = r'.trim)
    (hkeys : List.Forall₂ R (r.data.flatMap Datum.keys) (r'.data.flatMap Datum.keys))
    (h : Memory.Twin R m m') :
    (ofRecord m r).1 = (ofRecord m' r').1 ∧
      Memory.Twin R (ofRecord m r).2 (ofRecord m' r').2 := by
  have hentries : Datum.trimEntries r.bindings.entries = Datum.trimEntries r'.bindings.entries := by
    rw [← Record.entries_bindings_trim, htrim, Record.entries_bindings_trim]
  have hcalls : r.calls.map Activation.trim = r'.calls.map Activation.trim := by
    rw [← Record.calls_trim, htrim, Record.calls_trim]
  have horder : r.globalOrder = r'.globalOrder := by
    rw [← Record.globalOrder_trim, htrim, Record.globalOrder_trim]
  have hsupplied : r.supplied = r'.supplied := by
    change r.trim.supplied = r'.trim.supplied
    rw [htrim]
  have hvalues : (r.bindings.entries.map Prod.snd).map Datum.trim =
      (r'.bindings.entries.map Prod.snd).map Datum.trim := by
    rw [← Datum.values_trimEntries, hentries, Datum.values_trimEntries]
  have harrive : Memory.Twin R (arrive m r) (arrive m' r') := by
    rw [arrive_eq, arrive_eq, hsupplied]
    exact h.merge _
  rw [Record.data, Record.data, List.flatMap_append, List.flatMap_append] at hkeys
  obtain ⟨hglobal, hlocal⟩ :=
    forall₂_of_append (Datum.length_flatMap_keys_of_trim hvalues).symm hkeys
  obtain ⟨hglobals, hm⟩ := harrive.encodeBindings hR hentries hglobal
  obtain ⟨hstack, hm⟩ := Frame.ofActivations_twin hR r'.trim.finalEvent hcalls hlocal hm
  rw [ofRecord_eq, ofRecord_eq, htrim, hglobals, horder, hstack, hm.heap_eq]
  exact ⟨rfl, hm⟩

end Snapshot

/-! ### Whole recordings -/

namespace Recording

variable {records records' : List Record}

/-- Lists in which keys at two places are equal in one exactly if they are in the other. -/
def SamePattern (keys keys' : List String) : Prop :=
  ∀ p ∈ keys.zip keys', ∀ q ∈ keys.zip keys', p.1 = q.1 ↔ p.2 = q.2

instance (keys keys' : List String) : Decidable (SamePattern keys keys') :=
  inferInstanceAs (Decidable (∀ p ∈ keys.zip keys', ∀ q ∈ keys.zip keys', p.1 = q.1 ↔ p.2 = q.2))

private theorem SamePattern.biUnique {keys keys' : List String} (h : SamePattern keys keys') :
    BiUnique fun key key' => (key, key') ∈ keys.zip keys' :=
  ⟨fun _ _ _ ha hb => (h _ ha _ hb).2 rfl, fun _ _ _ ha hb => (h _ ha _ hb).1 rfl⟩

private theorem keys_cons (r : Record) (rest : List Record) :
    keys (r :: rest) = r.data.flatMap Datum.keys ++ keys rest := by
  rw [← List.singleton_append, keys_append, keys_singleton]

theorem length_keys_eq_of_trim (htrim : records.map Record.trim = records'.map Record.trim) :
    (keys records).length = (keys records').length := by
  induction records generalizing records' with
  | nil =>
    cases List.map_eq_nil_iff.1 htrim.symm
    rfl
  | cons r rest ih =>
    cases records' with
    | nil => cases htrim
    | cons r' rest' =>
      obtain ⟨hr, hrest⟩ := List.cons.inj htrim
      have hdata : r.data.map Datum.trim = r'.data.map Datum.trim := by
        rw [← Record.data_trim, hr, Record.data_trim]
      rw [keys_cons, keys_cons, List.length_append, List.length_append, ih hrest,
        Datum.length_flatMap_keys_of_trim hdata]

private theorem replayFrom_twin (hR : BiUnique R)
    (htrim : records.map Record.trim = records'.map Record.trim)
    (hkeys : List.Forall₂ R (keys records) (keys records')) (h : Memory.Twin R m m')
    (index : Nat) : replayFrom m index records = replayFrom m' index records' := by
  induction records generalizing records' m m' index with
  | nil =>
    cases List.map_eq_nil_iff.1 htrim.symm
    rfl
  | cons r rest ih =>
    cases records' with
    | nil => cases htrim
    | cons r' rest' =>
      obtain ⟨hr, hrest⟩ := List.cons.inj htrim
      have hdata : r.data.map Datum.trim = r'.data.map Datum.trim := by
        rw [← Record.data_trim, hr, Record.data_trim]
      rw [keys_cons, keys_cons] at hkeys
      obtain ⟨hkey, hkeys⟩ :=
        forall₂_of_append (Datum.length_flatMap_keys_of_trim hdata).symm hkeys
      obtain ⟨hsnapshot, hm⟩ := Snapshot.ofRecord_twin hR hr hkey h
      rw [replayFrom_cons, replayFrom_cons, hsnapshot, ih hrest hkeys hm]

/-- Recordings that differ only in what comes after the digests of sources are replayed alike if any
two composite values have equal keys in one exactly when they have in the other. -/
theorem replay_eq_of_trim (limit : Option Nat)
    (htrim : records.map Record.trim = records'.map Record.trim)
    (hkeys : SamePattern (keys records) (keys records')) :
    replay limit records = replay limit records' := by
  have hfrom : replayFrom ∅ 0 records = replayFrom ∅ 0 records' := by
    refine replayFrom_twin hkeys.biUnique htrim ?_ (Memory.twin_empty _) 0
    exact List.forall₂_iff_zip.2 ⟨length_keys_eq_of_trim htrim, fun h => h⟩
  have hlength : records.length = records'.length := by
    rw [← List.length_map (f := Record.trim), htrim, List.length_map]
  cases limit with
  | none => exact hfrom
  | some limit => rw [replay, replay, hfrom, hlength]

/-- A callable of which only the end of the source is given. -/
def ending (last : String) : Datum :=
  .function "f" ("x => x * x * x * x * x * x * x * x * x * x * x * x" ++ last)

private theorem trim_ending (last last' : String) : (ending last).trim = (ending last').trim := by
  rw [ending, ending, Datum.trim, Datum.trim, Datum.digest_append (by decide +kernel),
    Datum.digest_append (by decide +kernel)]

/-- Two lists, each with a callable in it, and a callable itself. -/
def bound (inFirst inSecond alone : String) : Scope :=
  Scope.ofList [("a", .list [ending inFirst]), ("b", .list [ending inSecond]), ("f", ending alone)]

def endings (inFirst inSecond alone : String) : List Record :=
  [{ Record.blank with globals := some (bound inFirst inSecond alone) }]

private theorem trim_endings (a b c a' b' c' : String) :
    (endings a b c).map Record.trim = (endings a' b' c').map Record.trim := by
  have hlist (last last' : String) :
      (Datum.list [ending last]).trim = (Datum.list [ending last']).trim := by
    rw [Datum.trim, Datum.trim, Datum.trimItems_eq, Datum.trimItems_eq, List.map_singleton,
      List.map_singleton, trim_ending last last']
  have hscope : (bound a b c).trim = (bound a' b' c').trim := by
    rw [Scope.trim, Scope.trim, Scope.mk.injEq]
    change [("a", (Datum.list [ending a]).trim), ("b", (Datum.list [ending b]).trim),
      ("f", (ending c).trim)] = [("a", (Datum.list [ending a']).trim),
      ("b", (Datum.list [ending b']).trim), ("f", (ending c').trim)]
    rw [hlist a a', hlist b b', trim_ending c c']
  change [{ Record.blank with globals := some (bound a b c).trim }] =
    [{ Record.blank with globals := some (bound a' b' c').trim }]
  rw [hscope]

theorem endings_alike :
    (endings "1" "1" "1").map Record.trim = (endings "2" "2" "3").map Record.trim ∧
      SamePattern (keys (endings "1" "1" "1")) (keys (endings "2" "2" "3")) ∧
      replay none (endings "1" "1" "1") = replay none (endings "2" "2" "3") := by
  have htrim := trim_endings "1" "1" "1" "2" "2" "3"
  have hkeys : SamePattern (keys (endings "1" "1" "1")) (keys (endings "2" "2" "3")) := by
    decide +kernel
  exact ⟨htrim, hkeys, replay_eq_of_trim none htrim hkeys⟩

/-- Lists that are equal share a cell, but not once a source in one of them ends differently. -/
theorem endings_differ :
    (endings "1" "1" "1").map Record.trim = (endings "1" "2" "1").map Record.trim ∧
      replay none (endings "1" "1" "1") ≠ replay none (endings "1" "2" "1") :=
  ⟨trim_endings _ _ _ _ _ _, by decide +kernel⟩

end Recording
end Retrace

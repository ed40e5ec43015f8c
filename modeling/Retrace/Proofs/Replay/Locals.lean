import Retrace.Proofs.Memory.Known
import Retrace.Proofs.Replay.Representation

/-! Which bindings are shown. Every global is, whatever order is declared; a local is when its call
declares no order or names it in the order. A local that is left out leaves no trace in memory. -/
namespace Retrace

open Memory (Knows)

namespace Activation

/-- The order of a call, if it has one, names a local. -/
def Lists (a : Activation) (name : String) : Prop :=
  ∀ order, a.order = some order → name ∈ order

def bind (a : Activation) (name : String) (d : Datum) : Activation :=
  { a with locals := some (a.scope.insert name d) }

variable {a : Activation} {name : String}

private theorem Lists.mem_declared (h : a.Lists name) {d : Datum}
    (hd : a.scope.get? name = some d) : name ∈ a.declared := by
  rw [declared]
  cases horder : a.order with
  | some order => exact h order horder
  | none => exact List.mem_map_of_mem ((Scope.get?_eq_some_iff _ _ _).1 hd)

private theorem notMem_declared (h : ¬ a.Lists name) : name ∉ a.declared := by
  intro hname
  refine h fun order horder => ?_
  rwa [declared, horder] at hname

private theorem declared_bind (h : ¬ a.Lists name) (d : Datum) :
    (a.bind name d).declared = a.declared := by
  have horder : (a.bind name d).order = a.order := rfl
  rw [declared, declared, horder]
  cases ho : a.order with
  | some order => rfl
  | none => exact absurd (fun order ho' => nomatch ho.symm.trans ho') h

/-- A local that the order leaves out is none of those that are encoded. -/
theorem entries_bind (h : ¬ a.Lists name) (d : Datum) : (a.bind name d).entries = a.entries := by
  rw [entries, entries, declared_bind h]
  refine List.map_congr_left fun n hn => ?_
  have hne : n ≠ name := fun heq => notMem_declared h (heq ▸ hn)
  have hscope : (a.bind name d).scope = a.scope.insert name d := rfl
  have hget : (a.bind name d).scope.get? n = a.scope.get? n := by
    rw [hscope, Scope.get?_insert, beq_false_of_ne hne]
    rfl
  rw [hget]

end Activation

namespace Frame

variable {a : Activation} {name : String}

private theorem ofActivation_binds (m : Memory) (a : Activation) (position : Nat) (active : Bool) :
    Binds (Knows (ofActivation m a position active).2) a.entries
      (ofActivation m a position active).1.locals := by
  rw [ofActivation_memory]
  exact Memory.encodeBindings_binds (Memory.encodeItems_knows m _)

private theorem contains_locals_iff (m : Memory) (a : Activation) (position : Nat) (active : Bool) :
    (ofActivation m a position active).1.locals.contains name = true ↔ name ∈ a.declared := by
  have hbinds := ofActivation_binds m a position active
  rw [SortedMap.contains_iff]
  constructor
  · rintro ⟨slot, hslot⟩
    obtain ⟨d, hd, -⟩ := hbinds.exists_value hslot
    exact (Activation.mem_entries.1 hd).1
  · intro hname
    exact hbinds.exists_slot _ (Activation.mem_entries.2 ⟨hname, rfl⟩)

/-- To bind a local that the order leaves out changes neither the frame nor memory. -/
theorem ofActivation_bind (h : ¬ a.Lists name) (d : Datum) (m : Memory) (position : Nat)
    (active : Bool) :
    ofActivation m (a.bind name d) position active = ofActivation m a position active := by
  have hframe (b : Activation) : ofActivation m b position active =
      ({ id := b.frameId.getD (position + 1).toUInt64
         funcName := b.funcName.getD defaultFuncName
         order := b.declared
         locals := (m.encodeBindings b.entries).1
         parents := b.parents.getD []
         highlighted := active
         identity := b.identity.getD ("frame_" ++ toString position) },
        (m.encodeBindings b.entries).2) := rfl
  rw [hframe, hframe, Activation.entries_bind h, Activation.declared_bind h]
  rfl

end Frame

/-- Every global is shown by a slot that memory knows its value by, and so is every local of a call
that declares no order or names it there. Any other local is not shown, and it is the same as if it
were not bound. -/
theorem bindings_shown (m : Memory) :
    (∀ (r : Record) (name : String) (d : Datum), r.bindings.get? name = some d →
      ∃ slot, (Snapshot.ofRecord m r).1.globals.get? name = some slot ∧
        Knows (Snapshot.ofRecord m r).2 d slot) ∧
    ∀ (a : Activation) (position : Nat) (active : Bool) (name : String) (d : Datum),
      (a.Lists name → a.scope.get? name = some d →
        ∃ slot, (Frame.ofActivation m a position active).1.locals.get? name = some slot ∧
          Knows (Frame.ofActivation m a position active).2 d slot) ∧
      (¬ a.Lists name →
        (Frame.ofActivation m a position active).1.locals.contains name = false ∧
        Frame.ofActivation m (a.bind name d) position active =
          Frame.ofActivation m a position active) := by
  refine ⟨fun r name d hd => ?_, fun a position active name d => ⟨fun h hd => ?_, fun h => ⟨?_, ?_⟩⟩⟩
  · exact Scope.get?_of_binds (Snapshot.ofRecord_shows_known m r).globals hd
  · exact Activation.get?_of_binds (Frame.ofActivation_binds m a position active)
      (h.mem_declared hd) hd
  · rw [Bool.eq_false_iff, Ne, Frame.contains_locals_iff]
    exact Activation.notMem_declared h
  · exact Frame.ofActivation_bind h d m position active

def twoBindings : Scope :=
  Scope.ofList [("xs", .list [.number (.unsigned 1)]), ("n", .number (.unsigned 2))]

/-- A call with two locals that declares one of them. -/
def oneDeclared : Activation := ⟨none, none, some twoBindings, some ["n"], none, none⟩

theorem oneDeclared_shown :
    let r := { Record.blank with globals := some twoBindings, order := some ["n"] }
    let frame := Frame.ofActivation ∅ oneDeclared 0 true
    (∃ slot, (Snapshot.ofRecord ∅ r).1.globals.get? "xs" = some slot ∧
      Knows (Snapshot.ofRecord ∅ r).2 (.list [.number (.unsigned 1)]) slot) ∧
    (∃ slot, frame.1.locals.get? "n" = some slot ∧ Knows frame.2 (.number (.unsigned 2)) slot) ∧
    frame.1.locals.contains "xs" = false ∧
    Frame.ofActivation ∅ (oneDeclared.bind "xs" .null) 0 true = frame := by
  have hn : oneDeclared.Lists "n" := fun order ho => by cases ho; decide
  have hxs : ¬ oneDeclared.Lists "xs" := fun h => absurd (h ["n"] rfl) (by decide)
  obtain ⟨hglobal, hlocal⟩ := bindings_shown ∅
  obtain ⟨hlost, hsame⟩ := (hlocal oneDeclared 0 true "xs" .null).2 hxs
  exact ⟨hglobal _ "xs" _ rfl, (hlocal oneDeclared 0 true "n" _).1 hn rfl, hlost, hsame⟩

namespace Recording

/-- A recording whose only call has two locals and declares one of them. -/
def undeclared : Json :=
  .array [.object [("stack_to_render", .array [.object
    [("locals", .object [("xs", .array [.number (.unsigned 1)]), ("n", .number (.unsigned 2))]),
      ("ordered_varnames", .array [.string "n"])]])]]

/-- The local that is not declared is gone from the frame, and its list from the heap. -/
theorem undeclared_lost : ∃ r ss s f, ofJson undeclared = .ok ⟨none, [r]⟩ ∧
    r.calls.map (fun a => a.scope.names) = [["xs", "n"]] ∧ replay none [r] = .ok ss ∧
    ss[0]? = some s ∧ s.stack[0]? = some f ∧ f.locals.get? "xs" = none ∧ s.heap = ∅ := by
  let r := { Record.blank with stack := some [oneDeclared] }
  have hreplay : replay none [r] = .ok (snapshots ∅ [r]) := replay_of_no_dangling (by decide)
  exact ⟨r, _, _, _, rfl, rfl, hreplay, rfl, rfl, rfl, rfl⟩

end Recording
end Retrace

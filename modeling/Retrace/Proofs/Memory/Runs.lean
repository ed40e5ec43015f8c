import Retrace.Proofs.Memory.Merging

/-! Runs of memory: values are encoded, numbers reserved, identities forgotten and cells laid over the
heap, in any order. Memory stays sound all along, and identities are lost only by what overwrites
their cells. -/
namespace Retrace.Memory

/-- What is done with memory. -/
inductive Action
  | encode (d : Datum)
  | reserve (id : HeapId)
  | forget (overwritten : List HeapId)
  | merge (supplied : Heap)

def Action.data : Action → List Datum
  | .encode d => d.visits
  | _ => []

/-- Whether nothing on the heap is overwritten. -/
def Action.Spares (m : Memory) : Action → Prop
  | .forget overwritten => overwritten = []
  | .merge supplied => m.heap.Agrees supplied
  | _ => True

def act (m : Memory) : Action → Memory
  | .encode d => (m.encode d).2
  | .reserve id => { m with interner := m.interner.reserve id }
  | .forget overwritten => { m with interner := m.interner.forget overwritten m.heap }
  | .merge supplied => m.merge supplied

def run (m : Memory) (actions : List Action) : Memory := actions.foldl act m

def ahead (actions : List Action) (k : Nat) : Memory := (∅ : Memory).run (actions.take k)

variable {data : Set Datum} {m : Memory} {actions : List Action}

theorem run_append (m : Memory) (actions more : List Action) :
    m.run (actions ++ more) = (m.run actions).run more :=
  List.foldl_append

theorem ahead_succ {k : Nat} {a : Action} (h : actions[k]? = some a) :
    ahead actions (k + 1) = (ahead actions k).act a := by
  rw [ahead, List.take_add_one, h, run_append]
  rfl

/-! ### One action -/

theorem Stored.forget (h : Stored ∅ m) (overwritten : List HeapId) :
    Stored ∅ (m.act (.forget overwritten)) where
  distinct := h.distinct.sublist ((Interner.forget_table_sublist _ _ _).map _)
  cell e he := h.cell e (Interner.mem_forget_table.1 he).1

private theorem Sound.identities_forget (h : Sound data ∅ m) (overwritten : List HeapId) :
    (m.act (.forget overwritten)).interner.Distinct :=
  h.identities.of_sublist (Interner.forget_table_sublist _ _ _)
    (Nat.le_of_eq (Interner.forget_next _ _ _).symm)

/-- What is remembered after forgetting leads only to what is still remembered. -/
theorem Sound.forget (h : Sound data ∅ m) (overwritten : List HeapId) :
    Sound data ∅ (m.act (.forget overwritten)) where
  distinct := (h.identities_forget overwritten).keys_nodup
  known_nodup := (h.identities_forget overwritten).known_nodup
  known_lt := (h.identities_forget overwritten).known_lt
  heap_lt id hid := by
    rw [act, Interner.forget_next]
    exact h.heap_lt id hid
  built e he hpending := by
    obtain ⟨d, hd, hcomp, hkey, hbuilt⟩ := h.built e (Interner.mem_forget_table.1 he).1 hpending
    refine ⟨d, hd, hcomp, hkey, hbuilt.of_same (fun old hold => ?_) fun new hnew e' he' href => ?_⟩
    · exact ⟨old, hold, Cell.same_refl old⟩
    · exact Interner.mem_forget_table.2 ⟨he', Interner.not_stale_of_reference he hnew href⟩

theorem Stored.act (h : Stored ∅ m) (a : Action) : Stored ∅ (m.act a) := by
  cases a with
  | encode d => exact (encode_grows d h).2
  | reserve id => exact ⟨h.distinct, h.cell⟩
  | forget overwritten => exact h.forget overwritten
  | merge supplied => exact h.merge supplied

theorem next_le_act (h : Stored ∅ m) (a : Action) : m.interner.next ≤ (m.act a).interner.next := by
  cases a with
  | encode d => exact (encode_grows d h).1.next_le
  | reserve id => exact Interner.next_le_reserve _ _
  | forget overwritten => exact Nat.le_of_eq (Interner.forget_next _ _ _).symm
  | merge supplied => exact merge_next_le m supplied

theorem Sound.act (h : Sound data ∅ m) {a : Action} (hdata : ∀ p ∈ a.data, p ∈ data)
    (hnext : (m.act a).interner.next < UInt64.size) : Sound data ∅ (m.act a) := by
  cases a with
  | encode d => exact (encode_sound hdata h hnext).1
  | reserve id =>
    have hle := next_le_act h.stored (.reserve id)
    exact ⟨h.distinct, h.known_nodup, fun e he => Nat.lt_of_lt_of_le (h.known_lt e he) hle,
      fun k hk => Nat.le_trans (h.heap_lt k hk) hle, h.built⟩
  | forget overwritten => exact h.forget overwritten
  | merge supplied => exact h.merge supplied

/-- Where nothing is overwritten, nothing is forgotten. -/
theorem table_act (h : Stored ∅ m) {a : Action} (hspares : a.Spares m) {e : String × HeapId}
    (he : e ∈ m.interner.table) : e ∈ (m.act a).interner.table := by
  cases a with
  | encode d => exact (encode_grows d h).1.table e he
  | reserve id => exact he
  | forget overwritten =>
    cases hspares
    exact he
  | merge supplied =>
    rw [act, merge_table_of_agrees hspares]
    exact he

/-! ### Many actions -/

theorem Stored.run (h : Stored ∅ m) (actions : List Action) : Stored ∅ (m.run actions) := by
  induction actions generalizing m with
  | nil => exact h
  | cons a actions ih => exact ih (h.act a)

theorem next_le_run (h : Stored ∅ m) (actions : List Action) :
    m.interner.next ≤ (m.run actions).interner.next := by
  induction actions generalizing m with
  | nil => exact Nat.le_refl _
  | cons a actions ih => exact Nat.le_trans (next_le_act h a) (ih (h.act a))

theorem Sound.run (h : Sound data ∅ m) (hdata : ∀ p ∈ actions.flatMap Action.data, p ∈ data)
    (hnext : (m.run actions).interner.next < UInt64.size) : Sound data ∅ (m.run actions) := by
  induction actions generalizing m with
  | nil => exact h
  | cons a actions ih =>
    rw [List.flatMap_cons, List.forall_mem_append] at hdata
    have hle := next_le_run (h.stored.act a) actions
    exact ih (h.act hdata.1 (Nat.lt_of_le_of_lt hle hnext)) hdata.2 hnext

private theorem stored_ahead (actions : List Action) (k : Nat) : Stored ∅ (ahead actions k) :=
  stored_empty.run _

/-- Between positions where nothing is overwritten, no identity is lost. -/
theorem table_ahead {i j : Nat} (hij : i ≤ j) (hj : j ≤ actions.length)
    (hspares : ∀ k a, i ≤ k → k < j → actions[k]? = some a → a.Spares (ahead actions k))
    {e : String × HeapId} (he : e ∈ (ahead actions i).interner.table) :
    e ∈ (ahead actions j).interner.table := by
  induction j, hij using Nat.le_induction with
  | base => exact he
  | succ j hij ih =>
    have ha : actions[j]? = some actions[j] := List.getElem?_eq_getElem hj
    rw [ahead_succ ha]
    refine table_act (stored_ahead actions j) (hspares j _ hij (Nat.lt_succ_self j) ha) ?_
    exact ih (Nat.le_of_lt hj) fun k a hk hlt => hspares k a hk (Nat.lt_succ_of_lt hlt)

end Retrace.Memory

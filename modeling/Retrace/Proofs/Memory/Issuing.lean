import Retrace.Proofs.Memory.Callables

/-! The numbers that an interner gives out over its life: values are encoded into heaps of whatever
contents, numbers reserved and identities forgotten, in any order. Until the counter ends, a number
that is given out for a new key is greater than all that were given out or reserved before. So it
belongs to this one key, even after the key was forgotten. -/
namespace Retrace

private theorem Memory.reference?_snd (m : Memory) (d : Datum) :
    (m.reference? d).2 = (m.encode d).2 := by
  rw [reference?]
  split
  · rfl
  · next h => rw [encode_of_atom m (by simpa using h)]

namespace Interner

/-! ### Calls -/

/-- What an interner is called for. Each call may come with another heap. -/
inductive Call
  | encode (d : Datum) (heap : Heap)
  | intern (d : Datum) (heap : Heap)
  | reserve (id : HeapId)
  | forget (overwritten : List HeapId) (heap : Heap)

def act (i : Interner) : Call → Interner
  | .encode d heap => (Memory.encode ⟨i, heap⟩ d).2.interner
  | .intern d heap => (Memory.reference? ⟨i, heap⟩ d).2.interner
  | .reserve id => i.reserve id
  | .forget overwritten heap => i.forget overwritten heap

def run (i : Interner) (calls : List Call) : Interner := calls.foldl act i

def ahead (calls : List Call) (k : Nat) : Interner := (∅ : Interner).run (calls.take k)

/-- A number that was given out for a new key, or up to which numbers were reserved. -/
inductive Mark
  | issued (key : String) (id : HeapId)
  | reserved (id : HeapId)
deriving DecidableEq

def Mark.id : Mark → HeapId
  | .issued _ id | .reserved id => id

/-- The keys that are remembered later only, with their numbers, in the order in which they came. -/
def added (i later : Interner) : List (String × HeapId) :=
  (later.table.filter fun e => (i.find? e.1).isNone).reverse

def Call.marks (i : Interner) : Call → List Mark
  | .reserve id => [.reserved id]
  | c => (added i (i.act c)).map fun e => .issued e.1 e.2

def ledger (i : Interner) : List Call → List Mark
  | [] => []
  | c :: calls => c.marks i ++ ledger (i.act c) calls

/-- In the course of the call at a position, a value is encoded in a memory: the value of the call,
or one inside. -/
def Reaches (calls : List Call) (k : Nat) (m : Memory) (q : Datum) : Prop :=
  ∃ d heap, (calls[k]? = some (.encode d heap) ∨ calls[k]? = some (.intern d heap)) ∧
    Memory.Encodes ⟨ahead calls k, heap⟩ d m q

def GivesOut (calls : List Call) (k : Nat) (key : String) (id : HeapId) : Prop :=
  ∃ m q, Reaches calls k m q ∧ q.isComposite = true ∧ q.key = key ∧ (m.encode q).1 = .ref id

theorem run_append (i : Interner) (calls more : List Call) :
    i.run (calls ++ more) = (i.run calls).run more :=
  List.foldl_append

private theorem ledger_append (i : Interner) (calls more : List Call) :
    ledger i (calls ++ more) = ledger i calls ++ ledger (i.run calls) more := by
  induction calls generalizing i with
  | nil => rfl
  | cons c calls ih =>
    rw [List.cons_append, ledger, ih, ledger, List.append_assoc]
    rfl

theorem ahead_succ {calls : List Call} {k : Nat} {c : Call} (h : calls[k]? = some c) :
    ahead calls (k + 1) = (ahead calls k).act c := by
  rw [ahead, List.take_add_one, h, run_append]
  rfl

private theorem act_intern (i : Interner) (d : Datum) (heap : Heap) :
    i.act (.intern d heap) = i.act (.encode d heap) :=
  congrArg Memory.interner (Memory.reference?_snd ⟨i, heap⟩ d)

/-- The counter never decreases. -/
theorem next_le_act (i : Interner) (c : Call) : i.next ≤ (i.act c).next := by
  cases c with
  | encode d heap => exact (Memory.encode_extends ⟨i, heap⟩ d).next_le
  | intern d heap =>
    rw [act_intern]
    exact (Memory.encode_extends ⟨i, heap⟩ d).next_le
  | reserve id => exact next_le_reserve _ _
  | forget overwritten heap => exact Nat.le_of_eq (forget_next _ _ _).symm

theorem next_le_run (i : Interner) (calls : List Call) : i.next ≤ (i.run calls).next := by
  induction calls generalizing i with
  | nil => exact Nat.le_refl _
  | cons c calls ih => exact Nat.le_trans (next_le_act i c) (ih _)

private theorem next_ahead_le_run (calls : List Call) (k : Nat) :
    (ahead calls k).next ≤ ((∅ : Interner).run calls).next := by
  have hrun : (∅ : Interner).run calls = (ahead calls k).run (calls.drop k) := by
    rw [ahead, ← run_append, List.take_append_drop]
  rw [hrun]
  exact next_le_run _ _

private theorem next_ahead_mono (calls : List Call) {j k : Nat} (h : j ≤ k) :
    (ahead calls j).next ≤ (ahead calls k).next := by
  have hahead : ahead (calls.take k) j = ahead calls j := by
    rw [ahead, ahead, List.take_take, Nat.min_eq_left h]
  rw [← hahead]
  exact next_ahead_le_run (calls.take k) j

/-! ### New keys -/

/-- Keys that are new are remembered one after the other, each under the next number. -/
inductive Issues : Interner → List (String × HeapId) → Interner → Prop
  | done (i : Interner) : Issues i [] i
  | new {i i' : Interner} {key : String} {issued : List (String × HeapId)}
      (h : i.find? key = none) (rest : Issues (i.allocate key).2 issued i') :
      Issues i ((key, i.counter) :: issued) i'

variable {i i' i'' : Interner} {issued more : List (String × HeapId)}

theorem Issues.append (h : Issues i issued i') (h' : Issues i' more i'') :
    Issues i (issued ++ more) i'' := by
  induction h with
  | done _ => exact h'
  | new hkey _ ih => exact .new hkey (ih h')

theorem Issues.next_le (h : Issues i issued i') : i.next ≤ i'.next := by
  induction h with
  | done i => exact Nat.le_refl _
  | new _ _ ih => exact Nat.le_of_succ_le ih

private theorem Issues.table_eq (h : Issues i issued i') :
    i'.table = issued.reverse ++ i.table := by
  induction h with
  | done i => rfl
  | new _ _ ih =>
    rw [ih, List.reverse_cons, List.append_assoc]
    rfl

theorem Issues.find?_eq_none (h : Issues i issued i') : ∀ e ∈ issued, i.find? e.1 = none := by
  induction h with
  | done i => exact List.forall_mem_nil _
  | @new i _ key _ hkey _ ih =>
    refine List.forall_mem_cons.2 ⟨hkey, fun e he => ?_⟩
    have hnone := ih e he
    rw [find?, allocate, List.lookup_cons] at hnone
    split at hnone
    · cases hnone
    · exact hnone

private theorem filter_new_eq_nil {entries : List (String × HeapId)} (h : entries ⊆ i.table) :
    entries.filter (fun e => (i.find? e.1).isNone) = [] := by
  refine List.filter_eq_nil_iff.2 fun e he => ?_
  cases hfind : i.find? e.1 with
  | some id => simp
  | none => exact absurd rfl (key_ne_of_find? hfind (h he))

private theorem Issues.added_eq (h : Issues i issued i') : added i i' = issued := by
  have hnew : issued.reverse.filter (fun e => (i.find? e.1).isNone) = issued.reverse :=
    List.filter_eq_self.2 fun e he => by simp [h.find?_eq_none e (List.mem_reverse.1 he)]
  rw [added, h.table_eq, List.filter_append, hnew, filter_new_eq_nil (List.Subset.refl _),
    List.append_nil, List.reverse_reverse]

private theorem added_of_sublist (h : i'.table.Sublist i.table) : added i i' = [] := by
  rw [added, filter_new_eq_nil h.subset, List.reverse_nil]

/-- The key of a composite value is taken before the keys of its parts. -/
theorem exists_issues (m : Memory) (d : Datum) :
    ∃ issued, Issues m.interner issued (m.encode d).2.interner := by
  induction d using Datum.partsInduction generalizing m with
  | step d ih =>
    cases hcomp : d.isComposite with
    | false => rw [Memory.encode_of_atom m hcomp]; exact ⟨[], .done _⟩
    | true =>
      obtain ⟨id, -, -, heq⟩ | ⟨id, m', hm', heq⟩ := Memory.encode_cases m hcomp
      · rw [heq]
        exact ⟨[], .done _⟩
      · rw [heq]
        obtain ⟨issued, hissued⟩ := Memory.encodeItems_chain
          (R := fun m m' => ∃ issued, Issues m.interner issued m'.interner)
          (fun m => ⟨[], .done m.interner⟩) (fun ⟨_, h⟩ ⟨_, h'⟩ => ⟨_, h.append h'⟩) ih m'
        cases hm' with
        | old _ => exact ⟨issued, hissued⟩
        | new hkey => exact ⟨_, .new hkey hissued⟩

/-! ### Marks -/

/-- The marks tell all that is remembered, the counter is past them, and each number that was given
out is greater than those that were marked before. -/
structure Accounts (i : Interner) (marks : List Mark) : Prop where
  distinct : Distinct i
  issued : ∀ e ∈ i.table, .issued e.1 e.2 ∈ marks
  passed : ∀ mark ∈ marks, min (mark.id.toNat + 1) (UInt64.size - 1) ≤ i.next
  ascending : marks.Pairwise fun mark later => ∀ key id, later = .issued key id → mark.id < id

variable {marks : List Mark}

private theorem accounts_empty : Accounts ∅ [] where
  distinct := distinct_empty
  issued _ h := nomatch h
  passed _ h := nomatch h
  ascending := .nil

/-- What the counter comes to is greater than all that is marked, unless it is the last number. -/
theorem Accounts.lt_of_next_le (h : Accounts i marks) {n : Nat} (hle : i.next ≤ n)
    (hn : n + 1 < UInt64.size) : ∀ mark ∈ marks, mark.id < n.toUInt64 := by
  intro mark hmark
  have hto : n.toUInt64.toNat = n := UInt64.toNat_ofNat_of_lt' (Nat.lt_of_succ_lt hn)
  have hpassed := h.passed mark hmark
  rw [UInt64.lt_iff_toNat_lt, hto]
  omega

theorem Accounts.allocate (h : Accounts i marks) {key : String} (hkey : i.find? key = none)
    (hnext : i.next + 1 < UInt64.size) :
    Accounts (i.allocate key).2 (marks ++ [.issued key i.counter]) := by
  have hto := toNat_counter (Nat.lt_of_succ_lt hnext)
  refine ⟨h.distinct.allocate (Nat.lt_of_succ_lt hnext) hkey, ?issued, ?passed, ?ascending⟩
  case issued =>
    intro e he
    rcases List.mem_cons.1 he with rfl | he
    · exact List.mem_append_right _ List.mem_cons_self
    · exact List.mem_append_left _ (h.issued e he)
  case passed =>
    rw [List.forall_mem_append, List.forall_mem_singleton]
    refine ⟨fun mark hmark => Nat.le_succ_of_le (h.passed mark hmark), ?_⟩
    rw [Mark.id, hto]
    exact Nat.min_le_left _ _
  case ascending =>
    refine List.pairwise_append.2 ⟨h.ascending, List.pairwise_singleton _ _, ?_⟩
    intro mark hmark later hlater key' id heq
    cases List.mem_singleton.1 hlater
    cases heq
    exact h.lt_of_next_le (Nat.le_refl _) hnext mark hmark

private theorem Accounts.issues (h : Accounts i marks) (hissues : Issues i issued i')
    (hnext : i'.next < UInt64.size) :
    Accounts i' (marks ++ issued.map fun e => .issued e.1 e.2) := by
  induction hissues generalizing marks with
  | done i => rwa [List.map_nil, List.append_nil]
  | new hkey hrest ih =>
    have hle := hrest.next_le
    have hstep := ih (h.allocate hkey (Nat.lt_of_le_of_lt hle hnext)) hnext
    rwa [List.append_assoc] at hstep

/-- Dropping identities, or taking the counter on, leaves the marks in force. -/
theorem Accounts.of_sublist (h : Accounts i marks) (hsub : i'.table.Sublist i.table)
    (hnext : i.next ≤ i'.next) : Accounts i' marks where
  distinct := h.distinct.of_sublist hsub hnext
  issued e he := h.issued e (hsub.subset he)
  passed mark hmark := Nat.le_trans (h.passed mark hmark) hnext
  ascending := h.ascending

theorem Accounts.reserve (h : Accounts i marks) (id : HeapId) :
    Accounts (i.reserve id) (marks ++ [.reserved id]) := by
  have hkept : Accounts (i.reserve id) marks :=
    h.of_sublist (List.Sublist.refl _) (next_le_reserve _ _)
  refine ⟨hkept.distinct, fun e he => List.mem_append_left _ (hkept.issued e he), ?_, ?_⟩
  · rw [List.forall_mem_append, List.forall_mem_singleton]
    exact ⟨hkept.passed, reserved_le_next _ _⟩
  · refine List.pairwise_append.2 ⟨hkept.ascending, List.pairwise_singleton _ _, ?_⟩
    intro mark hmark later hlater key id heq
    cases List.mem_singleton.1 hlater
    cases heq

theorem Accounts.encode (h : Accounts i marks) (d : Datum) (heap : Heap)
    (hnext : (i.act (.encode d heap)).next < UInt64.size) :
    Accounts (i.act (.encode d heap)) (marks ++ (Call.encode d heap).marks i) := by
  obtain ⟨issued, hissues⟩ := exists_issues ⟨i, heap⟩ d
  have hadded : added i (i.act (.encode d heap)) = issued := hissues.added_eq
  rw [Call.marks, hadded]
  · exact h.issues hissues hnext
  · nofun

theorem Accounts.act (h : Accounts i marks) (c : Call) (hnext : (i.act c).next < UInt64.size) :
    Accounts (i.act c) (marks ++ c.marks i) := by
  cases c with
  | encode d heap => exact h.encode d heap hnext
  | intern d heap =>
    have hmarks : (Call.intern d heap).marks i = (Call.encode d heap).marks i := by
      simp only [Call.marks, act_intern]
    rw [act_intern] at hnext ⊢
    rw [hmarks]
    exact h.encode d heap hnext
  | reserve id => exact h.reserve id
  | forget overwritten heap =>
    have hsub := forget_table_sublist i overwritten heap
    have hmarks : (Call.forget overwritten heap).marks i = [] :=
      congrArg (List.map _) (added_of_sublist hsub)
    rw [hmarks, List.append_nil]
    exact h.of_sublist hsub (Nat.le_of_eq (forget_next _ _ _).symm)

theorem Accounts.run (h : Accounts i marks) {calls : List Call}
    (hnext : (i.run calls).next < UInt64.size) :
    Accounts (i.run calls) (marks ++ ledger i calls) := by
  induction calls generalizing i marks with
  | nil => rwa [ledger, List.append_nil]
  | cons c calls ih =>
    have hstep := h.act c (Nat.lt_of_le_of_lt (next_le_run _ calls) hnext)
    rw [ledger, ← List.append_assoc]
    exact ih hstep hnext

/-- A number was given out for one key only. -/
theorem Accounts.key_eq (h : Accounts i marks) {key key' : String} {id : HeapId}
    (hkey : .issued key id ∈ marks) (hkey' : .issued key' id ∈ marks) : key = key' := by
  have hpairs : marks.Pairwise fun mark later => ∀ key key' id, mark = .issued key id →
      later = .issued key' id → key = key' := by
    refine h.ascending.imp fun {mark later} hlt key key' id hmark hlater => ?_
    have hself := hlt key' id hlater
    rw [hmark] at hself
    exact absurd hself (UInt64.lt_irrefl id)
  have hflip := hpairs.imp fun {_ _} hsym key key' id hmark hlater =>
    (hsym key' key id hlater hmark).symm
  refine List.Pairwise.forall_of_forall_of_flip ?_ hpairs hflip hkey hkey' key key' id rfl rfl
  rintro _ _ key key' id rfl heq
  cases heq
  rfl

private theorem accounts_ahead {calls : List Call}
    (hnext : ((∅ : Interner).run calls).next < UInt64.size) (k : Nat) :
    Accounts (ahead calls k) (ledger ∅ (calls.take k)) :=
  accounts_empty.run (Nat.lt_of_le_of_lt (next_ahead_le_run calls k) hnext)

/-! ### Numbers that are given out -/

section
variable {calls : List Call} {k : Nat} {m : Memory} {q : Datum}

/-- Whatever is encoded in the course of a call comes between the call's start and its end. -/
theorem Reaches.extends (h : Reaches calls k m q) :
    ∃ first last : Memory, first.interner = ahead calls k ∧
      last.interner = ahead calls (k + 1) ∧ first.Extends m ∧ (m.encode q).2.Extends last := by
  obtain ⟨d, heap, hcall, henc⟩ := h
  refine ⟨_, _, rfl, ?_, henc.before, henc.after⟩
  rcases hcall with hcall | hcall
  · exact (ahead_succ hcall).symm
  · rw [ahead_succ hcall, act_intern]
    rfl

theorem Reaches.mem_table (h : Reaches calls k m q) (hq : q.isComposite = true) :
    ∃ id, (m.encode q).1 = .ref id ∧ (q.key, id) ∈ (ahead calls (k + 1)).table := by
  obtain ⟨id, hslot, hid, -⟩ := (Memory.encode_knows m q).of_composite hq
  obtain ⟨_, last, -, hlast, -, hafter⟩ := h.extends
  exact ⟨id, hslot, hlast ▸ hafter.table _ hid⟩

/-- A number for a new key is greater than all that were marked before the call. -/
theorem Reaches.lt_of_new (hnext : ((∅ : Interner).run calls).next < UInt64.size)
    (h : Reaches calls k m q) (hq : q.isComposite = true)
    (hfind : m.interner.find? q.key = none) {id : HeapId} (hid : (m.encode q).1 = .ref id) :
    ∀ mark ∈ ledger ∅ (calls.take k), mark.id < id := by
  have hencode := (Memory.encode_of_composite m hq).trans (Memory.intern_of_new hfind _)
  obtain ⟨first, last, hfirst, hlast, hbefore, hafter⟩ := h.extends
  have hle : (ahead calls k).next ≤ m.interner.next := hfirst ▸ hbefore.next_le
  have hlt : m.interner.next + 1 ≤ (ahead calls (k + 1)).next := by
    rw [← hlast]
    refine Nat.le_trans ?_ hafter.next_le
    rw [hencode]
    exact (Memory.encodeItems_extends (m.remember q.key) q.parts).next_le
  have hsize := Nat.lt_of_le_of_lt (next_ahead_le_run calls (k + 1)) hnext
  rw [hencode] at hid
  cases hid
  exact (accounts_ahead hnext k).lt_of_next_le hle (Nat.lt_of_le_of_lt hlt hsize)

/-- Whatever an interner is called for, with whatever heaps: until the counter ends, it never
decreases, and the remembered numbers are distinct and below it. Numbers for new keys are greater
than all that were given out or reserved before. Each composite value that is met in a call, at any
depth, is given a number, which is marked for its key by then; it is greater than all that were
marked before the call if the key is new. No number is ever given out for two keys. -/
theorem numbers_unique (hnext : ((∅ : Interner).run calls).next < UInt64.size) :
    (∀ j k, j ≤ k → (ahead calls j).next ≤ (ahead calls k).next) ∧
      (∀ k, (ahead calls k).known.Nodup ∧
        ∀ id ∈ (ahead calls k).known, id.toNat < (ahead calls k).next) ∧
      (ledger ∅ calls).Pairwise
        (fun mark later => ∀ key id, later = .issued key id → mark.id < id) ∧
      (∀ k m q, Reaches calls k m q → q.isComposite = true →
        ∃ id, (m.encode q).1 = .ref id ∧ .issued q.key id ∈ ledger ∅ (calls.take (k + 1)) ∧
          (m.interner.find? q.key = none → ∀ mark ∈ ledger ∅ (calls.take k), mark.id < id)) ∧
      ∀ j k key key' id, GivesOut calls j key id → GivesOut calls k key' id → key = key' := by
  have haccounts : Accounts _ (ledger ∅ calls) := accounts_empty.run hnext
  have hmarked (k m q) (h : Reaches calls k m q) (hq : q.isComposite = true) :
      ∃ id, (m.encode q).1 = .ref id ∧ .issued q.key id ∈ ledger ∅ (calls.take (k + 1)) := by
    obtain ⟨id, hid, hmem⟩ := h.mem_table hq
    exact ⟨id, hid, (accounts_ahead hnext (k + 1)).issued _ hmem⟩
  have hledger (k key id) (h : GivesOut calls k key id) : .issued key id ∈ ledger ∅ calls := by
    obtain ⟨m, q, hreach, hq, rfl, hid⟩ := h
    obtain ⟨id', hid', hmem⟩ := hmarked k m q hreach hq
    cases hid.symm.trans hid'
    rw [← List.take_append_drop (k + 1) calls, ledger_append]
    exact List.mem_append_left _ hmem
  refine ⟨fun j k => next_ahead_mono calls, fun k => ?_, haccounts.ascending, ?_, ?_⟩
  · have hdistinct := (accounts_ahead hnext k).distinct
    refine ⟨hdistinct.known_nodup, fun id hid => ?_⟩
    obtain ⟨key, hmem⟩ := mem_known_iff.1 hid
    exact hdistinct.known_lt _ hmem
  · intro k m q hreach hq
    obtain ⟨id, hid, hmem⟩ := hmarked k m q hreach hq
    exact ⟨id, hid, hmem, fun hfind => hreach.lt_of_new hnext hq hfind hid⟩
  · intro j k key key' id hj hk
    exact haccounts.key_eq (hledger j key id hj) (hledger k key' id hk)

end

/-- A list in a list is encoded; numbers up to ten are reserved; the inner list is overwritten; then
it is needed again on an empty heap, and both are on a heap with another cell under its number. -/
def reencoded : List Call :=
  let inner := Datum.list [.bool true]
  [.encode (.list [inner]) ∅, .reserve 10,
    .forget [2] (SortedMap.ofList [(1, .list [.ref 2]), (2, .list [])]), .intern inner ∅,
    .encode (.list [inner]) (SortedMap.ofList [(11, .mapping [])])]

theorem reencoded_numbers :
    ((∅ : Interner).run reencoded).next < UInt64.size ∧
      ledger ∅ reencoded =
        [.issued "[[true]]" 1, .issued "[true]" 2, .reserved 10, .issued "[true]" 11,
          .issued "[[true]]" 12] ∧
      GivesOut reencoded 0 "[true]" 2 ∧ GivesOut reencoded 3 "[true]" 11 ∧
      ∀ k key, GivesOut reencoded k key 2 → key = "[true]" := by
  have hnext : ((∅ : Interner).run reencoded).next < UInt64.size := by decide
  have hfirst : GivesOut reencoded 0 "[true]" 2 :=
    ⟨_, _, ⟨_, _, .inl rfl, @Memory.Encodes.new _ _ _ _ _ [] _ rfl rfl (.self _ _)⟩, rfl, rfl, rfl⟩
  have hagain : GivesOut reencoded 3 "[true]" 11 :=
    ⟨_, _, ⟨_, _, .inr rfl, .self _ _⟩, rfl, rfl, by decide⟩
  obtain ⟨-, -, -, -, hunique⟩ := numbers_unique hnext
  exact ⟨hnext, by decide, hfirst, hagain, fun k key h => hunique k 0 key _ 2 h hfirst⟩

end Interner
end Retrace

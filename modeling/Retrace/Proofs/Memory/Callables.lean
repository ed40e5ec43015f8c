import Retrace.Proofs.Memory.Known
import Retrace.Proofs.Memory.Runs

/-! Which callables share a cell: those whose names and digests, joined by an underscore, make the
same text. Names and digests themselves need not be the same for that, unless no name followed by an
underscore begins another. -/
namespace Retrace

namespace Datum

/-- The name and the digest of a callable, joined by an underscore. -/
def signature (name source : String) : String := name ++ "_" ++ digest source

/-- Neither of two names, followed by an underscore, begins the other. -/
def NamesApart (a b : String) : Prop :=
  ¬ (a ++ "_").toList <+: b.toList ∧ ¬ (b ++ "_").toList <+: a.toList

instance (a b : String) : Decidable (NamesApart a b) := inferInstanceAs (Decidable (_ ∧ _))

variable {name name' source source' : String}

private theorem function_key (name source : String) :
    (function name source).key = "func_" ++ signature name source := by
  rw [key, signature, ← String.append_assoc, ← String.append_assoc]

private theorem function_key_eq_iff :
    (function name source).key = (function name' source').key ↔
      signature name source = signature name' source' := by
  rw [function_key, function_key, String.append_right_inj]

private theorem eq_of_append_underscore {a b s t : List Char} (h : a ++ '_' :: s = b ++ '_' :: t)
    (ha : ¬ a ++ ['_'] <+: b) (hb : ¬ b ++ ['_'] <+: a) : a = b ∧ s = t := by
  rcases List.append_eq_append_iff.1 h with ⟨more, rfl, htail⟩ | ⟨more, rfl, htail⟩
  · cases more with
    | nil => exact ⟨(List.append_nil a).symm, (List.cons.inj htail).2⟩
    | cons c more =>
      cases (List.cons.inj htail).1
      exact absurd ⟨more, List.append_assoc a ['_'] more⟩ ha
  · cases more with
    | nil => exact ⟨List.append_nil b, (List.cons.inj htail).2.symm⟩
    | cons c more =>
      cases (List.cons.inj htail).1
      exact absurd ⟨more, List.append_assoc b ['_'] more⟩ hb

/-- The joined text tells the name and the digest of names that are apart. -/
theorem signature_eq_iff (h : NamesApart name name') :
    signature name source = signature name' source' ↔
      name = name' ∧ digest source = digest source' := by
  constructor
  · intro heq
    have hchars := String.toList_inj.2 heq
    simp only [signature, String.toList_append, List.append_assoc] at hchars
    obtain ⟨hname, hdigest⟩ := eq_of_append_underscore hchars
      (by simpa [String.toList_append] using h.1) (by simpa [String.toList_append] using h.2)
    exact ⟨String.toList_inj.1 hname, String.toList_inj.1 hdigest⟩
  · rintro ⟨rfl, hdigest⟩
    rw [signature, signature, hdigest]

end Datum

namespace Memory

/-- To encode `d` in `m` is, in its course, to encode `q` in `m'`. The parts of a value come up only if
its key is new, or its cell missing on the heap. -/
inductive Encodes : Memory → Datum → Memory → Datum → Prop
  | self (m : Memory) (d : Datum) : Encodes m d m d
  | new {m m' : Memory} {d p q : Datum} {front back : List Datum}
      (hfind : m.interner.find? d.key = none) (hparts : d.parts = front ++ p :: back)
      (h : Encodes ((m.remember d.key).encodeItems front).2 p m' q) : Encodes m d m' q
  | missing {m m' : Memory} {d p q : Datum} {front back : List Datum} {id : HeapId}
      (hfind : m.interner.find? d.key = some id) (hid : m.heap.contains id = false)
      (hparts : d.parts = front ++ p :: back)
      (h : Encodes (m.encodeItems front).2 p m' q) : Encodes m d m' q

theorem Encodes.before {m m' : Memory} {d q : Datum} (h : Encodes m d m' q) : Extends m m' := by
  induction h with
  | self m d => exact .refl _
  | @new _ _ _ _ _ front _ hfind _ _ ih =>
    exact (extends_remember hfind).trans ((encodeItems_extends _ front).trans ih)
  | @missing _ _ _ _ _ front _ _ _ _ _ _ ih => exact (encodeItems_extends _ front).trans ih

/-- What memory is after a value inside another is there to the end of the whole. -/
theorem Encodes.after {m m' : Memory} {d q : Datum} (h : Encodes m d m' q) :
    Extends (m'.encode q).2 (m.encode d).2 := by
  induction h with
  | self m d => exact .refl _
  | @new m m' d p q front back hfind hparts _ ih =>
    have hcomp : d.isComposite = true := Datum.isComposite_of_mem_parts (p := p) (by simp [hparts])
    rw [encode_of_composite m hcomp, intern_of_new hfind, hparts, encodeItems_append]
    exact (ih.trans (encodeItems_extends _ back)).trans (extends_put _ _ _)
  | @missing m m' d p q front back id hfind hid hparts _ ih =>
    have hcomp : d.isComposite = true := Datum.isComposite_of_mem_parts (p := p) (by simp [hparts])
    rw [encode_of_composite m hcomp, intern_of_lost hfind hid, hparts, encodeItems_append]
    exact (ih.trans (encodeItems_extends _ back)).trans (extends_put _ _ _)

/-- At any depth, what a composite value is encoded as stays remembered to the end of the whole. -/
theorem Encodes.mem_table {m m' : Memory} {d q : Datum} (h : Encodes m d m' q)
    (hq : q.isComposite = true) :
    ∃ id, (m'.encode q).1 = .ref id ∧ (q.key, id) ∈ (m.encode d).2.interner.table := by
  obtain ⟨id, hslot, hid, -⟩ := (encode_knows m' q).of_composite hq
  exact ⟨id, hslot, h.after.table _ hid⟩

/-- A value that is encoded by the action at a position, by itself or inside another, and its slot. -/
def EncodedAt (actions : List Action) (k : Nat) (q : Datum) (s : Slot) : Prop :=
  ∃ d m, actions[k]? = some (.encode d) ∧ Encodes (ahead actions k) d m q ∧ s = (m.encode q).1

variable {actions : List Action} {i j : Nat}

theorem EncodedAt.mem_table {q : Datum} {s : Slot} (h : EncodedAt actions i q s)
    (hq : q.isComposite = true) :
    ∃ id, s = .ref id ∧ (q.key, id) ∈ (ahead actions (i + 1)).interner.table := by
  obtain ⟨d, m, ha, henc, rfl⟩ := h
  rw [ahead_succ ha]
  exact henc.mem_table hq

private theorem EncodedAt.lt_length {q : Datum} {s : Slot} (h : EncodedAt actions i q s) :
    i < actions.length := by
  obtain ⟨d, m, ha, -, -⟩ := h
  exact (List.getElem?_eq_some_iff.1 ha).1

variable {name name' source source' : String}

/-- The cell of a callable is that of one with the same joined text. -/
theorem Sound.callable_cell {data : Set Datum} {m : Memory} (h : Sound data ∅ m) {id : HeapId}
    (hid : ((Datum.function name source).key, id) ∈ m.interner.table) :
    ∃ name' source', .function name' source' ∈ data ∧
      Datum.signature name' source' = Datum.signature name source ∧
      m.heap.get? id = some (.function name' (Datum.digest source')) := by
  obtain ⟨d, hd, hcomp, hkey, slots, -, hcell⟩ := h.built _ hid (Set.notMem_empty _)
  cases hf : d.isFunction with
  | false => exact absurd hkey.symm (Datum.function_key_ne hcomp hf name source)
  | true =>
    cases d with
    | function name' source' => exact ⟨name', source', hd, Datum.function_key_eq_iff.1 hkey, hcell⟩
    | _ => cases hf

/-- Two callables that are encoded in one run, with nothing overwritten in between, share a cell
exactly if their names and digests make the same joined text; that is, if these are the same, for
names that are apart. The cell holds a callable with that joined text, and so the callable itself if
the names of all that were encoded are apart from its own. -/
theorem callables_share_iff (hij : i ≤ j) {s t : Slot}
    (hs : EncodedAt actions i (.function name source) s)
    (ht : EncodedAt actions j (.function name' source') t)
    (hspares : ∀ k a, i < k → k < j → actions[k]? = some a → a.Spares (ahead actions k))
    (hnext : (ahead actions (j + 1)).interner.next < UInt64.size) :
    let encoded := (actions.take (j + 1)).flatMap Action.data
    (s = t ↔ Datum.signature name source = Datum.signature name' source') ∧
      (Datum.NamesApart name name' →
        (s = t ↔ name = name' ∧ Datum.digest source = Datum.digest source')) ∧
      ∃ id, t = .ref id ∧
        (∃ name₀ source₀, .function name₀ source₀ ∈ encoded ∧
          Datum.signature name₀ source₀ = Datum.signature name' source' ∧
          (ahead actions (j + 1)).heap.get? id = some (.function name₀ (Datum.digest source₀))) ∧
        ((∀ name₀ source₀, .function name₀ source₀ ∈ encoded → Datum.NamesApart name₀ name') →
          (ahead actions (j + 1)).heap.get? id = some (.function name' (Datum.digest source'))) := by
  intro encoded
  obtain ⟨m, rfl, hm⟩ := hs.mem_table rfl
  obtain ⟨n, rfl, hn⟩ := ht.mem_table rfl
  have hsound : Sound {p | p ∈ encoded} ∅ (ahead actions (j + 1)) :=
    (sound_empty _).run (fun p hp => hp) hnext
  have hkept : ((Datum.function name source).key, m) ∈ (ahead actions (j + 1)).interner.table := by
    refine table_ahead (Nat.succ_le_succ hij) ht.lt_length (fun k a hk hkj ha => ?_) hm
    rcases Nat.lt_succ_iff_lt_or_eq.1 hkj with hkj | rfl
    · exact hspares k a hk hkj ha
    · obtain ⟨d, -, ha', -, -⟩ := ht
      cases ha.symm.trans ha'
      trivial
  have hshare : Slot.ref m = .ref n ↔
      Datum.signature name source = Datum.signature name' source' := by
    rw [← Datum.function_key_eq_iff]
    constructor
    · rintro ⟨⟩
      exact congrArg Prod.fst (List.inj_on_of_nodup_map hsound.known_nodup hkept hn rfl)
    · intro hkeys
      have hsame := List.inj_on_of_nodup_map hsound.distinct hkept hn hkeys
      exact congrArg (fun e => Slot.ref e.2) hsame
  obtain ⟨name₀, source₀, hmem, hjoined, hcell⟩ := hsound.callable_cell hn
  refine ⟨hshare, fun hapart => hshare.trans (Datum.signature_eq_iff hapart), n, rfl,
    ⟨name₀, source₀, hmem, hjoined, hcell⟩, fun hapart => ?_⟩
  obtain ⟨rfl, hdigest⟩ := (Datum.signature_eq_iff (hapart name₀ source₀ hmem)).1 hjoined
  rw [← hdigest]
  exact hcell

/-- A callable inside a list, encoded again beside another one after a cell has come along. -/
def recalled : List Action :=
  let f := Datum.function "f" "x => x"
  [.encode (.list [f]), .merge (SortedMap.ofList [(7, .list [])]),
    .encode (.list [.function "g_h" "", f])]

theorem recalled_callable_shares :
    ∃ s t id, EncodedAt recalled 0 (.function "f" "x => x") s ∧
      EncodedAt recalled 2 (.function "f" "x => x") t ∧ s = t ∧ t = .ref id ∧
      (ahead recalled 3).heap.get? id = some (.function "f" (Datum.digest "x => x")) := by
  have hfirst : EncodedAt recalled 0 (.function "f" "x => x") (.ref 2) :=
    ⟨_, _, rfl, @Encodes.new _ _ _ _ _ [] _ rfl rfl (.self _ _), rfl⟩
  have hagain : EncodedAt recalled 2 (.function "f" "x => x") (.ref 2) :=
    ⟨_, _, rfl, @Encodes.new _ _ _ _ _ [.function "g_h" ""] _ rfl rfl (.self _ _), by decide⟩
  have hspares : ∀ k a, 0 < k → k < 2 → recalled[k]? = some a → a.Spares (ahead recalled k) := by
    intro k a hk hlt ha
    obtain rfl : k = 1 := by omega
    cases ha
    change (ahead recalled 1).heap.Agrees _
    decide
  obtain ⟨-, hshare, id, ht, -, hcell⟩ :=
    callables_share_iff (Nat.zero_le 2) hfirst hagain hspares (by decide)
  refine ⟨_, _, id, hfirst, hagain, (hshare (by decide)).2 ⟨rfl, rfl⟩, ht, hcell ?_⟩
  intro name₀ source₀ hmem
  simp [recalled, Action.data, Datum.visits, Datum.visitItems] at hmem
  rcases hmem with ⟨rfl, -⟩ | ⟨rfl, -⟩ | ⟨rfl, -⟩ <;> decide

/-- Two callables, the name of one of which, followed by an underscore, begins that of the other. -/
def underscored : List Action := [.encode (.function "a" "b_c"), .encode (.function "a_b" "c")]

/-- They share a cell, though neither names nor digests are the same, and the cell is not what the
second one is. -/
theorem underscored_callables_share :
    EncodedAt underscored 0 (.function "a" "b_c") (.ref 1) ∧
      EncodedAt underscored 1 (.function "a_b" "c") (.ref 1) ∧
      ¬ ("a" = "a_b" ∧ Datum.digest "b_c" = Datum.digest "c") ∧
      (ahead underscored 2).heap.get? 1 ≠ some (.function "a_b" (Datum.digest "c")) :=
  ⟨⟨_, _, rfl, .self _ _, rfl⟩, ⟨_, _, rfl, .self _ _, by decide⟩, by decide, by decide⟩

end Memory
end Retrace

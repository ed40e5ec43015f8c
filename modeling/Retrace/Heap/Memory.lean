import Retrace.Heap.Cell

/-! Memory: a heap, and the identities by which composite values are found on it again. A value is
known by its key; equal keys share a cell for as long as the key is remembered, and no number is
given out twice before those of 64 bits are used up. -/
namespace Retrace

/-- The remembered identities, and the number of the next new cell. It is counted on where 64 bits
end; `counter` is what 64 bits show of it. -/
structure Interner where
  next : Nat
  table : List (String × HeapId)
deriving DecidableEq

namespace Interner

def empty : Interner := ⟨1, []⟩

instance : EmptyCollection Interner := ⟨empty⟩

def find? (i : Interner) (key : String) : Option HeapId := i.table.lookup key

def known (i : Interner) : List HeapId := i.table.map Prod.snd

/-- The number of the next new cell. After the last one of 64 bits it starts over. -/
def counter (i : Interner) : HeapId := i.next.toUInt64

/-- Moves the counter past `id`, unless it is there already. Nothing is past the last number of 64
bits: the counter stops at it, and it is the next to be given out. -/
def reserve (i : Interner) (id : HeapId) : Interner :=
  { i with next := i.next + (min (id.toNat + 1) (UInt64.size - 1) - i.counter.toNat) }

/-- Remembers a new key under the next number. -/
def allocate (i : Interner) (key : String) : HeapId × Interner :=
  (i.counter, ⟨i.next + 1, (key, i.counter) :: i.table⟩)

theorem toNat_counter {i : Interner} (h : i.next < UInt64.size) : i.counter.toNat = i.next :=
  UInt64.toNat_ofNat_of_lt' h

theorem counter_allocate (i : Interner) (key : String) :
    (i.allocate key).2.counter = i.counter + 1 :=
  UInt64.ofNat_add i.next 1

theorem counter_reserve (i : Interner) (id : HeapId) :
    (i.reserve id).counter.toNat =
      max i.counter.toNat (min (id.toNat + 1) (UInt64.size - 1)) := by
  have hcounter : i.counter.toNat = i.next % UInt64.size := rfl
  have hreserve : (i.reserve id).counter.toNat =
      (i.next + (min (id.toNat + 1) (UInt64.size - 1) - i.counter.toNat)) % UInt64.size := rfl
  rw [hreserve, hcounter]
  simp only [UInt64.size]
  omega

theorem next_le_reserve (i : Interner) (id : HeapId) : i.next ≤ (i.reserve id).next :=
  Nat.le_add_right _ _

/-- The count has passed a reserved number, as far as the counter goes. -/
theorem reserved_le_next (i : Interner) (id : HeapId) :
    min (id.toNat + 1) (UInt64.size - 1) ≤ (i.reserve id).next := by
  have hle : i.counter.toNat ≤ i.next := Nat.mod_le _ _
  have hnext : (i.reserve id).next =
      i.next + (min (id.toNat + 1) (UInt64.size - 1) - i.counter.toNat) := rfl
  omega

/-- The known cells outside `poisoned` that point into it. -/
def parents (known : List HeapId) (heap : Heap) (poisoned : List HeapId) : List HeapId :=
  known.filter fun id =>
    !poisoned.contains id &&
      match heap.get? id with
      | some cell => cell.references.any poisoned.contains
      | none => false

/-- Adds known parents until nothing changes. Each round adds one known cell at least, so there are
no more rounds than known cells. -/
def spread (known : List HeapId) (heap : Heap) : Nat → List HeapId → List HeapId
  | 0, poisoned => poisoned
  | rounds + 1, poisoned =>
    match parents known heap poisoned with
    | [] => poisoned
    | more => spread known heap rounds (poisoned ++ more)

/-- Forgets the identities of overwritten cells, and of the known cells that lead to one through
known cells: they no longer hold what their keys say. -/
def forget (i : Interner) (overwritten : List HeapId) (heap : Heap) : Interner :=
  if overwritten.isEmpty then i
  else
    let stale := spread i.known heap i.known.length overwritten
    { i with table := i.table.filter fun entry => !stale.contains entry.2 }

end Interner

/-- A heap and the identities of its cells. -/
structure Memory where
  interner : Interner
  heap : Heap
deriving DecidableEq

namespace Memory

def empty : Memory := ⟨∅, ∅⟩

instance : EmptyCollection Memory := ⟨empty⟩

def put (m : Memory) (id : HeapId) (cell : Cell) : Memory :=
  { m with heap := m.heap.insert id cell }

/-- The cell of a composite value with the given key. A known value is built again only if this heap
lacks its cell; the number of a new value is taken before its parts are built. -/
def intern (m : Memory) (key : String) (build : Memory → Cell × Memory) : Slot × Memory :=
  match m.interner.find? key with
  | some id =>
    if m.heap.contains id then (.ref id, m)
    else
      let (cell, m) := build m
      (.ref id, m.put id cell)
  | none =>
    let (id, interner) := m.interner.allocate key
    let (cell, m) := build { m with interner }
    (.ref id, m.put id cell)

mutual

/-- Encodes a value: a composite becomes a reference to its cell, all else stands for itself. -/
def encode (m : Memory) : Datum → Slot × Memory
  | .null => (.null, m)
  | .bool b => (.bool b, m)
  | .number n => (.number n, m)
  | .string s => (.string s, m)
  | .ref id => (.ref id, m)
  | .list items =>
    m.intern (Datum.list items).key fun m =>
      let (slots, m) := encodeItems m items
      (.list slots, m)
  | .mapping entries =>
    m.intern (Datum.mapping entries).key fun m =>
      let (slots, m) := encodeEntries m entries
      (.mapping slots, m)
  | .function name source =>
    m.intern (Datum.function name source).key fun m =>
      (.function name (Datum.digest source), m)
  | .object className fields =>
    m.intern (Datum.object className fields).key fun m =>
      let (slots, m) := encodeEntries m fields
      (.object className slots, m)

def encodeItems (m : Memory) : List Datum → List Slot × Memory
  | [] => ([], m)
  | d :: ds =>
    let (slot, m) := encode m d
    let (slots, m) := encodeItems m ds
    (slot :: slots, m)

def encodeEntries (m : Memory) : List (String × Datum) → Slots × Memory
  | [] => ([], m)
  | (name, d) :: ds =>
    let (slot, m) := encode m d
    let (slots, m) := encodeEntries m ds
    ((name, slot) :: slots, m)

end

/-- Encodes a value for the number of its cell. Primitives and references need none. -/
def reference? (m : Memory) (d : Datum) : Option HeapId × Memory :=
  if d.isComposite then
    let (slot, m) := m.encode d
    (slot.target?, m)
  else (none, m)

/-- The cells of `supplied` that differ from those already under their numbers. -/
def overwritten (m : Memory) (supplied : Heap) : List HeapId :=
  supplied.keys.filter fun id =>
    match m.heap.get? id, supplied.get? id with
    | some old, some new => !old.same new
    | _, _ => false

/-- Lays supplied cells over the heap, forgets what they replace, and keeps their numbers from being
given out. -/
def merge (m : Memory) (supplied : Heap) : Memory :=
  let heap := m.heap.overlay supplied
  let interner := m.interner.forget (m.overwritten supplied) heap
  let interner := match supplied.keys.getLast? with
    | some id => interner.reserve id
    | none => interner
  ⟨interner, heap⟩

end Memory
end Retrace

/-! A cursor over the steps of a session. It cannot leave them; without steps it stays at zero. -/
namespace Retrace

/-! ### Words -/

/-- The word before another. Zero stays. -/
def pred (n : UInt64) : UInt64 := if n = 0 then 0 else n - 1

theorem toNat_pred (n : UInt64) : (pred n).toNat = n.toNat - 1 := by
  rw [pred]
  split
  · next h => rw [h]; rfl
  · next h =>
    have hpos : (1 : UInt64).toNat ≤ n.toNat :=
      Nat.pos_of_ne_zero fun h0 => h (UInt64.toNat_inj.1 h0)
    exact UInt64.toNat_sub_of_le _ _ (UInt64.le_iff_toNat_le.2 hpos)

/-- The greatest signed word up to a word. -/
def signed (n : UInt64) : Int64 :=
  if n ≤ Int64.maxValue.toUInt64 then n.toInt64 else Int64.maxValue

theorem toInt_maxValue : Int64.maxValue.toInt = 9223372036854775807 := rfl

private theorem toInt_signed (n : UInt64) :
    (signed n).toInt = min (n.toNat : Int) Int64.maxValue.toInt := by
  have hle : n ≤ Int64.maxValue.toUInt64 ↔ n.toNat ≤ 9223372036854775807 := UInt64.le_iff_toNat_le
  rw [signed, toInt_maxValue]
  split
  · next h =>
    have hn := hle.1 h
    have hlt : 2 * n.toBitVec.toNat < 18446744073709551616 := by
      rw [UInt64.toNat_toBitVec]
      omega
    rw [← Int64.toInt_toBitVec, UInt64.toBitVec_toInt64, BitVec.toInt_eq_toNat_of_lt hlt,
      UInt64.toNat_toBitVec]
    omega
  · next h =>
    have hn := mt hle.2 h
    rw [toInt_maxValue]
    omega

/-- What is nearest to a signed word from zero to another. -/
def within (last n : Int64) : Int64 := if n < 0 then 0 else if last < n then last else n

private theorem toInt_within {last : Int64} (h : 0 ≤ last.toInt) (n : Int64) :
    (within last n).toInt = max 0 (min n.toInt last.toInt) := by
  have hzero : (0 : Int64).toInt = 0 := rfl
  simp only [within, Int64.lt_iff_toInt_lt]
  split
  · omega
  · split <;> omega

/-- A signed word is brought among the words up to another without loss, even where these are more
than there are signed words. -/
theorem toNat_within (last : UInt64) (n : Int64) :
    (within (signed last) n).toUInt64.toNat = min n.toInt.toNat last.toNat := by
  have hlast := toInt_signed last
  rw [toInt_maxValue] at hlast
  have hlast_pos : 0 ≤ (signed last).toInt := by omega
  have hwithin := toInt_within hlast_pos n
  have hpos : 0 ≤ within (signed last) n := by
    rw [Int64.le_iff_toInt_le, hwithin]
    exact Int.le_max_left _ _
  have hn : n.toInt < 9223372036854775808 := n.toInt_lt
  rw [Int64.toNat_toUInt64_of_le hpos, Int64.toNatClampNeg, hwithin]
  omega

/-! ### Cursors -/

def lastIndex (total : UInt64) : UInt64 := pred total

/-- A position among `total` steps. -/
structure Cursor where
  total : UInt64
  index : UInt64
  index_le : index ≤ lastIndex total

namespace Cursor

def start (total : UInt64) : Cursor := ⟨total, 0, UInt64.le_iff_toNat_le.2 (Nat.zero_le _)⟩

def first (c : Cursor) : Cursor := start c.total

def last (c : Cursor) : Cursor := ⟨c.total, lastIndex c.total, UInt64.le_refl _⟩

def previous (c : Cursor) : Cursor :=
  ⟨c.total, pred c.index, by
    have hindex := UInt64.le_iff_toNat_le.1 c.index_le
    rw [UInt64.le_iff_toNat_le, toNat_pred]
    omega⟩

def next (c : Cursor) : Cursor :=
  ⟨c.total, if c.index + 1 ≤ lastIndex c.total then c.index + 1 else lastIndex c.total, by
    split
    · assumption
    · exact UInt64.le_refl _⟩

def goTo (c : Cursor) (n : Int64) : Cursor :=
  ⟨c.total, (within (signed (lastIndex c.total)) n).toUInt64, by
    rw [UInt64.le_iff_toNat_le, toNat_within]
    exact Nat.min_le_right _ _⟩

def previousIndex? (c : Cursor) : Option UInt64 := if c.index = 0 then none else some (c.index - 1)

def nextIndex? (c : Cursor) : Option UInt64 :=
  if c.index + 1 < c.total then some (c.index + 1) else none

def atStart (c : Cursor) : Bool := c.index = 0

def atEnd (c : Cursor) : Bool := c.index = lastIndex c.total

end Cursor

/-- A move of the cursor. -/
inductive Move
  | first
  | last
  | previous
  | next
  | goTo (n : Int64)

def Cursor.move (c : Cursor) : Move → Cursor
  | .first => c.first
  | .last => c.last
  | .previous => c.previous
  | .next => c.next
  | .goTo n => c.goTo n

/-- A move with its answer, the position that it ends at. -/
def Cursor.land (c : Cursor) (m : Move) : UInt64 × Cursor :=
  let c := c.move m
  (c.index, c)

/-- Moves one after the other, with the answers of all. -/
def Cursor.walk (c : Cursor) : List Move → List UInt64 × Cursor
  | [] => ([], c)
  | m :: ms =>
    let (landed, c) := c.land m
    let (rest, c) := c.walk ms
    (landed :: rest, c)

end Retrace

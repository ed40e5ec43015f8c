import Retrace.Session.Cursor

/-! The cursor on words of 64 bits against a position in unbounded integers, where each move is made
exactly and then brought back among the steps. The two agree along every row of moves, and no sum
on the way leaves the words. -/
namespace Retrace

namespace Move

/-- The position that a move aims at, with no regard for the first and the last step. -/
def aim (total : Nat) (position : Int) : Move → Int
  | .first => 0
  | .last => total - 1
  | .previous => position - 1
  | .next => position + 1
  | .goTo n => n.toInt

/-- A position brought back to the nearest from zero to the last step; without steps to zero. -/
def bound (total : Nat) (position : Int) : Int := max 0 (min position (max (total - 1) 0))

def target (total : Nat) (position : Int) (m : Move) : Int := bound total (m.aim total position)

def targets (total : Nat) (position : Int) : List Move → List Int
  | [] => []
  | m :: ms => m.target total position :: targets total (m.target total position) ms

end Move

namespace Cursor

/-! ### Words as integers -/

theorem toNat_lastIndex (total : UInt64) : (lastIndex total).toNat = total.toNat - 1 :=
  toNat_pred total

theorem toNat_index_le (c : Cursor) : c.index.toNat ≤ c.total.toNat - 1 := by
  rw [← toNat_lastIndex]
  exact UInt64.le_iff_toNat_le.1 c.index_le

/-- The position behind the one of a cursor is a word, too. -/
theorem toNat_index_succ (c : Cursor) : (c.index + 1).toNat = c.index.toNat + 1 := by
  have hindex := c.toNat_index_le
  have htotal := c.total.toNat_lt
  rw [UInt64.toNat_add]
  exact Nat.mod_eq_of_lt (by simp only [UInt64.toNat_one]; omega)

theorem index_succ_lt_iff (c : Cursor) :
    c.index + 1 < c.total ↔ c.index.toNat + 1 < c.total.toNat := by
  rw [UInt64.lt_iff_toNat_lt, toNat_index_succ]

theorem toNat_index_pred {c : Cursor} (h : c.index ≠ 0) :
    (c.index - 1).toNat = c.index.toNat - 1 := by
  rw [← toNat_pred, pred, if_neg h]

private theorem toNat_next (c : Cursor) :
    c.next.index.toNat = min (c.index.toNat + 1) (c.total.toNat - 1) := by
  rw [next, ← toNat_lastIndex, ← toNat_index_succ]
  dsimp only
  split
  · next h => exact (Nat.min_eq_left (UInt64.le_iff_toNat_le.1 h)).symm
  · next h =>
    have hlt := mt UInt64.le_iff_toNat_le.2 h
    exact (Nat.min_eq_right (Nat.le_of_not_le hlt)).symm

/-! ### Moves -/

theorem total_move (c : Cursor) (m : Move) : (c.move m).total = c.total := by cases m <;> rfl

/-- A move leads to its position among the integers. -/
theorem index_move (c : Cursor) (m : Move) :
    ((c.move m).index.toNat : Int) = m.target c.total.toNat c.index.toNat := by
  have hindex := c.toNat_index_le
  simp only [Move.target, Move.bound]
  cases m with
  | first =>
    have hmove : (c.move .first).index.toNat = 0 := rfl
    rw [hmove, Move.aim]
    omega
  | last =>
    have hmove : (c.move .last).index.toNat = c.total.toNat - 1 := toNat_lastIndex c.total
    rw [hmove, Move.aim]
    omega
  | previous =>
    have hmove : (c.move .previous).index.toNat = c.index.toNat - 1 := toNat_pred c.index
    rw [hmove, Move.aim]
    omega
  | next =>
    rw [move, toNat_next, Move.aim]
    omega
  | goTo n =>
    have hmove : (c.move (.goTo n)).index.toNat = min n.toInt.toNat (lastIndex c.total).toNat :=
      toNat_within (lastIndex c.total) n
    rw [hmove, toNat_lastIndex, Move.aim]
    omega

/-- A cursor that stands at an integer position: its neighbours are those of the position, and the
sum that leads to the next one is exact. -/
structure StandsAt (c : Cursor) (total : Nat) (position : Int) : Prop where
  total_eq : c.total.toNat = total
  index_eq : (c.index.toNat : Int) = position
  sum_exact : (c.index + 1).toNat = c.index.toNat + 1
  previousIndex?_iff : ∀ i, c.previousIndex? = some i ↔
    0 < position ∧ (i.toNat : Int) = position - 1
  nextIndex?_iff : ∀ i, c.nextIndex? = some i ↔
    position + 1 < total ∧ (i.toNat : Int) = position + 1
  atEnd_iff : c.atEnd = true ↔ c.nextIndex? = none

/-- Every cursor stands at its own position. -/
theorem standsAt (c : Cursor) : c.StandsAt c.total.toNat c.index.toNat where
  total_eq := rfl
  index_eq := rfl
  sum_exact := c.toNat_index_succ
  previousIndex?_iff i := by
    rw [previousIndex?]
    split
    · next h => simp [h]
    · next h =>
      have hpos : c.index.toNat ≠ 0 := fun h0 => h (UInt64.toNat_inj.1 h0)
      rw [Option.some_inj, ← UInt64.toNat_inj, toNat_index_pred h]
      omega
  nextIndex?_iff i := by
    rw [nextIndex?]
    split
    · next h =>
      have hlt := c.index_succ_lt_iff.1 h
      rw [Option.some_inj, ← UInt64.toNat_inj, toNat_index_succ]
      omega
    · next h =>
      have hle := mt c.index_succ_lt_iff.2 h
      simp only [reduceCtorEq, false_iff]
      omega
  atEnd_iff := by
    have hindex := c.toNat_index_le
    have hnone : c.nextIndex? = none ↔ ¬ c.index.toNat + 1 < c.total.toNat := by
      simp [nextIndex?, index_succ_lt_iff]
    rw [hnone, atEnd, decide_eq_true_eq, ← UInt64.toNat_inj, toNat_lastIndex]
    omega

/-! ### Rows of moves -/

theorem total_walk (c : Cursor) (moves : List Move) : (c.walk moves).2.total = c.total := by
  induction moves generalizing c with
  | nil => rfl
  | cons m moves ih => exact (ih (c.move m)).trans (c.total_move m)

private theorem index_walk (c : Cursor) (moves : List Move) :
    ((c.walk moves).2.index.toNat : Int) =
      moves.foldl (Move.target c.total.toNat) c.index.toNat := by
  induction moves generalizing c with
  | nil => rfl
  | cons m moves ih =>
    have hrest := ih (c.move m)
    rw [total_move, index_move] at hrest
    exact hrest

/-- Each move answers the position that it leads to. -/
theorem answers_walk (c : Cursor) (moves : List Move) :
    (c.walk moves).1.map (fun i => (i.toNat : Int)) =
      Move.targets c.total.toNat c.index.toNat moves := by
  induction moves generalizing c with
  | nil => rfl
  | cons m moves ih =>
    have hrest := ih (c.move m)
    rw [total_move, index_move] at hrest
    rw [Move.targets, ← hrest, ← index_move]
    rfl

/-- Whatever the number of steps and the moves from the first one on, the cursor agrees with an
integer that is moved exactly and kept among the steps, in each answer and where it stands. -/
theorem walk_standsAt (total : UInt64) (moves : List Move) :
    ((start total).walk moves).1.map (fun i => (i.toNat : Int)) =
        Move.targets total.toNat 0 moves ∧
      ((start total).walk moves).2.StandsAt total.toNat
        (moves.foldl (Move.target total.toNat) 0) := by
  refine ⟨answers_walk (start total) moves, ?_⟩
  have hstands := ((start total).walk moves).2.standsAt
  rw [total_walk, index_walk] at hstands
  exact hstands

example : ((start 18446744073709551615).walk [.goTo Int64.maxValue, .next, .last, .next]).1 =
    [9223372036854775807, 9223372036854775808, 18446744073709551614, 18446744073709551614] := by
  decide

end Cursor
end Retrace

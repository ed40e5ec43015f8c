import Retrace.Numeral.Double

/-! Decimal text of doubles: the fewest digits that read back under correct rounding, of those the
nearest, and of two as near the even one, set out by a layout. -/
namespace Retrace

/-- The decimal digits of a natural number, most significant first. -/
def digits (n : Nat) : List Char := Nat.toDigits 10 n

/-- `coefficient * 10 ^ exponent`. -/
structure Decimal where
  coefficient : Nat
  exponent : Int
deriving DecidableEq

namespace Double

/-- The half distances to the lower and the upper neighbour, in quarters of a unit. -/
def margins (n : Nat) : Nat × Nat :=
  let step := spacing n
  (if 1 < step ∧ n = 1 <<< n.log2 then step else 2 * step, 2 * step)

/-- `num / den` as a fraction of `10 ^ k`. -/
def onGrid (n : Nat) : Int → Nat × Nat
  | .ofNat k => (n, unit * Nat.pow 10 k)
  | .negSucc j => (n * Nat.pow 10 (j + 1), unit)

/-- Whether `c * 10 ^ k` rounds to the double of `n` units; a tie rounds to the even significand. -/
def roundsTo (n c : Nat) (k : Int) : Bool :=
  let (num, den) := onGrid n k
  let (below, above) := margins n
  -- all in quarters of a unit, scaled by the denominator of the grid
  let value := 4 * num
  let point := 4 * c * den
  let width := fun margin => match k with
    | .ofNat _ => margin
    | .negSucc j => margin * Nat.pow 10 (j + 1)
  let even := (n / spacing n) % 2 = 0
  if point ≤ value then
    let gap := value - point
    if even then gap ≤ width below else gap < width below
  else
    let gap := point - value
    if even then gap ≤ width above else gap < width above

/-- The exponent of the leading decimal digit of a positive double. -/
def leading (n : Nat) : Int :=
  ((digits (n * Nat.pow 10 400 / unit)).length : Int) - 401

/-- The neighbour on the grid `10 ^ k` that rounds to the double; if both do, the nearer one, or
the even one of two as near. -/
def onGrid? (n : Nat) (k : Int) : Option Decimal :=
  let (num, den) := onGrid n k
  let low := num / den
  let twice := 2 * (num % den)
  let near := if twice < den ∨ (twice = den ∧ low % 2 = 0) then [low, low + 1] else [low + 1, low]
  (near.find? fun c => 0 < c && roundsTo n c k).map fun c => ⟨c, k⟩

/-- The shortest decimal that rounds to a positive double. Seventeen digits always suffice. -/
def shortest (n : Nat) : Decimal :=
  let top := leading n
  ((List.range 17).findSome? fun (d : Nat) => onGrid? n (top - d)).getD ⟨n, 0⟩

end Double

/-- How the digits of a double are set out: from which exponent to which they stand around a plain
point, and how an exponent is written otherwise. -/
structure Layout where
  plainFrom : Int
  plainTo : Int
  mark : Char
  plus : List Char

namespace Layout

def zeros (n : Nat) : List Char := List.replicate n '0'

def strip (ds : List Char) : List Char := (ds.reverse.dropWhile (· = '0')).reverse

/-- Sets out significant digits whose first has the place value `10 ^ exponent`. -/
def place (layout : Layout) (ds : List Char) (exponent : Int) : List Char :=
  if exponent < layout.plainFrom ∨ layout.plainTo < exponent then
    let mantissa := match ds with
      | [] => ['0']
      | [d] => [d]
      | d :: rest => d :: '.' :: rest
    let power := match exponent with
      | .ofNat k => layout.plus ++ digits k
      | .negSucc j => '-' :: digits (j + 1)
    mantissa ++ layout.mark :: power
  else match exponent with
    | .negSucc j => '0' :: '.' :: zeros j ++ ds
    | .ofNat k =>
      let whole := ds.take (k + 1)
      let fraction := ds.drop (k + 1)
      whole ++ zeros (k + 1 - whole.length) ++ '.' :: (if fraction = [] then ['0'] else fraction)

def text (layout : Layout) (d : Double) : List Char :=
  let sign := if d.negative then ['-'] else []
  if d.units = 0 then sign ++ ['0', '.', '0']
  else
    let ⟨c, k⟩ := Double.shortest d.units
    let ds := digits c
    sign ++ layout.place (strip ds) (k + ds.length - 1)

end Layout
end Retrace

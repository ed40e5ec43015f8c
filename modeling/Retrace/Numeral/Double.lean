/-! Finite binary64 numbers in exact arithmetic. A magnitude is counted in units of `2 ^ (-1074)`,
so that every finite double is a whole number of units and rounding is arithmetic on `Nat`. -/
namespace Retrace

/-- A finite double: its sign, and its magnitude in units of `2 ^ (-1074)`. -/
structure Double where
  negative : Bool
  units : Nat
deriving DecidableEq

namespace Double

def unit : Nat := 1 <<< 1074

/-- The least magnitude, in units, that no finite double reaches. -/
def limit : Nat := 1 <<< 2098

/-- The distance between doubles near `n` units: 53 significant bits, and never less than a unit. -/
def spacing (n : Nat) : Nat := 1 <<< (n.log2 + 1 - 53)

/-- The whole number nearest to `num / den`; a half goes to the even neighbour. -/
def nearestEven (num den : Nat) : Nat :=
  let q := num / den
  match compare (2 * (num % den)) den with
  | .lt => q
  | .gt => q + 1
  | .eq => q + q % 2

def nearest (num den : Nat) : Nat :=
  let step := spacing (num / den)
  nearestEven num (den * step) * step

def ofNat (n : Nat) : Nat := nearest (n * unit) 1

def power (k : Nat) : Nat := ofNat (Nat.pow 10 k)

def times (a b : Nat) : Nat := nearest (a * b) unit

def quotient (a b : Nat) : Nat := nearest (a * unit) b

/-- `significand * 10 ^ exponent` in two roundings, of the significand and of the product or
quotient; below `10 ^ (-308)` the quotient is taken in two steps. The significand is below `2 ^ 64`,
so a divisor beyond `10 ^ 616` leaves nothing. `none` when the result is too large. -/
def scale (significand : Nat) : Int → Option Nat
  | .ofNat k =>
    if significand = 0 then some 0
    else if 308 < k then none
    else
      let product := times (ofNat significand) (power k)
      if product < limit then some product else none
  | .negSucc j =>
    let k := j + 1
    let f := ofNat significand
    if k ≤ 308 then some (quotient f (power k))
    else if k ≤ 616 then some (quotient (quotient f (power 308)) (power (k - 308)))
    else some 0

/-- Equality of numbers: the two zeros are one. -/
def same (a b : Double) : Bool :=
  a.units = b.units && (a.negative = b.negative || a.units = 0)

theorem same_refl (a : Double) : a.same a = true := by simp [same]

end Double
end Retrace

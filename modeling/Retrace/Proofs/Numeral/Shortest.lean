import Mathlib.Algebra.Order.Field.Power
import Mathlib.Algebra.Order.Field.Rat
import Mathlib.Tactic.FieldSimp
import Mathlib.Tactic.Linarith
import Mathlib.Tactic.Positivity
import Mathlib.Tactic.Ring
import Retrace.Numeral.Decimal

/-! The shortest decimal of a double tells the double. What rounds to a double lies in an interval
around it, the intervals of different doubles do not meet, and seventeen digits always suffice to
hit one. -/
namespace Retrace

def Decimal.value (d : Decimal) : ℚ := d.coefficient * 10 ^ d.exponent

namespace Double

/-- A number of units that is a double: a multiple of the distance between doubles near it. -/
def Representable (n : Nat) : Prop := spacing n ∣ n

instance (n : Nat) : Decidable (Representable n) := inferInstanceAs (Decidable (_ ∣ _))

/-- Whether the significand is even, so that ties round to the double. -/
def TakesTies (n : Nat) : Prop := (n / spacing n) % 2 = 0

instance (n : Nat) : Decidable (TakesTies n) := inferInstanceAs (Decidable (_ = _))

/-- `x` units round to the double of `n` units: they lie between the middles to its neighbours, or
on one of these if the double takes ties. All is counted in quarters of a unit. -/
def Rounds (x : ℚ) (n : Nat) : Prop :=
  if TakesTies n then 4 * n ≤ 4 * x + (margins n).1 ∧ 4 * x ≤ 4 * n + (margins n).2
  else 4 * n < 4 * x + (margins n).1 ∧ 4 * x < 4 * n + (margins n).2

/-! ### Distances -/

theorem spacing_eq (n : Nat) : spacing n = 2 ^ (n.log2 + 1 - 53) := Nat.one_shiftLeft _

private theorem spacing_pos (n : Nat) : 0 < spacing n := by
  rw [spacing_eq]
  positivity

theorem lt_spacing (n : Nat) : n < 2 ^ 53 * spacing n := by
  rw [spacing_eq, ← Nat.pow_add]
  calc n < 2 ^ (n.log2 + 1) := Nat.lt_log2_self
    _ ≤ 2 ^ (53 + (n.log2 + 1 - 53)) := Nat.pow_le_pow_right (by decide) (by omega)

/-- Where doubles are more than a unit apart, they have 53 significant bits. -/
theorem two_pow_log2 {n : Nat} (h : 1 < spacing n) : 2 ^ n.log2 = 2 ^ 52 * spacing n := by
  have hlog : 53 ≤ n.log2 := by
    by_contra hlt
    rw [spacing_eq, show n.log2 + 1 - 53 = 0 by omega] at h
    exact Nat.lt_irrefl _ h
  rw [spacing_eq, ← Nat.pow_add]
  congr 1
  omega

theorem spacing_le {n : Nat} (h : 1 < spacing n) : 2 ^ 52 * spacing n ≤ n := by
  rw [← two_pow_log2 h]
  apply Nat.log2_self_le
  rintro rfl
  exact absurd h (by decide)

/-- Distances grow by powers of two. -/
theorem spacing_mono {m n : Nat} (h : m ≤ n) : ∃ j, spacing n = spacing m * 2 ^ j := by
  have hlog : m.log2 ≤ n.log2 := by
    rcases Nat.eq_zero_or_pos m with rfl | hm
    · exact Nat.zero_le _
    · exact (Nat.le_log2 (by omega)).2 (Nat.le_trans (Nat.log2_self_le (by omega)) h)
  refine ⟨(n.log2 + 1 - 53) - (m.log2 + 1 - 53), ?_⟩
  rw [spacing_eq, spacing_eq, ← Nat.pow_add]
  congr 1
  omega

theorem margins_snd (n : Nat) : (margins n).2 = 2 * spacing n := rfl

/-- At a power of two the interval reaches down half as far. -/
theorem margins_fst (n : Nat) :
    (margins n).1 = spacing n ∧ 1 < spacing n ∧ n = 2 ^ 52 * spacing n ∨
      (margins n).1 = 2 * spacing n ∧
        (1 < spacing n → Representable n → (2 ^ 52 + 1) * spacing n ≤ n) := by
  have hif : (margins n).1 =
      if 1 < spacing n ∧ n = 1 <<< n.log2 then spacing n else 2 * spacing n := rfl
  rw [Nat.one_shiftLeft] at hif
  by_cases h : 1 < spacing n ∧ n = 2 ^ n.log2
  · refine .inl ⟨hif.trans (if_pos h), h.1, ?_⟩
    rw [← two_pow_log2 h.1]
    exact h.2
  · refine .inr ⟨hif.trans (if_neg h), fun hone hn => ?_⟩
    have hne : n ≠ 2 ^ 52 * spacing n := fun heq => h ⟨hone, (two_pow_log2 hone) ▸ heq⟩
    have hle := spacing_le hone
    obtain ⟨a, ha⟩ := hn
    have hlt : 2 ^ 52 < a := by
      by_contra hnot
      have : spacing n * a ≤ spacing n * 2 ^ 52 := Nat.mul_le_mul_left _ (by omega)
      omega
    calc (2 ^ 52 + 1) * spacing n ≤ a * spacing n := Nat.mul_le_mul_right _ hlt
      _ = n := by rw [Nat.mul_comm, ← ha]

/-- Neighbours at one distance have significands of different parity. -/
private theorem margins_apart_level {m n : Nat} (hm : Representable m) (hn : Representable n)
    (h : m < n) (hsame : spacing n = spacing m) :
    4 * m + (margins m).2 + (margins n).1 ≤ 4 * n ∧
      (TakesTies m → TakesTies n → 4 * m + (margins m).2 + (margins n).1 < 4 * n) := by
  have hpos := spacing_pos m
  obtain ⟨a, ha⟩ := hm
  obtain ⟨b, hb⟩ := hn
  rw [hsame] at hb
  have hab : a < b := by
    rw [ha, hb] at h
    exact Nat.lt_of_mul_lt_mul_left h
  have hbelow : (margins n).1 ≤ 2 * spacing m := by
    rcases margins_fst n with ⟨hfst, -⟩ | ⟨hfst, -⟩ <;> omega
  rw [margins_snd, TakesTies, TakesTies, hsame, Nat.div_eq_of_eq_mul_right hpos ha,
    Nat.div_eq_of_eq_mul_right hpos hb]
  rcases Nat.eq_or_lt_of_le hab with rfl | hab
  · rw [Nat.mul_succ, ← ha] at hb
    omega
  · have hle : spacing m * (a + 2) ≤ n := by
      rw [hb]
      exact Nat.mul_le_mul_left _ hab
    rw [Nat.mul_add, ← ha] at hle
    omega

/-- Where the distance grows, the lower double is below the last of its own distance. -/
private theorem margins_apart_above {m n : Nat} (hm : Representable m) (hn : Representable n)
    (hmore : 2 * spacing m ≤ spacing n) :
    4 * m + (margins m).2 + (margins n).1 ≤ 4 * n ∧
      (TakesTies m → TakesTies n → 4 * m + (margins m).2 + (margins n).1 < 4 * n) := by
  have hpos := spacing_pos m
  have hlt := lt_spacing m
  obtain ⟨a, ha⟩ := hm
  rw [margins_snd, TakesTies, Nat.div_eq_of_eq_mul_right hpos ha]
  have hle {k : Nat} (hk : a ≤ k) : m ≤ k * spacing m := by
    conv_lhs => rw [ha, Nat.mul_comm]
    exact Nat.mul_le_mul_right _ hk
  have hbound : a ≤ 2 ^ 53 - 1 := by
    by_contra hnot
    have : spacing m * 2 ^ 53 ≤ spacing m * a := Nat.mul_le_mul_left _ (by omega)
    omega
  have hodd := hle hbound
  rcases margins_fst n with ⟨hfst, -, hpower⟩ | ⟨hfst, habove⟩
  · refine ⟨by omega, fun heven _ => ?_⟩
    have := hle (k := 2 ^ 53 - 2) (by omega)
    omega
  · have := habove (by omega) hn
    omega

/-- The interval of a double ends where that of a greater one begins, or before; if both intervals
have their ends, before. -/
theorem margins_apart {m n : Nat} (hm : Representable m) (hn : Representable n) (h : m < n) :
    4 * m + (margins m).2 + (margins n).1 ≤ 4 * n ∧
      (TakesTies m → TakesTies n → 4 * m + (margins m).2 + (margins n).1 < 4 * n) := by
  obtain ⟨j, hj⟩ := spacing_mono (Nat.le_of_lt h)
  cases j with
  | zero =>
    rw [Nat.pow_zero, Nat.mul_one] at hj
    exact margins_apart_level hm hn h hj
  | succ j =>
    refine margins_apart_above hm hn ?_
    rw [hj, Nat.pow_succ, ← Nat.mul_assoc, Nat.mul_comm]
    exact Nat.mul_le_mul_right _ (Nat.le_mul_of_pos_right _ (by positivity))

/-- Nothing rounds to two doubles. -/
theorem Rounds.unique {x : ℚ} {m n : Nat} (hm : Representable m) (hn : Representable n)
    (h : Rounds x m) (h' : Rounds x n) : m = n := by
  have apart {m n : Nat} (hm : Representable m) (hn : Representable n) (hlt : m < n)
      (h : Rounds x m) (h' : Rounds x n) : False := by
    obtain ⟨hle, hstrict⟩ := margins_apart hm hn hlt
    have hle : (4 * m + (margins m).2 + (margins n).1 : ℚ) ≤ 4 * n := by exact_mod_cast hle
    unfold Rounds at h h'
    split at h <;> split at h'
    · next hties hties' =>
      have hlt : (4 * m + (margins m).2 + (margins n).1 : ℚ) < 4 * n := by
        exact_mod_cast hstrict hties hties'
      linarith [h.2, h'.1]
    all_goals linarith [h.2, h'.1]
  rcases Nat.lt_trichotomy m n with hlt | heq | hlt
  · exact (apart hm hn hlt h h').elim
  · exact heq
  · exact (apart hn hm hlt h' h).elim

/-! ### The test for rounding -/

private theorem gap_iff (ties : Prop) [Decidable ties] {value point below above : Nat}
    (hbelow : 0 < below) (habove : 0 < above) :
    (if point ≤ value then
        if ties then decide (value - point ≤ below) else decide (value - point < below)
      else if ties then decide (point - value ≤ above) else decide (point - value < above)) = true ↔
      if ties then value ≤ point + below ∧ point ≤ value + above
      else value < point + below ∧ point < value + above := by
  split_ifs <;> simp only [decide_eq_true_eq] <;> omega

theorem margins_pos (n : Nat) : 0 < (margins n).1 ∧ 0 < (margins n).2 := by
  have hpos := spacing_pos n
  rw [margins_snd]
  rcases margins_fst n with ⟨hfst, -⟩ | ⟨hfst, -⟩ <;> omega

/-- The interval of a double, with all numbers multiplied by the denominator of a grid. -/
theorem rounds_scaled {n point s : Nat} {x : ℚ} (hs : 0 < s) (hx : (point : ℚ) = x * s) :
    (if TakesTies n then 4 * (n * s) ≤ 4 * point + (margins n).1 * s ∧
        4 * point ≤ 4 * (n * s) + (margins n).2 * s
      else 4 * (n * s) < 4 * point + (margins n).1 * s ∧
        4 * point < 4 * (n * s) + (margins n).2 * s) ↔ Rounds x n := by
  have hs : (0 : ℚ) < s := by exact_mod_cast hs
  have hle {a b : Nat} {y z : ℚ} (ha : (a : ℚ) = y * s) (hb : (b : ℚ) = z * s) :
      (a ≤ b ↔ y ≤ z) ∧ (a < b ↔ y < z) := by
    rw [← Nat.cast_le (α := ℚ), ← Nat.cast_lt (α := ℚ), ha, hb]
    exact ⟨mul_le_mul_iff_left₀ hs, mul_lt_mul_iff_left₀ hs⟩
  have hlower := hle (a := 4 * (n * s)) (b := 4 * point + (margins n).1 * s) (y := 4 * n)
    (z := 4 * x + (margins n).1) (by push_cast; ring) (by push_cast; rw [hx]; ring)
  have hupper := hle (a := 4 * point) (b := 4 * (n * s) + (margins n).2 * s) (y := 4 * x)
    (z := 4 * n + (margins n).2) (by push_cast; rw [hx]; ring) (by push_cast; ring)
  rw [Rounds, hlower.1, hlower.2, hupper.1, hupper.2]

/-- The test on a grid is that for rounding. -/
theorem roundsTo_iff (n c : Nat) (k : Int) :
    roundsTo n c k = true ↔ Rounds (c * 10 ^ k * unit) n := by
  obtain ⟨hbelow, habove⟩ := margins_pos n
  cases k with
  | ofNat k =>
    have hpoint : ((c * (unit * 10 ^ k) : Nat) : ℚ) = c * 10 ^ (Int.ofNat k) * unit * (1 : Nat) := by
      rw [Int.ofNat_eq_natCast, zpow_natCast]
      push_cast
      ring
    rw [← rounds_scaled Nat.one_pos hpoint, ← Nat.mul_assoc 4 c, Nat.mul_one, Nat.mul_one,
      Nat.mul_one]
    exact gap_iff (TakesTies n) hbelow habove
  | negSucc j =>
    have hten : 0 < 10 ^ (j + 1) := by positivity
    have hpoint : ((c * unit : Nat) : ℚ) = c * 10 ^ (Int.negSucc j) * unit * (10 ^ (j + 1) : Nat) := by
      rw [zpow_negSucc]
      push_cast
      field_simp
    rw [← rounds_scaled hten hpoint, ← Nat.mul_assoc 4 c]
    exact gap_iff (TakesTies n) (Nat.mul_pos hbelow hten) (Nat.mul_pos habove hten)

/-! ### The search for digits -/

theorem unit_pos : 0 < unit := by
  rw [unit, Nat.one_shiftLeft]
  positivity

/-- A double and the step of a grid, over one denominator. -/
theorem onGrid_eq (n : Nat) (k : Int) :
    ∃ s : Nat, 0 < s ∧ (onGrid n k).1 = n * s ∧ ((onGrid n k).2 : ℚ) = 10 ^ k * unit * s := by
  cases k with
  | ofNat k =>
    have hden : (onGrid n (Int.ofNat k)).2 = unit * 10 ^ k := rfl
    refine ⟨1, Nat.one_pos, (Nat.mul_one n).symm, ?_⟩
    rw [hden, Int.ofNat_eq_natCast, zpow_natCast]
    push_cast
    ring
  | negSucc j =>
    have hden : (onGrid n (Int.negSucc j)).2 = unit := rfl
    refine ⟨10 ^ (j + 1), by positivity, rfl, ?_⟩
    rw [hden, zpow_negSucc]
    push_cast
    field_simp

private theorem onGrid?_rounds {n : Nat} {k : Int} {d : Decimal} (h : onGrid? n k = some d) :
    0 < d.coefficient ∧ Rounds (d.value * unit) n := by
  obtain ⟨c, hc, rfl⟩ := Option.map_eq_some_iff.1 h
  have hfound := List.find?_some hc
  rw [Bool.and_eq_true, decide_eq_true_eq, roundsTo_iff] at hfound
  exact hfound

/-- The neighbours of a number on a grid, the nearer one first. -/
def neighbours (num den : Nat) : List Nat :=
  if 2 * (num % den) < den ∨ (2 * (num % den) = den ∧ num / den % 2 = 0) then
    [num / den, num / den + 1]
  else [num / den + 1, num / den]

/-- The nearer neighbour is at most half a step away. -/
theorem exists_near (num : Nat) {den : Nat} (hden : 0 < den) :
    ∃ c ∈ neighbours num den, num / den ≤ c ∧ 2 * num ≤ 2 * (c * den) + den ∧
      2 * (c * den) ≤ 2 * num + den := by
  have hdiv : num / den * den + num % den = num := by
    rw [Nat.mul_comm]
    exact Nat.div_add_mod num den
  have hmod := Nat.mod_lt num hden
  unfold neighbours
  split
  · refine ⟨num / den, List.mem_cons_self, Nat.le_refl _, ?_⟩
    omega
  · refine ⟨num / den + 1, List.mem_cons_self, Nat.le_succ _, ?_⟩
    rw [Nat.add_mul, Nat.one_mul]
    omega

/-- Whatever is nearer than half a step of a grid finer than doubles rounds to the double. -/
theorem rounds_of_near {n : Nat} {x step : ℚ} (hn : 0 < n) (hstep : step * 10 ^ 16 ≤ n)
    (hbelow : 2 * n ≤ 2 * x + step) (habove : 2 * x ≤ 2 * n + step) : Rounds x n := by
  have hlt : (n : ℚ) < 2 ^ 53 * spacing n := by exact_mod_cast lt_spacing n
  have hn : (0 : ℚ) < n := by exact_mod_cast hn
  have hmargins : 2 * step < (margins n).1 ∧ 2 * step < (margins n).2 := by
    rw [margins_snd]
    rcases margins_fst n with ⟨hfst, -, hpower⟩ | ⟨hfst, -⟩
    · have hpower : (n : ℚ) = 2 ^ 52 * spacing n := by exact_mod_cast hpower
      rw [hfst]
      push_cast
      constructor <;> linarith
    · rw [hfst]
      push_cast
      constructor <;> linarith
  unfold Rounds
  split <;> constructor <;> linarith [hmargins.1, hmargins.2]

/-- On a grid whose step is small against a double, a neighbour rounds to it. -/
theorem onGrid?_isSome {n : Nat} {k : Int} (hn : 0 < n) (h : 10 ^ k * unit * 10 ^ 16 ≤ (n : ℚ)) :
    (onGrid? n k).isSome = true := by
  obtain ⟨s, hs, hnum, hden⟩ := onGrid_eq n k
  have hunit : (0 : ℚ) < unit := by exact_mod_cast unit_pos
  have hstep : (0 : ℚ) < 10 ^ k * unit := mul_pos (zpow_pos (by norm_num) k) hunit
  have hs' : (0 : ℚ) < s := by exact_mod_cast hs
  have hpos : 0 < (onGrid n k).2 := by
    rw [← Nat.cast_pos (α := ℚ), hden]
    exact mul_pos hstep hs'
  obtain ⟨c, hc, hlow, hbelow, habove⟩ := exists_near (onGrid n k).1 hpos
  have hrounds : Rounds (c * 10 ^ k * unit) n := by
    rw [← Nat.cast_le (α := ℚ)] at hbelow habove
    push_cast at hbelow habove
    rw [hnum, hden] at hbelow habove
    push_cast at hbelow habove
    refine rounds_of_near hn h (le_of_mul_le_mul_right ?_ hs') (le_of_mul_le_mul_right ?_ hs')
    · linarith
    · linarith
  have hcpos : 0 < c := by
    refine Nat.lt_of_lt_of_le (Nat.div_pos ?_ hpos) hlow
    rw [← Nat.cast_le (α := ℚ), hden, hnum]
    push_cast
    have hle : 10 ^ k * unit ≤ (n : ℚ) :=
      le_trans (le_mul_of_one_le_right hstep.le (by norm_num)) h
    exact mul_le_mul_of_nonneg_right hle hs'.le
  have hfound : ((neighbours (onGrid n k).1 (onGrid n k).2).find? fun c =>
      decide (0 < c) && roundsTo n c k).isSome = true := by
    rw [List.find?_isSome]
    refine ⟨c, hc, ?_⟩
    rw [Bool.and_eq_true, decide_eq_true_eq]
    exact ⟨hcpos, (roundsTo_iff n c k).2 hrounds⟩
  rw [onGrid?, Option.isSome_map]
  exact hfound

private theorem le_of_length_digits {q m : Nat} (hq : 0 < q) (h : (digits q).length = m + 1) :
    10 ^ m ≤ q := by
  rcases Nat.eq_zero_or_pos m with rfl | hm
  · exact hq
  · have hiff := Nat.length_toDigits_le_iff (n := q) (by decide : 1 < 10) hm
    exact Nat.le_of_not_lt fun hlt => by
      have hle : (digits q).length ≤ m := hiff.2 hlt
      omega

private theorem quotient_pos {n j k : Nat} (hn : 0 < n) (h : j ≤ 3 * k) :
    0 < n * Nat.pow 10 k / 1 <<< j := by
  rw [Nat.one_shiftLeft]
  refine Nat.div_pos ?_ (by positivity)
  calc 2 ^ j ≤ 2 ^ (3 * k) := Nat.pow_le_pow_right (by decide) h
    _ = (2 ^ 3) ^ k := Nat.pow_mul 2 3 k
    _ ≤ 10 ^ k := Nat.pow_le_pow_left (by decide) k
    _ ≤ n * 10 ^ k := Nat.le_mul_of_pos_left _ hn

/-- The place of the first digit of a number, counted on a whole multiple of it. -/
private theorem zpow_le_of_digits {n u : Nat} (k : Nat) (hu : 0 < u)
    (hq : 0 < n * Nat.pow 10 k / u) :
    10 ^ (((digits (n * Nat.pow 10 k / u)).length : ℤ) - (k + 1 : Nat)) * u ≤ (n : ℚ) := by
  obtain ⟨m, hm⟩ : ∃ m, (digits (n * Nat.pow 10 k / u)).length = m + 1 :=
    ⟨_, (Nat.succ_pred_eq_of_pos Nat.length_toDigits_pos).symm⟩
  have hle : 10 ^ m * u ≤ n * 10 ^ k :=
    (Nat.le_div_iff_mul_le hu).1 (le_of_length_digits hq hm)
  have hle : (10 ^ m * u : ℚ) ≤ n * 10 ^ k := by exact_mod_cast hle
  have hexponent : ((m + 1 : Nat) : ℤ) - (k + 1 : Nat) = m - k := by
    push_cast
    ring
  rw [hm, hexponent, zpow_sub₀ (by norm_num), zpow_natCast, zpow_natCast, div_mul_eq_mul_div,
    div_le_iff₀ (by positivity)]
  exact hle

private theorem lt_zpow_of_digits (n k : Nat) {u : Nat} (hu : 0 < u) :
    (n : ℚ) < 10 ^ (((digits (n * Nat.pow 10 k / u)).length : ℤ) - k) * u := by
  generalize hm : (digits (n * Nat.pow 10 k / u)).length = m
  have hpos : 0 < m := hm ▸ Nat.length_toDigits_pos
  have hlt : n * Nat.pow 10 k / u < 10 ^ m :=
    (Nat.length_toDigits_le_iff (by decide) hpos).1 (Nat.le_of_eq hm)
  have hlt : n * 10 ^ k < 10 ^ m * u := (Nat.div_lt_iff_lt_mul hu).1 hlt
  have hlt : (n * 10 ^ k : ℚ) < 10 ^ m * u := by exact_mod_cast hlt
  rw [zpow_sub₀ (by norm_num), zpow_natCast, zpow_natCast, div_mul_eq_mul_div,
    lt_div_iff₀ (by positivity)]
  exact hlt

/-- The place of the leading digit is not beyond the double. -/
theorem leading_le {n : Nat} (hn : 0 < n) : 10 ^ leading n * unit ≤ (n : ℚ) :=
  zpow_le_of_digits 400 unit_pos (quotient_pos hn (by decide))

/-- The place of the leading digit is the last that is not beyond the double. -/
theorem lt_leading (n : Nat) : (n : ℚ) < 10 ^ (leading n + 1) * unit := by
  have hexponent (length : ℤ) : length - (400 : Nat) = length - 401 + 1 := by omega
  refine lt_of_lt_of_eq (lt_zpow_of_digits n 400 unit_pos) ?_
  rw [hexponent]
  rfl

/-- The shortest decimal stands on the grid of one of the first seventeen digits. -/
theorem exists_shortest {n : Nat} (hn : 0 < n) :
    ∃ d < 17, onGrid? n (leading n - (d : Nat)) = some (shortest n) := by
  have hlast : 10 ^ (leading n - (16 : Nat)) * unit * 10 ^ 16 ≤ (n : ℚ) := by
    refine le_of_eq_of_le ?_ (leading_le hn)
    rw [zpow_sub₀ (by norm_num), zpow_natCast]
    field_simp
  -- the seventeenth digit is the last that is tried
  have hsome : ((List.range 17).findSome? fun (d : Nat) => onGrid? n (leading n - d)).isSome =
      true := by
    rw [List.findSome?_isSome_iff]
    exact ⟨16, List.mem_range.2 (by decide), onGrid?_isSome hn hlast⟩
  obtain ⟨decimal, hdecimal⟩ := Option.isSome_iff_exists.1 hsome
  obtain ⟨d, hd, hgrid⟩ := List.exists_of_findSome?_eq_some hdecimal
  have hshortest : shortest n = decimal := by
    rw [shortest, hdecimal]
    rfl
  rw [hshortest]
  exact ⟨d, List.mem_range.1 hd, hgrid⟩

/-- The shortest decimal of a positive double rounds to it. -/
theorem shortest_rounds {n : Nat} (hn : 0 < n) :
    0 < (shortest n).coefficient ∧ Rounds ((shortest n).value * unit) n := by
  obtain ⟨d, -, hgrid⟩ := exists_shortest hn
  exact onGrid?_rounds hgrid

private theorem onGrid?_le {n : Nat} {k : Int} {d : Decimal} (h : onGrid? n k = some d) :
    d.coefficient ≤ (onGrid n k).1 / (onGrid n k).2 + 1 := by
  obtain ⟨c, hc, rfl⟩ := Option.map_eq_some_iff.1 h
  have hmem : c ∈ neighbours (onGrid n k).1 (onGrid n k).2 := List.mem_of_find?_eq_some hc
  have hle : c ≤ (onGrid n k).1 / (onGrid n k).2 + 1 := by
    rw [neighbours] at hmem
    split at hmem <;> rw [List.mem_pair] at hmem <;> omega
  exact hle

/-- The shortest decimal has seventeen digits, or is the power of ten above them. -/
theorem shortest_le {n : Nat} (hn : 0 < n) : (shortest n).coefficient ≤ 10 ^ 17 := by
  obtain ⟨d, hd, hgrid⟩ := exists_shortest hn
  refine Nat.le_trans (onGrid?_le hgrid) ?_
  obtain ⟨s, hs, hnum, hden⟩ := onGrid_eq n (leading n - (d : Nat))
  have hs : (0 : ℚ) < s := by exact_mod_cast hs
  have hlt : (onGrid n (leading n - (d : Nat))).1 <
      10 ^ (d + 1) * (onGrid n (leading n - (d : Nat))).2 := by
    rw [← Nat.cast_lt (α := ℚ), hnum]
    push_cast
    rw [hden]
    calc (n * s : ℚ) < 10 ^ (leading n + 1) * unit * s := mul_lt_mul_of_pos_right (lt_leading n) hs
      _ = 10 ^ (d + 1) * (10 ^ (leading n - (d : Nat)) * unit * s) := by
        have hsplit : leading n + 1 = (d + 1 : Nat) + (leading n - (d : Nat)) := by
          push_cast
          ring
        rw [hsplit, zpow_add₀ (by norm_num), zpow_natCast]
        ring
  calc _ ≤ 10 ^ (d + 1) := Nat.div_lt_of_lt_mul (by rwa [Nat.mul_comm] at hlt)
    _ ≤ 10 ^ 17 := Nat.pow_le_pow_right (by decide) hd

/-- Doubles with the same shortest decimal, in value, are the same. -/
theorem eq_of_value_shortest {m n : Nat} (hm : Representable m) (hn : Representable n)
    (hmpos : 0 < m) (hnpos : 0 < n) (h : (shortest m).value = (shortest n).value) : m = n :=
  (h ▸ (shortest_rounds hmpos).2).unique hm hn (shortest_rounds hnpos).2

end Double
end Retrace

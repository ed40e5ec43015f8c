import Retrace.Proofs.Numeral.Shortest

/-! Rounding in exact arithmetic. The double nearest to a quotient is the one that the quotient rounds
to, so products and quotients of exact numbers are rounded once. -/
namespace Retrace.Double

/-! ### The nearest double -/

/-- At most 53 significant bits make a double. -/
theorem representable_mul {r e : Nat} (h : r ≤ 2 ^ 53) : Representable (r * 2 ^ e) := by
  have hdvd {k : Nat} (h : spacing (r * 2 ^ e) ∣ 2 ^ k) (hk : 2 ^ k ∣ r * 2 ^ e) :
      Representable (r * 2 ^ e) := h.trans hk
  rcases Nat.lt_or_eq_of_le h with hlt | rfl
  · apply hdvd (k := e) ?_ (Nat.dvd_mul_left _ _)
    rw [spacing_eq]
    apply Nat.pow_dvd_pow
    by_cases hzero : r * 2 ^ e = 0
    · rw [hzero]
      exact Nat.zero_le _
    · have hlog : (r * 2 ^ e).log2 < 53 + e := by
        rw [Nat.log2_lt hzero, Nat.pow_add]
        exact Nat.mul_lt_mul_of_pos_right hlt (Nat.two_pow_pos e)
      omega
  · apply hdvd (k := e + 1)
    · rw [← Nat.pow_add, spacing_eq, Nat.log2_two_pow]
      exact Nat.pow_dvd_pow 2 (by omega)
    · rw [← Nat.pow_add]
      exact Nat.pow_dvd_pow 2 (by omega)

private theorem nearestEven_le (num den : Nat) : nearestEven num den ≤ num / den + 1 := by
  simp only [nearestEven]
  split <;> omega

private theorem representable_nearest (num den : Nat) : Representable (nearest num den) := by
  have hlt : num / (den * spacing (num / den)) < 2 ^ 53 := by
    rw [← Nat.div_div_eq_div_mul]
    apply Nat.div_lt_of_lt_mul
    rw [Nat.mul_comm]
    exact lt_spacing (num / den)
  have hle := nearestEven_le num (den * spacing (num / den))
  rw [nearest]
  simp only [spacing_eq] at hlt hle ⊢
  exact representable_mul (Nat.le_trans hle hlt)

/-- The nearest whole number is at most a half away, and less if it is odd. -/
theorem nearestEven_near (num : Nat) {den : Nat} (hden : 0 < den) :
    2 * num ≤ 2 * (nearestEven num den * den) + den ∧
      2 * (nearestEven num den * den) ≤ 2 * num + den ∧
      (nearestEven num den % 2 = 1 → 2 * num < 2 * (nearestEven num den * den) + den ∧
        2 * (nearestEven num den * den) < 2 * num + den) := by
  have hdiv : num / den * den + num % den = num := by
    rw [Nat.mul_comm]
    exact Nat.div_add_mod num den
  have hmod := Nat.mod_lt num hden
  have hsucc : (num / den + 1) * den = num / den * den + den := Nat.succ_mul _ _
  simp only [nearestEven]
  split
  · next h =>
    have hlt := Nat.compare_eq_lt.1 h
    omega
  · next h =>
    have hgt := Nat.compare_eq_gt.1 h
    rw [hsucc]
    omega
  · next h =>
    have heq := Nat.compare_eq_eq.1 h
    rcases Nat.mod_two_eq_zero_or_one (num / den) with heven | hodd
    · rw [heven, Nat.add_zero]
      omega
    · rw [hodd, hsucc]
      omega

private theorem spacing_mul {q e : Nat} (hq : q < 2 ^ 53) (h : e = 0 ∨ 2 ^ 52 ≤ q) :
    spacing (q * 2 ^ e) = 2 ^ e := by
  rw [spacing_eq]
  congr 1
  rcases h with rfl | h
  · rw [Nat.pow_zero, Nat.mul_one]
    rcases Nat.eq_zero_or_pos q with rfl | hpos
    · decide
    · have := (Nat.log2_lt (by omega)).2 hq
      omega
  · have hlog : (q * 2 ^ e).log2 = 52 + e := by
      rw [Nat.log2_eq_iff (by positivity), Nat.pow_add, Nat.add_right_comm, Nat.pow_add]
      exact ⟨Nat.mul_le_mul_right _ h, Nat.mul_lt_mul_of_pos_right hq (Nat.two_pow_pos e)⟩
    omega

/-- The significand of the nearest double, counted in steps of `2 ^ e`: it has 53 bits, or is the
power of two above them. -/
theorem significand_bounds {num den e : Nat} (hden : 0 < den) (he : spacing (num / den) = 2 ^ e) :
    nearestEven num (den * 2 ^ e) ≤ 2 ^ 53 ∧
      (1 < 2 ^ e → 2 ^ 52 * (den * 2 ^ e) ≤ num ∧ 2 ^ 52 ≤ nearestEven num (den * 2 ^ e)) := by
  have hS : 0 < den * 2 ^ e := by positivity
  obtain ⟨hbelow, habove, -⟩ := nearestEven_near num hS
  have hlt : num < 2 ^ 53 * (den * 2 ^ e) := by
    have hdiv : num / den < 2 ^ 53 * 2 ^ e := he ▸ lt_spacing (num / den)
    have hnum := Nat.lt_mul_of_div_lt hdiv hden
    rwa [Nat.mul_assoc, Nat.mul_comm (2 ^ e)] at hnum
  constructor
  · by_contra hnot
    have hmul : (2 ^ 53 + 1) * (den * 2 ^ e) ≤ nearestEven num (den * 2 ^ e) * (den * 2 ^ e) :=
      Nat.mul_le_mul_right _ (by omega)
    rw [Nat.add_mul] at hmul
    omega
  · intro hone
    have hge : 2 ^ 52 * (den * 2 ^ e) ≤ num := by
      have hdiv : 2 ^ 52 * 2 ^ e ≤ num / den := he ▸ spacing_le (he.symm ▸ hone)
      have hnum := (Nat.le_div_iff_mul_le hden).1 hdiv
      rwa [Nat.mul_assoc, Nat.mul_comm (2 ^ e)] at hnum
    refine ⟨hge, ?_⟩
    by_contra hnot
    have hmul : (nearestEven num (den * 2 ^ e) + 1) * (den * 2 ^ e) ≤ 2 ^ 52 * (den * 2 ^ e) :=
      Nat.mul_le_mul_right _ (by omega)
    rw [Nat.add_mul] at hmul
    omega

/-- A quotient rounds to the double nearest to it. -/
theorem nearest_rounds (num : Nat) {den : Nat} (hden : 0 < den) :
    Rounds (num / den) (nearest num den) := by
  obtain ⟨e, he⟩ : ∃ e, spacing (num / den) = 2 ^ e := ⟨_, spacing_eq _⟩
  obtain ⟨hle, hge⟩ := significand_bounds hden he
  have hS : 0 < den * 2 ^ e := by positivity
  obtain ⟨hbelow, habove, hodd⟩ := nearestEven_near num hS
  have hvalue : (num : ℚ) = num / den * den := (div_mul_cancel₀ _ (by positivity)).symm
  rw [nearest, he, ← rounds_scaled hden hvalue]
  generalize nearestEven num (den * 2 ^ e) = q at hle hge hbelow habove hodd ⊢
  have hmul (a : Nat) : a * 2 ^ e * den = a * (den * 2 ^ e) := by
    rw [Nat.mul_assoc, Nat.mul_comm (2 ^ e)]
  rw [hmul, margins_snd]
  rcases Nat.lt_or_eq_of_le hle with hlt | rfl
  · -- the steps around the nearest double are those around the quotient
    have hspacing : spacing (q * 2 ^ e) = 2 ^ e := by
      refine spacing_mul hlt ?_
      rcases Nat.eq_zero_or_pos e with rfl | hpos
      · exact .inl rfl
      · exact .inr (hge (Nat.one_lt_two_pow (by omega))).2
    have hties : TakesTies (q * 2 ^ e) ↔ q % 2 = 0 := by
      rw [TakesTies, hspacing, Nat.mul_div_cancel _ (by positivity)]
    have hmargin : (margins (q * 2 ^ e)).1 * den = 2 * (den * 2 ^ e) ∨
        (margins (q * 2 ^ e)).1 * den = den * 2 ^ e ∧ q * (den * 2 ^ e) ≤ num := by
      rcases margins_fst (q * 2 ^ e) with ⟨hfst, hone, hpower⟩ | ⟨hfst, -⟩
      · rw [hspacing] at hfst hone hpower
        refine .inr ⟨by rw [hfst, Nat.mul_comm], ?_⟩
        rw [Nat.eq_of_mul_eq_mul_right (by positivity) hpower]
        exact (hge hone).1
      · rw [hfst, hspacing, hmul]
        exact .inl rfl
    rw [hspacing, hmul]
    split
    · omega
    · next hnot =>
      rw [hties] at hnot
      have := hodd (by omega)
      omega
  · -- the nearest double is the first of the next steps, which are twice as wide
    have hspacing : spacing (2 ^ 53 * 2 ^ e) = 2 * 2 ^ e := by
      have hnext : 2 ^ 53 * 2 ^ e = 2 ^ 52 * 2 ^ (e + 1) := by ring
      rw [hnext, spacing_mul (by decide) (.inr (Nat.le_refl _)), Nat.pow_succ']
    have hties : TakesTies (2 ^ 53 * 2 ^ e) := by
      have hhalf : 2 ^ 53 * 2 ^ e = 2 ^ 52 * (2 * 2 ^ e) := by ring
      rw [TakesTies, hspacing, hhalf, Nat.mul_div_cancel _ (by positivity)]
      decide
    have hwide : 2 * (2 * 2 ^ e) * den = 4 * (den * 2 ^ e) := by ring
    have hmargin : 2 * (den * 2 ^ e) ≤ (margins (2 ^ 53 * 2 ^ e)).1 * den := by
      rw [← hmul]
      refine Nat.mul_le_mul_right den ?_
      rcases margins_fst (2 ^ 53 * 2 ^ e) with ⟨hfst, -⟩ | ⟨hfst, -⟩ <;> omega
    rw [if_pos hties, hspacing, hwide]
    omega

theorem Rounds.near {x : ℚ} {n : Nat} (h : Rounds x n) :
    4 * n ≤ 4 * x + (margins n).1 ∧ 4 * x ≤ 4 * n + (margins n).2 := by
  rw [Rounds] at h
  split at h
  · exact h
  · exact ⟨le_of_lt h.1, le_of_lt h.2⟩

/-- What rounds to a double below another one is below that one, and likewise above. -/
theorem Rounds.lt_of_lt {x : ℚ} {m n : Nat} (hm : Representable m) (hn : Representable n)
    (h : Rounds x m) : (m < n → x < n) ∧ (n < m → n < x) := by
  obtain ⟨hbelow, habove⟩ := h.near
  constructor
  · intro hlt
    have hapart : (4 * m + (margins m).2 + (margins n).1 : ℚ) ≤ 4 * n := by
      exact_mod_cast (margins_apart hm hn hlt).1
    have hpos : (0 : ℚ) < (margins n).1 := by exact_mod_cast (margins_pos n).1
    linarith
  · intro hlt
    have hapart : (4 * n + (margins n).2 + (margins m).1 : ℚ) ≤ 4 * m := by
      exact_mod_cast (margins_apart hn hm hlt).1
    have hpos : (0 : ℚ) < (margins n).2 := by exact_mod_cast (margins_pos n).2
    linarith

/-- Rounding does not go beyond a double. -/
theorem nearest_le_of_le {num den n : Nat} (hden : 0 < den) (hn : Representable n)
    (h : (num / den : ℚ) ≤ n) : nearest num den ≤ n := by
  by_contra hlt
  have hbeyond := ((nearest_rounds num hden).lt_of_lt (representable_nearest num den) hn).2
    (Nat.lt_of_not_le hlt)
  exact not_lt_of_ge h hbeyond

private theorem le_nearest_of_le {num den n : Nat} (hden : 0 < den) (hn : Representable n)
    (h : (n : ℚ) ≤ num / den) : n ≤ nearest num den := by
  by_contra hlt
  have hbelow := ((nearest_rounds num hden).lt_of_lt (representable_nearest num den) hn).1
    (Nat.lt_of_not_le hlt)
  exact not_lt_of_ge h hbelow

/-- What rounds to a double has it for its nearest one. -/
theorem nearest_eq_of_rounds {num den n : Nat} (hden : 0 < den) (hn : Representable n)
    (h : Rounds (num / den) n) : nearest num den = n :=
  (nearest_rounds num hden).unique (representable_nearest num den) hn h

private theorem rounds_self (n : Nat) : Rounds n n := by
  obtain ⟨hbelow, habove⟩ := margins_pos n
  have hbelow : (0 : ℚ) < (margins n).1 := by exact_mod_cast hbelow
  have habove : (0 : ℚ) < (margins n).2 := by exact_mod_cast habove
  rw [Rounds]
  split <;> constructor <;> linarith

/-! ### Exact numbers -/

theorem unit_eq : unit = 2 ^ 1074 := by rw [unit, Nat.one_shiftLeft]

theorem limit_eq : limit = 2 ^ 2098 := by rw [limit, Nat.one_shiftLeft]

private theorem ofNat_of_le {s : Nat} (h : s ≤ 2 ^ 53) : ofNat s = s * unit := by
  have hs : Representable (s * unit) := by
    rw [unit_eq]
    exact representable_mul h
  refine nearest_eq_of_rounds Nat.one_pos hs ?_
  rw [Nat.cast_one, div_one]
  exact rounds_self _

/-- Up to the twenty-second, powers of ten are doubles. -/
theorem power_of_le {k : Nat} (h : k ≤ 22) : power k = 10 ^ k * unit := by
  have hfive : 5 ^ k ≤ 2 ^ 53 := by
    calc 5 ^ k ≤ 5 ^ 22 := Nat.pow_le_pow_right (by decide) h
      _ ≤ 2 ^ 53 := by decide
  have hk : Representable (10 ^ k * unit) := by
    have hten : 10 ^ k = 5 ^ k * 2 ^ k := Nat.mul_pow 5 2 k
    rw [hten, unit_eq, Nat.mul_assoc, ← Nat.pow_add]
    exact @representable_mul (5 ^ k) (k + 1074) hfive
  refine nearest_eq_of_rounds Nat.one_pos hk ?_
  rw [Nat.cast_one, div_one]
  exact rounds_self _

/-- A significand of 53 bits and a power of ten up to the twenty-second, up or down, are rounded once
when they are put together. -/
theorem scale_of_short {s n : Nat} {e : Int} (hpos : 0 < s) (hs : s ≤ 2 ^ 53) (hlow : -22 ≤ e)
    (hhigh : e ≤ 22) (hn : Representable n) (hlimit : n < limit)
    (h : Rounds (s * 10 ^ e * unit) n) : scale s e = some n := by
  have hunit : (unit : ℚ) ≠ 0 := by exact_mod_cast unit_pos.ne'
  cases e with
  | ofNat k =>
    have hk : k ≤ 22 := Int.ofNat_le.1 hhigh
    have hproduct : times (ofNat s) (power k) = n := by
      rw [times, ofNat_of_le hs, power_of_le hk]
      refine nearest_eq_of_rounds unit_pos hn ?_
      convert h using 1
      push_cast
      field_simp
      rfl
    rw [scale, if_neg (by omega), if_neg (by omega)]
    simp only [hproduct, hlimit, if_true]
  | negSucc j =>
    have hk : j + 1 ≤ 22 := by omega
    have hquotient : quotient (ofNat s) (power (j + 1)) = n := by
      rw [quotient, ofNat_of_le hs, power_of_le hk]
      refine nearest_eq_of_rounds (Nat.mul_pos (by positivity) unit_pos) hn ?_
      convert h using 1
      rw [zpow_negSucc]
      push_cast
      field_simp
    simp only [scale, hquotient]
    rw [if_pos (by omega)]

/-! ### How far roundings go -/

/-- Above 53 bits, rounding adds no more than one part in `2 ^ 53`. -/
theorem nearest_le {num den : Nat} (hden : 0 < den) (h : 2 ^ 53 ≤ num / den) :
    (nearest num den : ℚ) ≤ num / den * (1 + 1 / 2 ^ 53) := by
  obtain ⟨e, he⟩ : ∃ e, spacing (num / den) = 2 ^ e := ⟨_, spacing_eq _⟩
  have hone : 1 < 2 ^ e := by
    have hlt := Nat.lt_of_le_of_lt h (lt_spacing (num / den))
    rw [he] at hlt
    exact Nat.lt_of_mul_lt_mul_left (Nat.lt_of_le_of_lt (Nat.le_of_eq (Nat.mul_one _)) hlt)
  have hsmall := ((significand_bounds hden he).2 hone).1
  have hspacing : 0 < den * 2 ^ e := by positivity
  obtain ⟨-, habove, -⟩ := nearestEven_near num hspacing
  have hmul : 2 ^ 53 * (nearest num den * den) ≤ num * (2 ^ 53 + 1) := by
    have hscaled : nearest num den * den = nearestEven num (den * 2 ^ e) * (den * 2 ^ e) := by
      rw [nearest, he, Nat.mul_assoc, Nat.mul_comm (2 ^ e)]
    rw [hscaled]
    omega
  have hmul : (2 ^ 53 * (nearest num den * den) : ℚ) ≤ num * (2 ^ 53 + 1) := by exact_mod_cast hmul
  have hden : (0 : ℚ) < den := by exact_mod_cast hden
  rw [div_mul_eq_mul_div, le_div_iff₀ hden]
  linarith

private theorem ofNat_le {m : Nat} (hm : 0 < m) : (ofNat m : ℚ) ≤ m * unit * (1 + 1 / 2 ^ 53) := by
  have hbits : 2 ^ 53 ≤ m * unit / 1 := by
    rw [Nat.div_one, unit_eq]
    calc 2 ^ 53 ≤ 2 ^ 1074 := Nat.pow_le_pow_right (by decide) (by decide)
      _ ≤ m * 2 ^ 1074 := Nat.le_mul_of_pos_left _ hm
  have hle := nearest_le Nat.one_pos hbits
  rw [Nat.cast_one, div_one, Nat.cast_mul] at hle
  exact hle

private theorem mul_div_le {a b x y u c : ℚ} (hu : 0 < u) (hb : 0 ≤ b) (hx : 0 ≤ x) (hc : 0 ≤ c)
    (ha : a ≤ x * u * c) (hbound : b ≤ y * u * c) : a * b / u * c ≤ x * y * u * c ^ 3 :=
  calc a * b / u * c ≤ x * u * c * (y * u * c) / u * c := by gcongr
    _ = x * y * u * c ^ 3 := by field_simp

/-- A product of a whole number and a power of ten is rounded three times. -/
theorem times_le {s : Nat} (hs : 0 < s) (k : Nat) :
    (times (ofNat s) (power k) : ℚ) ≤
      max (2 ^ 53) ((s : ℚ) * 10 ^ k * unit * (1 + 1 / 2 ^ 53) ^ 3) := by
  rcases Nat.lt_or_ge (ofNat s * power k / unit) (2 ^ 53) with hlt | hge
  · refine le_max_of_le_left ?_
    have hpower : Representable (2 ^ 53) := by decide
    have hlt : ofNat s * power k < 2 ^ 53 * unit := (Nat.div_lt_iff_lt_mul unit_pos).1 hlt
    have hlt : (ofNat s * power k : ℚ) < 2 ^ 53 * unit := by exact_mod_cast hlt
    have hle : times (ofNat s) (power k) ≤ 2 ^ 53 := by
      refine nearest_le_of_le unit_pos hpower ?_
      rw [div_le_iff₀ (by exact_mod_cast unit_pos)]
      exact_mod_cast hlt.le
    exact_mod_cast hle
  · refine le_max_of_le_right ?_
    have hunit : (0 : ℚ) < unit := by exact_mod_cast unit_pos
    have hpower : (power k : ℚ) ≤ 10 ^ k * unit * (1 + 1 / 2 ^ 53) := by
      have hle := ofNat_le (Nat.pow_pos (n := k) (by decide : 0 < 10))
      rw [Nat.cast_pow] at hle
      exact hle
    have hle := nearest_le unit_pos hge
    rw [Nat.cast_mul] at hle
    exact le_trans hle (mul_div_le hunit (Nat.cast_nonneg _) (Nat.cast_nonneg _) (by norm_num)
      (ofNat_le hs) hpower)

/-- What rounds to a double below the limit is no more than a half of the widest step beyond it. -/
theorem Rounds.le_of_lt {x : ℚ} {n : Nat} (hn : n < limit) (h : Rounds x n) :
    x ≤ n + 2 ^ 2044 := by
  have hspacing : spacing n ≤ 2 ^ 2045 := by
    rw [spacing_eq]
    refine Nat.pow_le_pow_right (by decide) ?_
    rcases Nat.eq_zero_or_pos n with rfl | hpos
    · decide
    · have hlog : n.log2 < 2098 := (Nat.log2_lt (by omega)).2 (by rwa [limit_eq] at hn)
      omega
  have hspacing : (spacing n : ℚ) ≤ 2 * 2 ^ 2044 := by
    rw [← pow_succ']
    exact_mod_cast hspacing
  have hle := h.near.2
  rw [margins_snd] at hle
  push_cast at hle
  linarith

/-- A quotient of a double and a divisor no less than one is no more than the double. -/
theorem quotient_le {a b n : Nat} (hb : unit ≤ b) (hn : Representable n) (ha : a ≤ n) :
    quotient a b ≤ n := by
  have hpos : 0 < b := Nat.lt_of_lt_of_le unit_pos hb
  refine nearest_le_of_le hpos hn ?_
  rw [div_le_iff₀ (by exact_mod_cast hpos)]
  exact_mod_cast Nat.mul_le_mul ha hb

private theorem unit_le_power (k : Nat) : unit ≤ power k := by
  have hunit : Representable unit := by
    rw [unit_eq, ← Nat.one_mul (2 ^ 1074)]
    exact representable_mul (by decide)
  refine le_nearest_of_le Nat.one_pos hunit ?_
  rw [Nat.cast_one, div_one]
  exact_mod_cast Nat.le_mul_of_pos_left _ (Nat.pow_pos (by decide))

/-- A number of units that is a double within the limit. -/
structure IsFinite (n : Nat) : Prop where
  representable : Representable n
  lt_limit : n < limit

private theorem isFinite_zero : IsFinite 0 := ⟨dvd_zero _, by decide +kernel⟩

/-- What is put together from a significand of 64 bits is within the limit. -/
theorem isFinite_of_scale {s n : Nat} {e : Int} (hs : s < 2 ^ 64) (h : scale s e = some n) :
    IsFinite n := by
  have hbound : Representable (1 * 2 ^ 1138) := representable_mul (by decide)
  have hsignificand : ofNat s ≤ 1 * 2 ^ 1138 := by
    refine nearest_le_of_le Nat.one_pos hbound ?_
    rw [Nat.cast_one, div_one, unit_eq, Nat.cast_le]
    calc s * 2 ^ 1074 ≤ 2 ^ 64 * 2 ^ 1074 := Nat.mul_le_mul_right _ hs.le
      _ = 1 * 2 ^ 1138 := by rw [← Nat.pow_add, Nat.one_mul]
  have hquotient {a : Nat} (k : Nat) (ha : a ≤ 1 * 2 ^ 1138) : quotient a (power k) ≤ 1 * 2 ^ 1138 :=
    quotient_le (unit_le_power k) hbound ha
  have hfinite {a b : Nat} (hle : quotient a b ≤ 1 * 2 ^ 1138) : IsFinite (quotient a b) := by
    refine ⟨representable_nearest _ _, Nat.lt_of_le_of_lt hle ?_⟩
    rw [limit_eq, Nat.one_mul]
    exact Nat.pow_lt_pow_right (by decide) (by decide)
  cases e with
  | ofNat k =>
    simp only [scale] at h
    split at h
    · cases h
      exact isFinite_zero
    · split at h
      · cases h
      · split at h
        · next hlt =>
          cases h
          exact ⟨representable_nearest _ _, hlt⟩
        · cases h
  | negSucc j =>
    simp only [scale] at h
    split at h
    · cases h
      exact hfinite (hquotient _ hsignificand)
    · split at h
      · cases h
        exact hfinite (hquotient _ (hquotient _ hsignificand))
      · cases h
        exact isFinite_zero

/-- A decimal that stays clear of the limit is put together. -/
theorem scale_isSome_of_le {s : Nat} {e : Int} (hpos : 0 < s)
    (h : (s * 10 ^ e * unit : ℚ) ≤ (2 ^ 54 - 7) * 2 ^ 2044) : (scale s e).isSome = true := by
  cases e with
  | negSucc j =>
    simp only [scale]
    split_ifs <;> rfl
  | ofNat k =>
    have h : (s * 10 ^ k * unit : ℚ) ≤ (2 ^ 54 - 7) * 2 ^ 2044 := h
    have hlimit : (limit : ℚ) = 2 ^ 54 * 2 ^ 2044 := by
      rw [limit_eq, ← pow_add]
      exact Nat.cast_pow 2 2098
    have hstep : (0 : ℚ) < 2 ^ 2044 := by positivity
    have hk : ¬ 308 < k := by
      intro hk
      have hlarge : limit < s * 10 ^ k * unit :=
        calc limit = 2 ^ 1024 * unit := by rw [limit_eq, unit_eq, ← Nat.pow_add]
          _ < 10 ^ 309 * unit := Nat.mul_lt_mul_of_pos_right (by decide +kernel) unit_pos
          _ ≤ 10 ^ k * unit := Nat.mul_le_mul_right _ (Nat.pow_le_pow_right (by decide) hk)
          _ ≤ s * 10 ^ k * unit :=
            Nat.mul_le_mul_right _ (Nat.le_mul_of_pos_left _ hpos)
      have hlarge : (limit : ℚ) < s * 10 ^ k * unit := by exact_mod_cast hlarge
      rw [hlimit] at hlarge
      generalize (2 : ℚ) ^ 2044 = step at h hlarge hstep
      linarith
    have hproduct : times (ofNat s) (power k) < limit := by
      rw [← Nat.cast_lt (α := ℚ), hlimit]
      refine lt_of_le_of_lt (times_le hpos k) (max_lt ?_ ?_)
      · have hone : (1 : ℚ) ≤ 2 ^ 2044 := one_le_pow₀ (by norm_num)
        generalize (2 : ℚ) ^ 2044 = step at hone
        linarith
      · calc (s : ℚ) * 10 ^ k * unit * (1 + 1 / 2 ^ 53) ^ 3
            ≤ (2 ^ 54 - 7) * 2 ^ 2044 * (1 + 1 / 2 ^ 53) ^ 3 := by gcongr
          _ = (2 ^ 54 - 7) * (1 + 1 / 2 ^ 53) ^ 3 * 2 ^ 2044 := by ring
          _ < 2 ^ 54 * 2 ^ 2044 := by
            refine mul_lt_mul_of_pos_right ?_ hstep
            norm_num
    rw [scale, if_neg (by omega), if_neg hk]
    simp only [hproduct, if_true]
    rfl

/-- Unless a double is one of the last three, whatever rounds to it is put together. -/
theorem scale_isSome_of_rounds {s n : Nat} {e : Int} (hpos : 0 < s)
    (hn : n + 4 * 2 ^ 2045 ≤ limit) (h : Rounds (s * 10 ^ e * unit) n) :
    (scale s e).isSome = true := by
  refine scale_isSome_of_le hpos (le_trans (h.le_of_lt (by omega)) ?_)
  have hn : (n + 4 * 2 ^ 2045 : ℚ) ≤ 2 ^ 54 * 2 ^ 2044 := by
    rw [← pow_add]
    rw [limit_eq] at hn
    exact_mod_cast hn
  rw [pow_succ (2 : ℚ) 2044] at hn
  linarith

end Retrace.Double

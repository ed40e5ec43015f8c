import Mathlib.Algebra.Order.Field.Power
import Mathlib.Algebra.Order.Field.Rat
import Mathlib.Data.List.TakeWhile
import Mathlib.Tactic.FieldSimp
import Mathlib.Tactic.Ring
import Retrace.Proofs.Json.NumberText
import Retrace.Proofs.Numeral.Shortest

/-! Printed numbers tell the numbers. The text of a double spells the value of its shortest decimal,
whatever its layout, and that value rounds to no other double. -/
namespace Retrace

namespace Layout

def plainValue (cs : List Char) : ℚ :=
  let whole := cs.takeWhile (· ≠ '.')
  let fraction := (cs.dropWhile (· ≠ '.')).drop 1
  Nat.ofDigitChars 10 (whole ++ fraction) 0 / 10 ^ fraction.length

def powerValue : List Char → ℤ
  | '+' :: ds => Nat.ofDigitChars 10 ds 0
  | '-' :: ds => -Nat.ofDigitChars 10 ds 0
  | _ => 0

def spelledValue (cs : List Char) : ℚ :=
  plainValue (cs.takeWhile (· ≠ 'e')) * 10 ^ powerValue ((cs.dropWhile (· ≠ 'e')).drop 1)

/-! ### Cutting a text at a character -/

private theorem cut_at {q : Char} {front : List Char} (h : q ∉ front) (back : List Char) :
    (front ++ q :: back).takeWhile (· ≠ q) = front ∧
      ((front ++ q :: back).dropWhile (· ≠ q)).drop 1 = back := by
  have hfront : ∀ c ∈ front, decide (c ≠ q) = true := fun c hc =>
    decide_eq_true fun heq => h (heq ▸ hc)
  rw [List.takeWhile_append_of_pos hfront, List.dropWhile_append_of_pos hfront]
  simp

private theorem uncut {q : Char} {cs : List Char} (h : q ∉ cs) :
    cs.takeWhile (· ≠ q) = cs ∧ (cs.dropWhile (· ≠ q)).drop 1 = [] := by
  have hall : ∀ c ∈ cs, decide (c ≠ q) = true := fun c hc =>
    decide_eq_true fun heq => h (heq ▸ hc)
  rw [List.takeWhile_eq_self_iff.2 hall, List.dropWhile_eq_nil_iff.2 hall]
  exact ⟨rfl, rfl⟩

private theorem not_mem_of_digits {q : Char} {ds : List Char} (hds : ∀ c ∈ ds, c.isDigit = true)
    (hq : q.isDigit = false) : q ∉ ds := fun h => by
  rw [hds q h] at hq
  cases hq

private theorem plainValue_point {whole : List Char} (h : '.' ∉ whole) (fraction : List Char) :
    plainValue (whole ++ '.' :: fraction) =
      Nat.ofDigitChars 10 (whole ++ fraction) 0 / 10 ^ fraction.length := by
  obtain ⟨hwhole, hfraction⟩ := cut_at h fraction
  rw [plainValue, hwhole, hfraction]

private theorem spelledValue_plain {cs : List Char} (h : 'e' ∉ cs) :
    spelledValue cs = plainValue cs := by
  obtain ⟨hall, hnone⟩ := uncut h
  rw [spelledValue, hall, hnone]
  exact mul_one _

private theorem spelledValue_mark {mantissa power : List Char} (h : 'e' ∉ mantissa) :
    spelledValue (mantissa ++ 'e' :: power) = plainValue mantissa * 10 ^ powerValue power := by
  obtain ⟨hmantissa, hpower⟩ := cut_at h power
  rw [spelledValue, hmantissa, hpower]

/-! ### The layout of numbers -/

def mantissa : List Char → List Char
  | [] => ['0']
  | [d] => [d]
  | d :: rest => d :: '.' :: rest

def power (layout : Layout) : ℤ → List Char
  | .ofNat k => layout.plus ++ digits k
  | .negSucc j => '-' :: digits (j + 1)

variable {layout : Layout} {ds : List Char} {exponent : ℤ}

theorem place_scientific (h : exponent < layout.plainFrom ∨ layout.plainTo < exponent) :
    layout.place ds exponent = mantissa ds ++ layout.mark :: layout.power exponent := by
  unfold place
  rw [if_pos h]
  cases exponent <;> rcases ds with _ | ⟨d, _ | ⟨d', rest⟩⟩ <;> rfl

theorem place_small {j : Nat}
    (h : ¬ (.negSucc j < layout.plainFrom ∨ layout.plainTo < .negSucc j)) :
    layout.place ds (.negSucc j) = ['0'] ++ '.' :: (zeros j ++ ds) := by
  unfold place
  rw [if_neg h]
  rfl

theorem place_plain {k : Nat}
    (h : ¬ (.ofNat k < layout.plainFrom ∨ layout.plainTo < .ofNat k)) :
    layout.place ds (.ofNat k) = ds.take (k + 1) ++ zeros (k + 1 - (ds.take (k + 1)).length) ++
      '.' :: (if ds.drop (k + 1) = [] then ['0'] else ds.drop (k + 1)) := by
  unfold place
  rw [if_neg h]

theorem ofDigitChars_zeros (ds : List Char) (n : Nat) :
    Nat.ofDigitChars 10 (ds ++ zeros n) 0 = Nat.ofDigitChars 10 ds 0 * 10 ^ n := by
  rw [Nat.ofDigitChars_append, zeros, Nat.ofDigitChars_replicate_zero, Nat.mul_comm]

theorem zeros_ofDigitChars (n : Nat) (ds : List Char) :
    Nat.ofDigitChars 10 (zeros n ++ ds) 0 = Nat.ofDigitChars 10 ds 0 := by
  rw [Nat.ofDigitChars_append, zeros, Nat.ofDigitChars_replicate_zero, Nat.mul_zero]

private theorem powerValue_power (exponent : ℤ) :
    powerValue (Number.layout.power exponent) = exponent := by
  have hread (n : Nat) : Nat.ofDigitChars 10 (digits n) 0 = n := Nat.ofDigitChars_ten_toDigits
  cases exponent with
  | ofNat k => exact congrArg Int.ofNat (hread k)
  | negSucc j =>
    have hvalue : powerValue ('-' :: digits (j + 1)) = -(Nat.ofDigitChars 10 (digits (j + 1)) 0) :=
      rfl
    rw [power, hvalue, hread]
    rfl

private theorem plainValue_mantissa (hne : ds ≠ []) (hpoint : '.' ∉ ds) :
    plainValue (mantissa ds) = Nat.ofDigitChars 10 ds 0 / 10 ^ (ds.length - 1) := by
  rcases ds with _ | ⟨d, _ | ⟨d', rest⟩⟩
  · exact absurd rfl hne
  · obtain ⟨hwhole, hnone⟩ := uncut hpoint
    rw [mantissa, plainValue, hwhole, hnone]
    rfl
  · rw [List.mem_cons, not_or] at hpoint
    exact @plainValue_point [d] (by simpa using hpoint.1) _

/-! ### What is spelled -/

theorem spelledValue_scientific (hne : ds ≠ []) (hmark : 'e' ∉ ds) (hpoint : '.' ∉ ds)
    (exponent : ℤ) :
    spelledValue (mantissa ds ++ 'e' :: Number.layout.power exponent) =
      Nat.ofDigitChars 10 ds 0 * 10 ^ (exponent + 1 - ds.length) := by
  have hmantissa : 'e' ∉ mantissa ds := by
    rcases ds with _ | ⟨d, _ | ⟨d', rest⟩⟩
    · exact absurd rfl hne
    · exact hmark
    · simp only [mantissa, List.mem_cons, not_or] at hmark ⊢
      exact ⟨hmark.1, by decide, hmark.2⟩
  have hlength : (ds.length - 1 : Nat) = (ds.length - 1 : ℤ) :=
    Nat.cast_pred (List.length_pos_iff.2 hne)
  rw [spelledValue_mark hmantissa, powerValue_power, plainValue_mantissa hne hpoint,
    ← zpow_natCast, hlength, div_mul_eq_mul_div, mul_div_assoc, ← zpow_sub₀ (by norm_num)]
  congr 2
  ring

/-- Digits around a point are moved to the right of it by as many places as stand there. -/
theorem spelledValue_point {whole fraction : List Char} (hmark : 'e' ∉ whole ++ '.' :: fraction)
    (hpoint : '.' ∉ whole) :
    spelledValue (whole ++ '.' :: fraction) =
      Nat.ofDigitChars 10 (whole ++ fraction) 0 * 10 ^ (-(fraction.length : ℤ)) := by
  rw [spelledValue_plain hmark, plainValue_point hpoint, div_eq_mul_inv, zpow_neg, zpow_natCast]

private theorem spelledValue_small (hmark : 'e' ∉ ds) (j : Nat) :
    spelledValue (['0'] ++ '.' :: (zeros j ++ ds)) =
      Nat.ofDigitChars 10 ds 0 * 10 ^ (-((j + ds.length : Nat) : ℤ)) := by
  have hdigits : Nat.ofDigitChars 10 (['0'] ++ (zeros j ++ ds)) 0 = Nat.ofDigitChars 10 ds 0 :=
    (zeros_ofDigitChars 1 _).trans (zeros_ofDigitChars j ds)
  rw [spelledValue_point (by simp [zeros, hmark]) (by decide), hdigits, List.length_append, zeros,
    List.length_replicate]

/-- Noughts up to the point, and one behind it. -/
theorem spelledValue_whole (hmark : 'e' ∉ ds) (hpoint : '.' ∉ ds) (n : Nat) :
    spelledValue (ds ++ zeros n ++ ['.', '0']) = Nat.ofDigitChars 10 ds 0 * 10 ^ n := by
  have hnoughts : ds ++ zeros n ++ ['0'] = ds ++ zeros (n + 1) := by
    rw [List.append_assoc]
    exact congrArg (ds ++ ·) List.replicate_succ'.symm
  rw [spelledValue_point (by simp [zeros, hmark]) (by simp [zeros, hpoint]), hnoughts,
    ofDigitChars_zeros, List.length_singleton]
  push_cast
  rw [pow_succ, zpow_neg_one, ← mul_assoc, mul_inv_cancel_right₀ (by norm_num)]

/-- Whatever the exponent, the text that is set out spells the digits at their place. -/
theorem spelledValue_place (hne : ds ≠ []) (hds : ∀ c ∈ ds, c.isDigit = true) (exponent : ℤ) :
    spelledValue (Number.layout.place ds exponent) =
      Nat.ofDigitChars 10 ds 0 * 10 ^ (exponent + 1 - ds.length) := by
  have hmark : 'e' ∉ ds := not_mem_of_digits hds (by decide)
  have hpoint : '.' ∉ ds := not_mem_of_digits hds (by decide)
  by_cases h : exponent < Number.layout.plainFrom ∨ Number.layout.plainTo < exponent
  · rw [place_scientific h]
    exact spelledValue_scientific hne hmark hpoint exponent
  · cases exponent with
    | negSucc j =>
      rw [place_small h, spelledValue_small hmark]
      congr 2
      push_cast
      omega
    | ofNat k =>
      rw [place_plain h]
      split
      · next hnil =>
        have hle : ds.length ≤ k + 1 := List.drop_eq_nil_iff.1 hnil
        rw [List.take_of_length_le hle, spelledValue_whole hmark hpoint, ← zpow_natCast]
        congr 2
        exact Nat.cast_sub hle
      · next hcons =>
        have hlt : k + 1 < ds.length := by
          rw [List.drop_eq_nil_iff] at hcons
          omega
        have htake : (ds.take (k + 1)).length = k + 1 := List.length_take_of_le (Nat.le_of_lt hlt)
        have hfront : 'e' ∉ ds.take (k + 1) := fun hmem => hmark (List.mem_of_mem_take hmem)
        have hback : 'e' ∉ ds.drop (k + 1) := fun hmem => hmark (List.mem_of_mem_drop hmem)
        have hfront' : '.' ∉ ds.take (k + 1) := fun hmem => hpoint (List.mem_of_mem_take hmem)
        rw [htake, Nat.sub_self, zeros, List.replicate_zero, List.append_nil,
          spelledValue_point (by simp [hfront, hback]) hfront', List.take_append_drop,
          List.length_drop, Nat.cast_sub (Nat.le_of_lt hlt)]
        congr 2
        rw [Int.ofNat_eq_natCast]
        push_cast
        ring

/-- The text that is set out starts with a digit, and not all of it are digits. -/
theorem place_shape (hne : ds ≠ []) (hds : ∀ c ∈ ds, c.isDigit = true) (exponent : ℤ) :
    (∃ c rest, Number.layout.place ds exponent = c :: rest ∧ c.isDigit = true) ∧
      ∃ c ∈ Number.layout.place ds exponent, c.isDigit = false := by
  obtain ⟨d, rest, rfl⟩ := List.exists_cons_of_ne_nil hne
  have hd : d.isDigit = true := hds d List.mem_cons_self
  by_cases h : exponent < Number.layout.plainFrom ∨ Number.layout.plainTo < exponent
  · rw [place_scientific h]
    refine ⟨?_, 'e', List.mem_append_right _ List.mem_cons_self, by decide⟩
    cases rest <;> exact ⟨d, _, rfl, hd⟩
  · cases exponent with
    | negSucc j =>
      rw [place_small h]
      exact ⟨⟨'0', _, rfl, by decide⟩, '.', by simp, by decide⟩
    | ofNat k =>
      rw [place_plain h]
      exact ⟨⟨d, _, rfl, hd⟩, '.', List.mem_append_right _ List.mem_cons_self, by decide⟩

/-! ### The text of a double -/

private theorem eq_zeros {ds : List Char} (h : ∀ c ∈ ds, c = '0') : ds = zeros ds.length :=
  List.eq_replicate_of_mem h

/-- Digits are those that are kept of them, with noughts at the end. -/
theorem exists_strip (ds : List Char) : ∃ n, ds = strip ds ++ zeros n := by
  have hzeros : ∀ c ∈ (ds.reverse.takeWhile (· = '0')).reverse, c = '0' := by
    intro c hc
    have htaken := List.mem_takeWhile_imp (List.mem_reverse.1 hc)
    exact of_decide_eq_true htaken
  refine ⟨(ds.reverse.takeWhile (· = '0')).reverse.length, ?_⟩
  rw [strip, ← eq_zeros hzeros, ← List.reverse_append, List.takeWhile_append_dropWhile,
    List.reverse_reverse]

theorem isDigit_of_mem_strip {c : Char} {n : Nat} (h : c ∈ strip (digits n)) :
    c.isDigit = true := by
  obtain ⟨k, hk⟩ := exists_strip (digits n)
  refine Nat.isDigit_of_mem_toDigits (by decide) (by decide) (b := 10) (n := n) ?_
  rw [← digits, hk]
  exact List.mem_append_left _ h

/-- The digits of a positive number that are kept, and how many noughts were behind them. -/
theorem exists_strip_digits {c : Nat} (hc : 0 < c) :
    ∃ n, c = Nat.ofDigitChars 10 (strip (digits c)) 0 * 10 ^ n ∧
      (digits c).length = (strip (digits c)).length + n ∧ strip (digits c) ≠ [] := by
  obtain ⟨n, hn⟩ := exists_strip (digits c)
  have hvalue : c = Nat.ofDigitChars 10 (strip (digits c)) 0 * 10 ^ n := by
    rw [← ofDigitChars_zeros, ← hn]
    exact Nat.ofDigitChars_ten_toDigits.symm
  refine ⟨n, hvalue, ?_, fun hnil => ?_⟩
  · conv_lhs => rw [hn]
    rw [List.length_append, zeros, List.length_replicate]
  · rw [hnil, Nat.ofDigitChars_nil, Nat.zero_mul] at hvalue
    exact Nat.ne_of_gt hc hvalue

/-- The digits that are kept of a coefficient have the value of the decimal at their place. -/
theorem value_strip {c : Nat} (hc : 0 < c) (k : ℤ) :
    (Nat.ofDigitChars 10 (strip (digits c)) 0 : ℚ) *
      10 ^ (k + (digits c).length - 1 + 1 - (strip (digits c)).length) = c * 10 ^ k := by
  obtain ⟨n, hvalue, hlength, -⟩ := exists_strip_digits hc
  have hvalue : (c : ℚ) = Nat.ofDigitChars 10 (strip (digits c)) 0 * 10 ^ n := by
    exact_mod_cast hvalue
  have hexponent : k + (digits c).length - 1 + 1 - (strip (digits c)).length = n + k := by
    rw [hlength]
    push_cast
    ring
  rw [hexponent, zpow_add₀ (by norm_num), zpow_natCast, ← mul_assoc, ← hvalue]

def magnitude (units : Nat) : ℚ := if units = 0 then 0 else (Double.shortest units).value

/-- The text of a double: its sign, and digits that spell the value of its shortest decimal. -/
theorem exists_text (d : Double) : ∃ t, Number.layout.text d =
    (if d.negative then ['-'] else []) ++ t ∧ (∃ c rest, t = c :: rest ∧ c.isDigit = true) ∧
      (∃ c ∈ t, c.isDigit = false) ∧ spelledValue t = magnitude d.units := by
  by_cases hzero : d.units = 0
  · refine ⟨['0', '.', '0'], text_of_zero _ hzero, ⟨'0', _, rfl, by decide⟩,
      ⟨'.', by simp, by decide⟩, ?_⟩
    rw [magnitude, if_pos hzero, spelledValue_plain (by decide)]
    exact (@plainValue_point ['0'] (by decide) ['0']).trans (zero_div _)
  · have hcoefficient := (Double.shortest_rounds (Nat.pos_of_ne_zero hzero)).1
    rcases hshortest : Double.shortest d.units with ⟨c, k⟩
    rw [text_of_ne_zero _ hzero hshortest, magnitude, if_neg hzero, hshortest]
    rw [hshortest] at hcoefficient
    obtain ⟨-, -, -, hne⟩ := exists_strip_digits hcoefficient
    have hds : ∀ c' ∈ strip (digits c), c'.isDigit = true := fun _ => isDigit_of_mem_strip
    obtain ⟨hfirst, hother⟩ := place_shape hne hds (k + (digits c).length - 1)
    refine ⟨_, rfl, hfirst, hother, ?_⟩
    exact (spelledValue_place hne hds _).trans (value_strip hcoefficient k)

end Layout

namespace Number

/-- A number that 64 bits can hold: its magnitude is that of a double if it is one. -/
def Representable : Number → Prop
  | .double d => Double.Representable d.units
  | _ => True

instance : DecidablePred Representable := fun n => by
  cases n <;> unfold Representable <;> infer_instance

private theorem magnitude_inj {m n : Nat} (hm : Double.Representable m)
    (hn : Double.Representable n) (h : Layout.magnitude m = Layout.magnitude n) : m = n := by
  have hpos {n : Nat} (h : n ≠ 0) : 0 < Layout.magnitude n := by
    have hcoefficient := (Double.shortest_rounds (Nat.pos_of_ne_zero h)).1
    rw [Layout.magnitude, if_neg h, Decimal.value]
    positivity
  by_cases hm0 : m = 0
  · by_contra hne
    have hlt := hpos (n := n) (fun hn0 => hne (hm0.trans hn0.symm))
    rw [← h, Layout.magnitude, if_pos hm0] at hlt
    exact lt_irrefl _ hlt
  · have hn0 : n ≠ 0 := by
      intro hn0
      have hlt := hpos hm0
      rw [h, Layout.magnitude, if_pos hn0] at hlt
      exact lt_irrefl _ hlt
    rw [Layout.magnitude, Layout.magnitude, if_neg hm0, if_neg hn0] at h
    exact Double.eq_of_value_shortest hm hn (Nat.pos_of_ne_zero hm0) (Nat.pos_of_ne_zero hn0) h

private theorem double_of_text_eq {x y : Double} (hx : Double.Representable x.units)
    (hy : Double.Representable y.units) (h : layout.text x = layout.text y) : x = y := by
  obtain ⟨t, htext, ⟨c, rest, hc, hdigit⟩, -, hvalue⟩ := Layout.exists_text x
  obtain ⟨t', htext', ⟨c', rest', hc', hdigit'⟩, -, hvalue'⟩ := Layout.exists_text y
  have hminus : ∀ c : Char, c.isDigit = true → c ≠ '-' := by
    rintro c hc rfl
    exact absurd hc (by decide)
  rw [htext, htext'] at h
  obtain ⟨hsign, rfl⟩ : x.negative = y.negative ∧ t = t' := by
    cases hxs : x.negative <;> cases hys : y.negative <;> rw [hxs, hys] at h
    · exact ⟨rfl, h⟩
    · rw [hc] at h
      exact absurd (List.cons.inj h).1 (hminus c hdigit)
    · rw [hc'] at h
      exact absurd (List.cons.inj h).1.symm (hminus c' hdigit')
    · exact ⟨rfl, (List.cons.inj h).2⟩
  have hunits := magnitude_inj hx hy (hvalue.symm.trans hvalue')
  cases x
  cases y
  cases hsign
  cases hunits
  rfl

/-- A whole number is not printed like a double. -/
private theorem whole_ne_double {n : Nat} {sign : List Char} (hsign : sign = [] ∨ sign = ['-'])
    (y : Double) : sign ++ digits n ≠ layout.text y := by
  obtain ⟨t, htext, ⟨c, rest, hc, hdigit⟩, ⟨other, hother, hnot⟩, -⟩ := Layout.exists_text y
  have hdigits : ∀ c ∈ digits n, c.isDigit = true := fun c hc =>
    Nat.isDigit_of_mem_toDigits (by decide) (by decide) hc
  have hne : digits n ≠ t := by
    rintro rfl
    rw [hdigits other hother] at hnot
    cases hnot
  have hminus : '-' ≠ c := by
    rintro rfl
    exact absurd hdigit (by decide)
  have hminus' : '-' ∉ digits n := fun hmem => absurd (hdigits _ hmem) (by decide)
  intro h
  rw [htext] at h
  rcases hsign with rfl | rfl <;> cases hy : y.negative <;> rw [hy] at h
  · exact hne h
  · have h : digits n = '-' :: t := h
    exact hminus' (h ▸ List.mem_cons_self)
  · rw [hc] at h
    exact hminus (List.cons.inj h).1
  · exact hne (List.cons.inj h).2

/-- Numbers that are printed alike are the same. -/
theorem text_inj {m n : Number} (hm : m.Representable) (hn : n.Representable)
    (h : m.text = n.text) : m = n := by
  have hminus {j k : Nat} : digits j ≠ '-' :: digits k := fun heq => by
    have hmem : '-' ∈ digits j := heq ▸ List.mem_cons_self
    exact absurd (Nat.isDigit_of_mem_toDigits (by decide) (by decide) hmem) (by decide)
  cases m with
  | unsigned a =>
    cases n with
    | unsigned b => exact congrArg unsigned (unsigned_of_text_eq h)
    | negative b => exact absurd h hminus
    | double y => exact absurd h (whole_ne_double (.inl rfl) y)
  | negative a =>
    cases n with
    | unsigned b => exact absurd h.symm hminus
    | negative b =>
      have hval : a.val + 1 = b.val + 1 := digits_inj (List.cons.inj h).2
      exact congrArg negative (Fin.ext (Nat.succ.inj hval))
    | double y => exact absurd h (whole_ne_double (.inr rfl) y)
  | double x =>
    cases n with
    | unsigned b => exact absurd h.symm (whole_ne_double (.inl rfl) x)
    | negative b => exact absurd h.symm (whole_ne_double (.inr rfl) x)
    | double y => exact congrArg double (double_of_text_eq hm hn h)

end Number
end Retrace

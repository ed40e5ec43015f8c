import Retrace.Proofs.Json.NumberRange

/-! Printed doubles read again. The reader gathers the printed digits as a whole number with an
exponent, and puts the two together in roundings of its own. -/
namespace Retrace.Layout

/-- The significand and the exponent that a reader gathers from digits that were set out: those of the
digits, unless noughts and a point were put behind them. -/
def gathered (ds : List Char) (exponent : Int) : Nat × Int :=
  let e := exponent + 1 - ds.length
  if 0 ≤ e ∧ exponent ≤ Number.layout.plainTo then
    (Nat.ofDigitChars 10 ds 0 * 10 ^ (e.toNat + 1), -1)
  else (Nat.ofDigitChars 10 ds 0, e)

/-- However it is gathered, the value is that of the digits at their place. -/
theorem value_gathered (ds : List Char) (exponent : Int) :
    ((gathered ds exponent).1 : ℚ) * 10 ^ (gathered ds exponent).2 =
      Nat.ofDigitChars 10 ds 0 * 10 ^ (exponent + 1 - ds.length) := by
  rw [gathered]
  split
  · next h =>
    have hpower : (10 : ℚ) ^ (exponent + 1 - ds.length) =
        10 ^ (exponent + 1 - ds.length).toNat := by
      rw [← zpow_natCast, Int.toNat_of_nonneg h.1]
    rw [hpower]
    push_cast
    rw [pow_succ, zpow_neg_one, ← mul_assoc, mul_inv_cancel_right₀ (by norm_num)]
  · rfl

private theorem gathered_pos {ds : List Char} (h : 0 < Nat.ofDigitChars 10 ds 0) (exponent : Int) :
    0 < (gathered ds exponent).1 := by
  rw [gathered]
  split
  · exact Nat.mul_pos h (by positivity)
  · exact h

end Retrace.Layout

namespace Retrace.Json

variable {significand : Nat} {cs rest : List Char}

private theorem digitsValue_eq (cs : List Char) : digitsValue cs = Nat.ofDigitChars 10 cs 0 := by
  simp only [digitsValue, digitValue, Nat.ofDigitChars_eq_foldl, Nat.mul_comm]

private theorem ofDigitChars_lt (hcs : ∀ c ∈ cs, c.isDigit = true) :
    Nat.ofDigitChars 10 cs 0 < 10 ^ cs.length := by
  induction cs with
  | nil => decide
  | cons c cs ih =>
    obtain ⟨hc, hcs⟩ := List.forall_mem_cons.1 hcs
    have hvalue : c.toNat - '0'.toNat ≤ 9 := by
      have hle : c.toNat ≤ '0'.toNat + 9 := (Char.isDigit_iff_toNat.1 hc).2
      omega
    have hmul := Nat.mul_le_mul_left (10 ^ cs.length) hvalue
    have hrest := ih hcs
    rw [Nat.ofDigitChars_cons, Nat.mul_zero, Nat.zero_add, Nat.ofDigitChars_eq_ofDigitChars_zero,
      List.length_cons, Nat.pow_succ]
    omega

/-- Nineteen digits fit. -/
theorem ofDigitChars_lt_size (hcs : ∀ c ∈ cs, c.isDigit = true) (h : cs.length ≤ 19) :
    Nat.ofDigitChars 10 cs 0 < UInt64.size :=
  calc Nat.ofDigitChars 10 cs 0 < 10 ^ cs.length := ofDigitChars_lt hcs
    _ ≤ 10 ^ 19 := Nat.pow_le_pow_right (by decide) h
    _ < UInt64.size := by decide

/-! ### Reading what is set out -/

theorem readPower_digits (negative : Bool) (significand : Nat) (exponent : Int) (down : Bool)
    (n : Nat) :
    readPower negative significand exponent down (digits n) =
      do return (← double negative significand (if down then exponent - n else exponent + n), []) := by
  have hdigits : ∀ c ∈ digits n, c.isDigit = true := fun c hc => isDigit_of_mem_digits hc
  have hvalue : digitsValue (digits n) = n := by
    rw [digitsValue_eq]
    exact Nat.ofDigitChars_ten_toDigits
  cases hcs : digits n with
  | nil => exact absurd hcs Nat.toDigits_ne_nil
  | cons c cs =>
    rw [hcs] at hvalue
    rw [hcs, List.forall_mem_cons] at hdigits
    have hrun : cs.takeWhile Char.isDigit = cs ∧ cs.dropWhile Char.isDigit = [] :=
      ⟨List.takeWhile_eq_self_iff.2 hdigits.2, List.dropWhile_eq_nil_iff.2 hdigits.2⟩
    simp only [readPower, hdigits.1, if_true, hrun.1, hrun.2, hvalue]

/-- What stands behind the mark of an exponent moves it by as much. -/
theorem readExponent_power (negative : Bool) (significand : Nat) (exponent power : Int) :
    readExponent negative significand exponent (Number.layout.power power) =
      do return (← double negative significand (exponent + power), []) := by
  cases power with
  | ofNat k =>
    have hplus : Number.layout.power (.ofNat k) = '+' :: digits k := rfl
    rw [hplus, readExponent_plus, readPower_digits]
    rfl
  | negSucc j =>
    have hminus : Number.layout.power (.negSucc j) = '-' :: digits (j + 1) := rfl
    rw [hminus, readExponent_minus, readPower_digits]
    rfl

/-- Digits behind a point, up to the end. -/
theorem readFraction_digits (negative : Bool) (exponent : Int) (hne : cs ≠ [])
    (hcs : ∀ c ∈ cs, c.isDigit = true) (hlt : Nat.ofDigitChars 10 cs significand < UInt64.size) :
    readFraction negative significand exponent cs =
      do return (← double negative (Nat.ofDigitChars 10 cs significand) (exponent - cs.length),
        []) := by
  rw [readFraction, takeDigits_of_lt hcs hlt, Nat.zero_add]
  simp only [List.dropWhile_nil, if_neg hne]

/-- Digits behind a point, up to the mark of an exponent. -/
theorem readFraction_mark (negative : Bool) (exponent power : Int) (hne : cs ≠ [])
    (hcs : ∀ c ∈ cs, c.isDigit = true) (hlt : Nat.ofDigitChars 10 cs significand < UInt64.size) :
    readFraction negative significand exponent (cs ++ 'e' :: Number.layout.power power) =
      do return (← double negative (Nat.ofDigitChars 10 cs significand)
        (exponent - cs.length + power), []) := by
  have hrun : Run cs ('e' :: Number.layout.power power) := ⟨hcs, fun c hc => by cases hc; decide⟩
  have hdrop : ('e' :: Number.layout.power power).dropWhile Char.isDigit =
      'e' :: Number.layout.power power := List.dropWhile_cons_of_neg (by decide)
  have hfollowing : 'e' :: Number.layout.power power ≠ cs ++ 'e' :: Number.layout.power power :=
    fun heq => hne (List.self_eq_append_left.1 heq)
  rw [readFraction, hrun.takeDigits hlt, Nat.zero_add]
  simp only [hdrop, if_neg hfollowing]
  rw [if_pos (by decide), readExponent_power]

/-- First digits, the first of which is no nought. -/
theorem readUnsigned_digits_append (negative : Bool) {d : Char} (hd : d.isDigit = true)
    (hzero : d ≠ '0') (hrun : Run cs rest) (hlt : Nat.ofDigitChars 10 (d :: cs) 0 < UInt64.size) :
    readUnsigned negative (d :: (cs ++ rest)) =
      readEnd negative (Nat.ofDigitChars 10 (d :: cs) 0) [] rest := by
  have hvalue : Nat.ofDigitChars 10 (d :: cs) 0 = Nat.ofDigitChars 10 cs (digitValue d) := by
    rw [Nat.ofDigitChars_cons, Nat.mul_zero, Nat.zero_add, digitValue]
  rw [hvalue] at hlt ⊢
  have hfirst : firstDigits d (cs ++ rest) = (Nat.ofDigitChars 10 cs (digitValue d), rest) := by
    rw [firstDigits, if_neg hzero, hrun.takeDigits hlt]
  have hend : Run [] rest := ⟨List.forall_mem_nil _, hrun.stops⟩
  rw [readUnsigned_cons negative hd, hfirst, if_neg (by simp [hzero])]
  simp only [show rest.takeWhile Char.isDigit = [] from hend.takeWhile,
    show rest.dropWhile Char.isDigit = rest from hend.dropWhile]

/-! ### What was set out -/

/-- Digits around a point, of which the first is no nought. -/
theorem readUnsigned_point (negative : Bool) {d : Char} (hd : d.isDigit = true) (hzero : d ≠ '0')
    (hcs : ∀ c ∈ cs, c.isDigit = true) (after : List Char)
    (hlt : Nat.ofDigitChars 10 (d :: cs) 0 < UInt64.size) :
    readUnsigned negative (d :: (cs ++ '.' :: after)) =
      readFraction negative (Nat.ofDigitChars 10 (d :: cs) 0) 0 after := by
  have hrun : Run cs ('.' :: after) := ⟨hcs, fun c hc => by cases hc; decide⟩
  rw [readUnsigned_digits_append negative hd hzero hrun hlt]
  rfl

/-- Digits on both sides of a point. -/
theorem readUnsigned_decimal (negative : Bool) {whole fraction : List Char} (hne : whole ≠ [])
    (hzero : whole.head? ≠ some '0') (hdigits : ∀ c ∈ whole ++ fraction, c.isDigit = true)
    (hfraction : fraction ≠ []) (hlength : (whole ++ fraction).length ≤ 19) :
    readUnsigned negative (whole ++ '.' :: fraction) =
      do return (← double negative (Nat.ofDigitChars 10 (whole ++ fraction) 0)
        (0 - (fraction.length : Int)), []) := by
  obtain ⟨hwhole, hdigits'⟩ := List.forall_mem_append.1 hdigits
  have hlt := ofDigitChars_lt_size hdigits hlength
  have hfirst : Nat.ofDigitChars 10 whole 0 < UInt64.size :=
    ofDigitChars_lt_size hwhole (Nat.le_trans (by simp) hlength)
  obtain ⟨d, cs, rfl⟩ := List.exists_cons_of_ne_nil hne
  obtain ⟨hd, hcs⟩ := List.forall_mem_cons.1 hwhole
  rw [Nat.ofDigitChars_append] at hlt ⊢
  refine (readUnsigned_point negative hd (fun heq => hzero (congrArg some heq)) hcs fraction
    hfirst).trans ?_
  exact readFraction_digits negative 0 hfraction hdigits' hlt

/-- A nought in front of the point. -/
theorem readUnsigned_nought (negative : Bool) (after : List Char) :
    readUnsigned negative ('0' :: '.' :: after) = readFraction negative 0 0 after := by
  rw [readUnsigned_cons negative (by decide)]
  rfl

/-- A single digit with an exponent. -/
theorem readUnsigned_mark (negative : Bool) {d : Char} (hd : d.isDigit = true) (hzero : d ≠ '0')
    (power : Int) (hlt : Nat.ofDigitChars 10 [d] 0 < UInt64.size) :
    readUnsigned negative (d :: 'e' :: Number.layout.power power) =
      do return (← double negative (Nat.ofDigitChars 10 [d] 0) power, []) := by
  have hrun : Run [] ('e' :: Number.layout.power power) :=
    ⟨List.forall_mem_nil _, fun c hc => by cases hc; decide⟩
  have hend := readUnsigned_digits_append negative hd hzero hrun hlt
  rw [List.nil_append] at hend
  rw [hend, readEnd_cons (by decide), if_pos (by decide), readExponent_power, List.length_nil,
    Nat.cast_zero, Int.zero_add]

variable {ds : List Char}

/-- What a reader makes of digits that were set out, if they are not too many. -/
def GathersFrom (ds : List Char) (exponent : Int) (cs : List Char) : Prop :=
  ∀ negative, readUnsigned negative cs =
    do return (← double negative (Layout.gathered ds exponent).1 (Layout.gathered ds exponent).2, [])

private theorem gathered_scientific {exponent : Int} (hne : ds ≠ [])
    (h : exponent < Number.layout.plainFrom ∨ Number.layout.plainTo < exponent) :
    Layout.gathered ds exponent = (Nat.ofDigitChars 10 ds 0, exponent + 1 - ds.length) := by
  have hpos := List.length_pos_iff.2 hne
  have hplain : Number.layout.plainFrom = -5 := rfl
  rw [Layout.gathered, if_neg (by omega)]

private theorem gathers_scientific {exponent : Int} (hne : ds ≠ [])
    (hds : ∀ c ∈ ds, c.isDigit = true) (hzero : ds.head? ≠ some '0') (hlength : ds.length ≤ 17)
    (h : exponent < Number.layout.plainFrom ∨ Number.layout.plainTo < exponent) :
    GathersFrom ds exponent
      (Layout.mantissa ds ++ Number.layout.mark :: Number.layout.power exponent) := by
  intro negative
  have hlt := ofDigitChars_lt_size hds (by omega)
  rw [gathered_scientific hne h]
  rcases ds with _ | ⟨d, _ | ⟨d', rest⟩⟩
  · exact absurd rfl hne
  · have hd : d.isDigit = true := hds d List.mem_cons_self
    have hzero : d ≠ '0' := fun heq => hzero (congrArg some heq)
    have hexponent : exponent + 1 - ([d].length : Nat) = exponent := Int.add_sub_cancel _ _
    rw [hexponent]
    exact readUnsigned_mark negative hd hzero exponent hlt
  · obtain ⟨hd, hrest⟩ := List.forall_mem_cons.1 hds
    have hzero : d ≠ '0' := fun heq => hzero (congrArg some heq)
    have hvalue : Nat.ofDigitChars 10 (d' :: rest) (Nat.ofDigitChars 10 [d] 0) =
        Nat.ofDigitChars 10 (d :: d' :: rest) 0 := (Nat.ofDigitChars_append (l := [d]) 0).symm
    have hexponent : (0 : Int) - (d' :: rest).length + exponent =
        exponent + 1 - (d :: d' :: rest).length := by
      simp only [List.length_cons]
      push_cast
      ring
    have hfirst : Nat.ofDigitChars 10 [d] 0 < UInt64.size :=
      ofDigitChars_lt_size (List.forall_mem_singleton.2 hd) (by simp)
    have hpoint := readUnsigned_point negative hd hzero (List.forall_mem_nil _)
      (d' :: rest ++ 'e' :: Number.layout.power exponent) hfirst
    rw [readFraction_mark negative 0 exponent (List.cons_ne_nil _ _) hrest (hvalue ▸ hlt), hvalue,
      hexponent] at hpoint
    exact hpoint

private theorem isDigit_of_mem_zeros {n : Nat} {c : Char} (h : c ∈ Layout.zeros n) :
    c.isDigit = true := by
  rw [List.eq_of_mem_replicate h]
  decide

private theorem gathers_small (hne : ds ≠ []) (hds : ∀ c ∈ ds, c.isDigit = true)
    (hlength : ds.length ≤ 17) (j : Nat) :
    GathersFrom ds (.negSucc j) (['0'] ++ '.' :: (Layout.zeros j ++ ds)) := by
  intro negative
  have hvalue : Nat.ofDigitChars 10 (Layout.zeros j ++ ds) 0 = Nat.ofDigitChars 10 ds 0 :=
    Layout.zeros_ofDigitChars j ds
  have hdigits : ∀ c ∈ Layout.zeros j ++ ds, c.isDigit = true :=
    List.forall_mem_append.2 ⟨fun _ => isDigit_of_mem_zeros, hds⟩
  have hgathered : Layout.gathered ds (.negSucc j) =
      (Nat.ofDigitChars 10 ds 0, 0 - ((Layout.zeros j ++ ds).length : Int)) := by
    have hpos := List.length_pos_iff.2 hne
    rw [Layout.gathered, if_neg (by omega), List.length_append, Layout.zeros, List.length_replicate]
    congr 1
    push_cast
    omega
  rw [hgathered, ← hvalue]
  refine (readUnsigned_nought negative _).trans (readFraction_digits negative 0 ?_ hdigits ?_)
  · exact List.append_ne_nil_of_right_ne_nil _ hne
  · rw [hvalue]
    exact ofDigitChars_lt_size hds (by omega)

private theorem gathers_plain (hne : ds ≠ []) (hds : ∀ c ∈ ds, c.isDigit = true)
    (hzero : ds.head? ≠ some '0') (hlength : ds.length ≤ 17) {k : Nat}
    (hk : (k : Int) ≤ Number.layout.plainTo) :
    GathersFrom ds (.ofNat k) (ds.take (k + 1) ++ Layout.zeros (k + 1 - (ds.take (k + 1)).length) ++
      '.' :: (if ds.drop (k + 1) = [] then ['0'] else ds.drop (k + 1))) := by
  intro negative
  have hplain : Number.layout.plainTo = 15 := rfl
  split
  · next hnil =>
    -- whole digits with noughts behind them, and one more behind the point
    have hle : ds.length ≤ k + 1 := List.drop_eq_nil_iff.1 hnil
    have hnoughts : ds ++ Layout.zeros (k + 1 - ds.length) ++ ['0'] =
        ds ++ Layout.zeros (k + 1 - ds.length + 1) := by
      rw [List.append_assoc]
      exact congrArg (ds ++ ·) List.replicate_succ'.symm
    have hgathered : Layout.gathered ds (.ofNat k) =
        (Nat.ofDigitChars 10 (ds ++ Layout.zeros (k + 1 - ds.length) ++ ['0']) 0,
          0 - (['0'].length : Int)) := by
      have hexponent : Int.ofNat k + 1 - ds.length = (k + 1 - ds.length : Nat) :=
        (Nat.cast_sub hle).symm
      rw [Layout.gathered, hnoughts, Layout.ofDigitChars_zeros, hexponent, Int.toNat_natCast,
        if_pos ⟨Int.natCast_nonneg _, hk⟩]
      rfl
    rw [List.take_of_length_le hle, hgathered]
    refine readUnsigned_decimal negative (List.append_ne_nil_of_left_ne_nil hne _) ?_ ?_
      (List.cons_ne_nil _ _) ?_
    · rwa [List.head?_append_of_ne_nil _ hne]
    · simp only [List.forall_mem_append, List.forall_mem_singleton]
      exact ⟨⟨hds, fun _ => isDigit_of_mem_zeros⟩, by decide⟩
    · rw [hnoughts, List.length_append, Layout.zeros, List.length_replicate]
      omega
  · next hcons =>
    have hlt : k + 1 < ds.length := by
      rw [List.drop_eq_nil_iff] at hcons
      omega
    have htake : (ds.take (k + 1)).length = k + 1 := List.length_take_of_le (Nat.le_of_lt hlt)
    have hgathered : Layout.gathered ds (.ofNat k) =
        (Nat.ofDigitChars 10 (ds.take (k + 1) ++ ds.drop (k + 1)) 0,
          0 - ((ds.drop (k + 1)).length : Int)) := by
      rw [Layout.gathered, if_neg (by rw [Int.ofNat_eq_natCast]; omega), List.take_append_drop,
        List.length_drop, Nat.cast_sub (Nat.le_of_lt hlt), Int.ofNat_eq_natCast]
      congr 1
      push_cast
      ring
    rw [hgathered, htake, Nat.sub_self, Layout.zeros, List.replicate_zero, List.append_nil]
    refine readUnsigned_decimal negative ?_ ?_ ?_ hcons ?_
    · exact List.ne_nil_of_length_pos (by omega)
    · rwa [List.head?_take, if_neg (Nat.succ_ne_zero k)]
    · rwa [List.take_append_drop]
    · rw [List.take_append_drop]
      omega

/-- Digits that were set out are gathered again. -/
theorem gathers_place (hne : ds ≠ []) (hds : ∀ c ∈ ds, c.isDigit = true)
    (hzero : ds.head? ≠ some '0') (hlength : ds.length ≤ 17) (exponent : Int) :
    GathersFrom ds exponent (Number.layout.place ds exponent) := by
  by_cases h : exponent < Number.layout.plainFrom ∨ Number.layout.plainTo < exponent
  · rw [Layout.place_scientific h]
    exact gathers_scientific hne hds hzero hlength h
  · cases exponent with
    | negSucc j =>
      rw [Layout.place_small h]
      exact gathers_small hne hds hlength j
    | ofNat k =>
      rw [Layout.place_plain h]
      exact gathers_plain hne hds hzero hlength (Int.not_lt.1 (not_or.1 h).2)

end Retrace.Json

/-! ### Doubles read again -/

namespace Retrace.Double

open Json Layout

/-- The significand and the exponent that a reader gathers from the text of a double. -/
def written (n : Nat) : Nat × Int :=
  if n = 0 then (0, -1)
  else
    let ⟨c, k⟩ := shortest n
    gathered (strip (digits c)) (k + (digits c).length - 1)

def reread (x : Double) : Double :=
  ⟨x.negative, (scale (written x.units).1 (written x.units).2).getD x.units⟩

/-- No more than seventeen digits are kept of a coefficient, and the first is no nought. -/
theorem strip_coefficient {c : Nat} (hpos : 0 < c) (hle : c ≤ 10 ^ 17) :
    (strip (digits c)).length ≤ 17 ∧ (strip (digits c)).head? ≠ some '0' := by
  obtain ⟨k, -, hlength, hne⟩ := exists_strip_digits hpos
  obtain ⟨m, hm⟩ := exists_strip (digits c)
  constructor
  · rcases Nat.lt_or_eq_of_le hle with hlt | rfl
    · have hdigits := (Nat.length_toDigits_le_iff (by decide) (by decide)).2 hlt
      rw [← digits] at hdigits
      omega
    · decide
  · have hhead := head_digits_ne hpos
    rwa [hm, List.head?_append_of_ne_nil _ hne] at hhead

private theorem written_of_pos {n c : Nat} {k : Int} (hn : 0 < n)
    (hshortest : shortest n = ⟨c, k⟩) :
    written n = gathered (strip (digits c)) (k + (digits c).length - 1) := by
  rw [written, if_neg hn.ne', hshortest]

/-- What is gathered from the text of a positive double rounds to it. -/
theorem written_rounds {n : Nat} (hn : 0 < n) :
    0 < (written n).1 ∧ Rounds ((written n).1 * 10 ^ (written n).2 * unit) n := by
  obtain ⟨hpos, hrounds⟩ := shortest_rounds hn
  rcases hshortest : shortest n with ⟨c, k⟩
  rw [hshortest] at hpos hrounds
  rw [written_of_pos hn hshortest]
  obtain ⟨m, hvalue, -, -⟩ := exists_strip_digits hpos
  constructor
  · refine gathered_pos (Nat.pos_of_ne_zero fun hzero => ?_) _
    rw [hzero, Nat.zero_mul] at hvalue
    exact hpos.ne' hvalue
  · rwa [value_gathered, value_strip hpos]

/-- Behind its sign, the text of a double is read as what is gathered from it. -/
theorem exists_readUnsigned (x : Double) :
    ∃ t, Number.layout.text x = (if x.negative then ['-'] else []) ++ t ∧ t.head? ≠ some '-' ∧
      ∀ negative, readUnsigned negative t =
        do return (← Json.double negative (written x.units).1 (written x.units).2, []) := by
  by_cases hzero : x.units = 0
  · refine ⟨['0', '.', '0'], text_of_zero _ hzero, by decide, fun negative => ?_⟩
    rw [written, if_pos hzero, readUnsigned_nought]
    rfl
  · have hn := Nat.pos_of_ne_zero hzero
    have hpos := (shortest_rounds hn).1
    have hle := shortest_le hn
    rcases hshortest : shortest x.units with ⟨c, k⟩
    rw [hshortest] at hpos hle
    obtain ⟨-, -, -, hne⟩ := exists_strip_digits hpos
    obtain ⟨hlength, hhead⟩ := strip_coefficient hpos hle
    have hds : ∀ d ∈ strip (digits c), d.isDigit = true := fun _ => isDigit_of_mem_strip
    refine ⟨_, text_of_ne_zero _ hzero hshortest, ?_, ?_⟩
    · obtain ⟨⟨d, rest, hd, hdigit⟩, -⟩ := place_shape hne hds (k + (digits c).length - 1)
      rw [hd]
      rintro ⟨⟩
      exact absurd hdigit (by decide)
    · rw [written_of_pos hn hshortest]
      exact gathers_place hne hds hhead hlength _

/-- The text of a double is read in two roundings, of the significand and of its product with the
power of ten. -/
theorem readNumber_text (x : Double) :
    readNumber (Number.double x).text =
      do return (← Json.double x.negative (written x.units).1 (written x.units).2, []) := by
  obtain ⟨t, htext, hhead, hread⟩ := exists_readUnsigned x
  rw [Number.text, htext]
  cases x.negative with
  | true => exact hread true
  | false => exact (readNumber_of_head hhead).trans (hread false)

/-! ### Finite doubles -/

/-- The last doubles in front of the limit are those of the widest step. -/
theorem exists_of_near_limit {n step : Nat} (h : IsFinite n) (hstep : step = 2 ^ 2045)
    (hnear : limit < n + 4 * step) : ∃ q, n = step * q ∧ 2 ^ 53 - 4 < q ∧ q < 2 ^ 53 := by
  have hlimit : limit = 2 ^ 53 * step := by rw [limit_eq, hstep, ← Nat.pow_add]
  have hlt := h.lt_limit
  rw [hlimit] at hnear hlt
  have hspacing : spacing n = step := by
    have hlog : n.log2 = 2097 := by
      have hlow : 2 ^ 2097 = 2 ^ 52 * step := by rw [hstep, ← Nat.pow_add]
      have hhigh : 2 ^ (2097 + 1) = 2 ^ 53 * step := by rw [hstep, ← Nat.pow_add]
      rw [Nat.log2_eq_iff (by omega), hlow, hhigh]
      omega
    rw [spacing_eq, hlog, hstep]
  obtain ⟨q, hq⟩ := h.representable
  rw [hspacing] at hq
  subst hq
  refine ⟨q, rfl, ?_, ?_⟩
  · have hge : step * (2 ^ 53 - 4) < step * q := by omega
    exact Nat.lt_of_mul_lt_mul_left hge
  · rw [Nat.mul_comm] at hlt
    exact Nat.lt_of_mul_lt_mul_right hlt

/-- The last three doubles, which the bound on roundings does not reach. -/
theorem scale_written_last : ∀ q ∈ [2 ^ 53 - 3, 2 ^ 53 - 2, 2 ^ 53 - 1],
    (scale (written (2 ^ 2045 * q)).1 (written (2 ^ 2045 * q)).2).isSome = true := by
  decide +kernel

/-- No finite double is written as a number that is too large for the reader. -/
theorem scale_written_isSome {n : Nat} (h : IsFinite n) :
    (scale (written n).1 (written n).2).isSome = true := by
  rcases Nat.eq_zero_or_pos n with rfl | hpos
  · decide +kernel
  · obtain ⟨hsignificand, hrounds⟩ := written_rounds hpos
    rcases Nat.lt_or_ge limit (n + 4 * 2 ^ 2045) with hnear | hfar
    · obtain ⟨q, hq, hlow, hhigh⟩ := exists_of_near_limit h rfl hnear
      rw [hq]
      refine scale_written_last q ?_
      simp only [List.mem_cons, List.not_mem_nil, or_false]
      omega
    · exact scale_isSome_of_rounds hsignificand hfar hrounds

/-- A finite double survives when its digits are put together to it. -/
theorem reread_eq_iff {x : Double} (h : IsFinite x.units) :
    x.reread = x ↔ scale (written x.units).1 (written x.units).2 = some x.units := by
  obtain ⟨n, hn⟩ := Option.isSome_iff_exists.1 (scale_written_isSome h)
  rw [reread, hn, Option.getD_some, Option.some.injEq]
  constructor
  · intro heq
    exact congrArg Double.units heq
  · intro heq
    rw [heq]

/-- A double whose digits make a significand of 53 bits, which a power of ten that is a double puts
in its place. -/
structure IsShort (x : Double) : Prop where
  significand : (written x.units).1 ≤ 2 ^ 53
  low : -22 ≤ (written x.units).2
  high : (written x.units).2 ≤ 22

instance (x : Double) : Decidable x.IsShort :=
  decidable_of_iff ((written x.units).1 ≤ 2 ^ 53 ∧ -22 ≤ (written x.units).2 ∧
      (written x.units).2 ≤ 22)
    ⟨fun ⟨hs, hl, hh⟩ => ⟨hs, hl, hh⟩, fun ⟨hs, hl, hh⟩ => ⟨hs, hl, hh⟩⟩

/-- Short doubles survive. -/
theorem reread_of_isShort {x : Double} (h : IsFinite x.units) (hshort : x.IsShort) :
    x.reread = x := by
  rw [reread_eq_iff h]
  rcases Nat.eq_zero_or_pos x.units with hzero | hpos
  · rw [hzero]
    decide +kernel
  · obtain ⟨hsignificand, hrounds⟩ := written_rounds hpos
    exact scale_of_short hsignificand hshort.significand hshort.low hshort.high h.representable
      h.lt_limit hrounds

end Retrace.Double

namespace Retrace.Number

open Json

def reread : Number → Number
  | .double x => .double x.reread
  | n => n

/-- The text of a number that 64 bits can hold is read to its end, never as too large. -/
theorem readNumber_text {n : Number} (h : n.IsFinite) : readNumber n.text = .ok (n.reread, []) := by
  cases n with
  | unsigned n => exact readsBack_unsigned n
  | negative n => exact readsBack_negative n
  | double x =>
    obtain ⟨m, hm⟩ := Option.isSome_iff_exists.1 (Double.scale_written_isSome h)
    rw [Double.readNumber_text, Json.double, hm, reread, Double.reread, hm]
    rfl

/-- A printed number is read alike in a text. -/
theorem readNumber_text_append {n : Number} (h : n.IsFinite) {q : Char} (hq : Stops q)
    (k : List Char) : readNumber (n.text ++ q :: k) = .ok (n.reread, q :: k) := by
  rw [readNumber_append hq, readNumber_text h]
  rfl

/-- Only numbers that 64 bits can hold are read, and so only such read back. -/
theorem ReadsBack.isFinite {n : Number} (h : n.ReadsBack) : n.IsFinite := fits_readNumber _ _ _ h

theorem readsBack_iff {n : Number} (h : n.IsFinite) : n.ReadsBack ↔ n.reread = n := by
  rw [ReadsBack, readNumber_text h, Except.ok.injEq, Prod.mk.injEq]
  exact and_iff_left rfl

end Retrace.Number

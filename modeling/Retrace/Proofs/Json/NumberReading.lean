import Retrace.Json.Lexeme
import Retrace.Proofs.Json.NumberText

/-! Reading numbers. The reader of numbers looks no further than to the first character with which
no number goes on, so it makes of a number in a text what it makes of the number alone; and printed
numbers of 64 bits read back. -/
namespace Retrace.Json

/-- A character with which no number goes on. -/
structure Stops (q : Char) : Prop where
  not_numeral : isNumeral q = false
  ne_mark : q ≠ 'E'

instance (q : Char) : Decidable (Stops q) :=
  decidable_of_iff (isNumeral q = false ∧ q ≠ 'E') ⟨fun h => ⟨h.1, h.2⟩, fun h => ⟨h.1, h.2⟩⟩

namespace Stops

variable {q : Char} (h : Stops q)
include h

private theorem not_digit : q.isDigit = false := by
  have := h.not_numeral
  simp only [isNumeral, Bool.or_eq_false_iff] at this
  exact this.1.1.1.1

theorem ne_of_numeral {c : Char} (hc : isNumeral c = true) : q ≠ c := by
  rintro rfl
  rw [h.not_numeral] at hc
  cases hc

private theorem not_isMark : isMark q = false := by
  have he : q ≠ 'e' := h.ne_of_numeral rfl
  simp [isMark, he, h.ne_mark]

end Stops

/-- The outcome of reading when the text goes on with `k`, which starts with a character with which
no number goes on: a number that was cut short is invalid. -/
def continued (k : List Char) :
    Except Fault (Number × List Char) → Except Fault (Number × List Char)
  | .ok (n, rest) => .ok (n, rest ++ k)
  | .error .ended => .error .invalidNumber
  | .error fault => .error fault

variable {q : Char} {k : List Char}

private theorem takeDigits_append (h : Stops q) (value taken : Nat) (cs : List Char) :
    takeDigits value taken (cs ++ q :: k) =
      ((takeDigits value taken cs).1, (takeDigits value taken cs).2.1,
        (takeDigits value taken cs).2.2 ++ q :: k) := by
  induction cs generalizing value taken with
  | nil => simp [takeDigits, h.not_digit]
  | cons c cs ih =>
    rw [List.cons_append, takeDigits, takeDigits]
    split
    · exact ih _ _
    · rfl

private theorem dropDigits_append (h : Stops q) (cs : List Char) :
    (cs ++ q :: k).dropWhile Char.isDigit = cs.dropWhile Char.isDigit ++ q :: k := by
  rw [List.dropWhile_append]
  split
  · next hnil =>
    rw [List.isEmpty_iff.1 hnil, List.dropWhile_cons_of_neg (by simp [h.not_digit]),
      List.nil_append]
  · rfl

private theorem takeWhileDigits_append (h : Stops q) (cs : List Char) :
    (cs ++ q :: k).takeWhile Char.isDigit = cs.takeWhile Char.isDigit := by
  induction cs with
  | nil => simp [h.not_digit]
  | cons c cs ih => rw [List.cons_append, List.takeWhile_cons, List.takeWhile_cons, ih]

/-- A number that does not fit is the only failure once the digits are there. -/
theorem continued_double (negative : Bool) (significand : Nat) (exponent : Int)
    (rest : List Char) :
    continued k (do return (← double negative significand exponent, rest)) =
      do return (← double negative significand exponent, rest ++ k) := by
  rw [double]
  cases Double.scale significand exponent <;> rfl

private theorem continued_whole (negative : Bool) (n : Nat) (rest : List Char) :
    continued k (do return (← whole negative n, rest)) =
      do return (← whole negative n, rest ++ k) := by
  rw [whole]
  split
  · rfl
  · split
    · rfl
    · exact continued_double true n 0 rest

def readPower (negative : Bool) (significand : Nat) (exponent : Int) (down : Bool) :
    List Char → Except Fault (Number × List Char)
  | [] => .error .ended
  | c :: rest =>
    if c.isDigit then do
      let power : Int := digitsValue (c :: rest.takeWhile Char.isDigit)
      let n ← double negative significand (if down then exponent - power else exponent + power)
      return (n, rest.dropWhile Char.isDigit)
    else .error .invalidNumber

section

variable (negative : Bool) (significand : Nat) (exponent : Int) (cs : List Char)

theorem readExponent_plus :
    readExponent negative significand exponent ('+' :: cs) =
      readPower negative significand exponent false cs := by
  cases cs <;> rfl

theorem readExponent_minus :
    readExponent negative significand exponent ('-' :: cs) =
      readPower negative significand exponent true cs := by
  cases cs <;> rfl

private theorem readExponent_cons {c : Char} (hplus : c ≠ '+') (hminus : c ≠ '-') :
    readExponent negative significand exponent (c :: cs) =
      readPower negative significand exponent false (c :: cs) := by
  unfold readExponent
  split
  next down cs' hcs =>
    split at hcs
    · next heq => cases heq; exact absurd rfl hplus
    · next heq => cases heq; exact absurd rfl hminus
    · cases hcs; rfl

private theorem readPower_append (h : Stops q) (down : Bool) :
    readPower negative significand exponent down (cs ++ q :: k) =
      continued (q :: k) (readPower negative significand exponent down cs) := by
  cases cs with
  | nil => simp [readPower, h.not_digit, continued]
  | cons c cs =>
    rw [List.cons_append, readPower, readPower]
    split
    · rw [takeWhileDigits_append h, dropDigits_append h]
      exact (continued_double _ _ _ _).symm
    · rfl

private theorem readExponent_append (h : Stops q) :
    readExponent negative significand exponent (cs ++ q :: k) =
      continued (q :: k) (readExponent negative significand exponent cs) := by
  have hplus : isNumeral '+' = true := by decide
  have hminus : isNumeral '-' = true := by decide
  cases cs with
  | nil =>
    rw [List.nil_append, readExponent_cons _ _ _ _ (h.ne_of_numeral hplus)
      (h.ne_of_numeral hminus)]
    exact readPower_append negative significand exponent [] h false
  | cons c cs =>
    rw [List.cons_append]
    by_cases hp : c = '+'
    · rw [hp, readExponent_plus, readExponent_plus, readPower_append _ _ _ _ h]
    · by_cases hm : c = '-'
      · rw [hm, readExponent_minus, readExponent_minus, readPower_append _ _ _ _ h]
      · rw [readExponent_cons _ _ _ _ hp hm, readExponent_cons _ _ _ _ hp hm, ← List.cons_append,
          readPower_append _ _ _ _ h]

private theorem readFraction_append (h : Stops q) :
    readFraction negative significand exponent (cs ++ q :: k) =
      continued (q :: k) (readFraction negative significand exponent cs) := by
  rw [readFraction, readFraction, takeDigits_append h]
  generalize takeDigits significand 0 cs = taken
  obtain ⟨value, count, rest⟩ := taken
  simp only [dropDigits_append h]
  cases hrest : rest.dropWhile Char.isDigit with
  | nil =>
    -- the digits went on to the end of the text, if there were any
    simp only [List.nil_append, h.not_isMark, Bool.false_eq_true, if_false]
    by_cases hcs : cs = []
    · rw [if_pos hcs, if_pos (by rw [hcs, List.nil_append])]
      rfl
    · have hne : q :: k ≠ cs ++ q :: k := fun heq => hcs (List.self_eq_append_left.1 heq)
      rw [if_neg hcs, if_neg hne]
      exact (continued_double _ _ _ []).symm
  | cons c after =>
    have hiff : c :: (after ++ q :: k) = cs ++ q :: k ↔ c :: after = cs := by
      rw [← List.cons_append, List.append_cancel_right_eq]
    simp only [List.cons_append, hiff]
    split
    · rfl
    · split
      · exact readExponent_append _ _ _ _ h
      · exact (continued_double _ _ _ (c :: after)).symm

end

/-- What a number comes to behind its first digits, of which `dropped` were too many. -/
def readEnd (negative : Bool) (significand : Nat) (dropped : List Char) :
    List Char → Except Fault (Number × List Char)
  | '.' :: after => readFraction negative significand dropped.length after
  | d :: after =>
    if isMark d then readExponent negative significand dropped.length after
    else if dropped = [] then do return (← whole negative significand, d :: after)
    else do return (← double negative significand dropped.length, d :: after)
  | [] =>
    if dropped = [] then do return (← whole negative significand, [])
    else do return (← double negative significand dropped.length, [])

theorem readEnd_cons {d : Char} (hpoint : d ≠ '.') (negative : Bool) (significand : Nat)
    (dropped after : List Char) :
    readEnd negative significand dropped (d :: after) =
      if isMark d then readExponent negative significand dropped.length after
      else if dropped = [] then do return (← whole negative significand, d :: after)
      else do return (← double negative significand dropped.length, d :: after) := by
  unfold readEnd
  split
  · next h => cases h; exact absurd rfl hpoint
  · next h => cases h; rfl
  · next h => cases h

private theorem readEnd_append (h : Stops q) (negative : Bool) (significand : Nat)
    (dropped cs : List Char) :
    readEnd negative significand dropped (cs ++ q :: k) =
      continued (q :: k) (readEnd negative significand dropped cs) := by
  cases cs with
  | nil =>
    rw [List.nil_append, readEnd_cons (h.ne_of_numeral rfl), h.not_isMark, if_neg (by simp),
      readEnd]
    split
    · exact (continued_whole _ _ []).symm
    · exact (continued_double _ _ _ []).symm
  | cons d after =>
    rw [List.cons_append]
    by_cases hpoint : d = '.'
    · rw [hpoint, readEnd, readEnd]
      exact readFraction_append _ _ _ _ h
    · rw [readEnd_cons hpoint, readEnd_cons hpoint]
      split
      · exact readExponent_append _ _ _ _ h
      · split
        · exact (continued_whole _ _ (d :: after)).symm
        · exact (continued_double _ _ _ (d :: after)).symm

/-- The first digits, and what follows them: nothing but a nought may stand behind one. -/
def firstDigits (c : Char) (cs : List Char) : Nat × List Char :=
  if c = '0' then (0, cs)
  else ((takeDigits (digitValue c) 0 cs).1, (takeDigits (digitValue c) 0 cs).2.2)

theorem readUnsigned_cons (negative : Bool) {c : Char} (hc : c.isDigit = true) (cs : List Char) :
    readUnsigned negative (c :: cs) =
      if c = '0' ∧ (firstDigits c cs).2.takeWhile Char.isDigit ≠ [] then .error .invalidNumber
      else readEnd negative (firstDigits c cs).1
        ((firstDigits c cs).2.takeWhile Char.isDigit)
        ((firstDigits c cs).2.dropWhile Char.isDigit) := by
  have hvalue : (takeDigits (digitValue c) 0 (if c = '0' then [] else cs)).1 =
      (firstDigits c cs).1 := by
    rw [firstDigits]
    split
    · next hzero => rw [hzero]; rfl
    · rfl
  have hrest : (if c = '0' then cs
      else (takeDigits (digitValue c) 0 (if c = '0' then [] else cs)).2.2) =
      (firstDigits c cs).2 := by
    rw [firstDigits]
    split <;> rfl
  simp only [readUnsigned, hc, Bool.not_true, Bool.false_eq_true, if_false, hvalue, hrest]
  split
  · rfl
  · cases (firstDigits c cs).2.dropWhile Char.isDigit with
    | nil => rfl
    | cons d after =>
      by_cases hpoint : d = '.'
      · subst hpoint
        rfl
      · rw [readEnd_cons hpoint]
        split
        · next h => exact absurd (List.cons.inj h).1 hpoint
        · rfl

private theorem firstDigits_append (h : Stops q) (c : Char) (cs : List Char) :
    firstDigits c (cs ++ q :: k) = ((firstDigits c cs).1, (firstDigits c cs).2 ++ q :: k) := by
  rw [firstDigits, firstDigits, takeDigits_append h]
  split <;> rfl

private theorem readUnsigned_append (h : Stops q) (negative : Bool) (cs : List Char) :
    readUnsigned negative (cs ++ q :: k) = continued (q :: k) (readUnsigned negative cs) := by
  cases cs with
  | nil => simp [readUnsigned, h.not_digit, continued]
  | cons c cs =>
    rw [List.cons_append]
    cases hc : c.isDigit with
    | false => simp [readUnsigned, hc, continued]
    | true =>
      rw [readUnsigned_cons negative hc, readUnsigned_cons negative hc, firstDigits_append h,
        takeWhileDigits_append h, dropDigits_append h, readEnd_append h]
      split <;> rfl

private theorem readNumber_minus (cs : List Char) :
    readNumber ('-' :: cs) = readUnsigned true cs := rfl

theorem readNumber_of_head {cs : List Char} (h : cs.head? ≠ some '-') :
    readNumber cs = readUnsigned false cs := by
  unfold readNumber
  split
  · exact absurd rfl h
  · rfl

/-- The reader of numbers looks no further than to a character with which no number goes on. -/
theorem readNumber_append (h : Stops q) (cs : List Char) :
    readNumber (cs ++ q :: k) = continued (q :: k) (readNumber cs) := by
  have hminus : isNumeral '-' = true := by decide
  by_cases hhead : cs.head? = some '-'
  · obtain ⟨rest, rfl⟩ := List.head?_eq_some_iff.1 hhead
    rw [List.cons_append, readNumber_minus, readNumber_minus, readUnsigned_append h]
  · have hhead' : (cs ++ q :: k).head? ≠ some '-' := by
      cases cs with
      | nil => exact fun heq => h.ne_of_numeral hminus (Option.some.inj heq)
      | cons c cs => exact hhead
    rw [readNumber_of_head hhead, readNumber_of_head hhead', readUnsigned_append h]

/-! ### Printed numbers -/

/-- A run of digits, and what follows it. -/
structure Run (cs rest : List Char) : Prop where
  digits : ∀ c ∈ cs, c.isDigit = true
  stops : ∀ c ∈ rest.head?, c.isDigit = false

namespace Run

variable {cs rest : List Char}

theorem takeWhile (h : Run cs rest) : (cs ++ rest).takeWhile Char.isDigit = cs := by
  rw [List.takeWhile_append_of_pos h.digits]
  cases rest with
  | nil => rw [List.takeWhile_nil, List.append_nil]
  | cons c rest =>
    rw [List.takeWhile_cons_of_neg (by simpa using h.stops c rfl), List.append_nil]

theorem dropWhile (h : Run cs rest) : (cs ++ rest).dropWhile Char.isDigit = rest := by
  rw [List.dropWhile_append_of_pos h.digits]
  cases rest with
  | nil => rfl
  | cons c rest => exact List.dropWhile_cons_of_neg (by simpa using h.stops c rfl)

/-- All digits of a run are taken while the number stays within 64 bits. -/
theorem takeDigits (h : Run cs rest) {value : Nat}
    (hlt : Nat.ofDigitChars 10 cs value < UInt64.size) (taken : Nat) :
    Json.takeDigits value taken (cs ++ rest) =
      (Nat.ofDigitChars 10 cs value, taken + cs.length, rest) := by
  induction cs generalizing value taken with
  | nil =>
    cases rest with
    | nil => rfl
    | cons c rest => simp [Json.takeDigits, h.stops c rfl]
  | cons c cs ih =>
    obtain ⟨hc, hcs⟩ := List.forall_mem_cons.1 h.digits
    have hvalue : Nat.ofDigitChars 10 (c :: cs) value =
        Nat.ofDigitChars 10 cs (value * 10 + digitValue c) := by
      rw [Nat.ofDigitChars_cons, Nat.mul_comm 10 value, digitValue]
    rw [hvalue] at hlt ⊢
    have hle : value * 10 + digitValue c ≤ Nat.ofDigitChars 10 cs (value * 10 + digitValue c) := by
      rw [Nat.ofDigitChars_eq_ofDigitChars_zero]
      exact Nat.le_add_right_of_le (Nat.le_mul_of_pos_left _ (Nat.pow_pos (by decide)))
    rw [List.cons_append, Json.takeDigits, if_pos ⟨hc, Nat.lt_of_le_of_lt hle hlt⟩,
      ih ⟨hcs, h.stops⟩ hlt, List.length_cons]
    simp only [Nat.add_assoc, Nat.add_comm 1]

end Run

theorem takeDigits_of_lt {cs : List Char} (hcs : ∀ c ∈ cs, c.isDigit = true) {value : Nat}
    (h : Nat.ofDigitChars 10 cs value < UInt64.size) (taken : Nat) :
    takeDigits value taken cs = (Nat.ofDigitChars 10 cs value, taken + cs.length, []) := by
  have hrun : Run cs [] := ⟨hcs, nofun⟩
  simpa only [List.append_nil] using hrun.takeDigits h taken

theorem isDigit_of_mem_digits {n : Nat} {c : Char} (h : c ∈ digits n) : c.isDigit = true :=
  Nat.isDigit_of_mem_toDigits (by decide) (by decide) h

/-- Digits have no nought in front. -/
theorem head_digits_ne {n : Nat} (h : 0 < n) : (digits n).head? ≠ some '0' := by
  induction n using Nat.strongRecOn with
  | ind n ih =>
    rw [digits, Nat.toDigits_eq_if (by decide)]
    split
    · intro hhead
      have := Nat.digitChar_eq_zero.1 (Option.some.inj hhead)
      omega
    · have hlt : n / 10 < n := by omega
      have hpos : 0 < n / 10 := by omega
      have hne : Nat.toDigits 10 (n / 10) ≠ [] := Nat.toDigits_ne_nil
      obtain ⟨c, cs, hcs⟩ := List.exists_cons_of_ne_nil hne
      rw [hcs]
      have := ih _ hlt hpos
      rwa [digits, hcs] at this

private theorem readUnsigned_digits (negative : Bool) {n : Nat} (h : n < UInt64.size) :
    readUnsigned negative (digits n) = do return (← whole negative n, []) := by
  have hdigits : ∀ c ∈ digits n, c.isDigit = true := fun c hc => isDigit_of_mem_digits hc
  have hvalue : Nat.ofDigitChars 10 (digits n) 0 = n := Nat.ofDigitChars_ten_toDigits
  cases hcs : digits n with
  | nil => exact absurd hcs Nat.toDigits_ne_nil
  | cons c cs =>
    rw [hcs, List.forall_mem_cons] at hdigits
    rw [hcs, Nat.ofDigitChars_cons, Nat.mul_zero, Nat.zero_add] at hvalue
    have hfirst : firstDigits c cs = (n, []) := by
      rw [firstDigits]
      split
      · next hzero =>
        rcases Nat.eq_zero_or_pos n with rfl | hpos
        · cases (List.cons.inj hcs).2
          rfl
        · exact absurd (by rw [hcs, hzero, List.head?_cons]) (head_digits_ne hpos)
      · rw [takeDigits_of_lt hdigits.2 (by rw [digitValue, hvalue]; exact h), digitValue, hvalue]
    rw [readUnsigned_cons negative hdigits.1, hfirst]
    simp [readEnd]

end Retrace.Json

namespace Retrace.Number

open Json

def ReadsBack (n : Number) : Prop := readNumber n.text = .ok (n, [])

instance (n : Number) : Decidable n.ReadsBack :=
  decidable_of_iff ((readNumber n.text).toOption = some (n, [])) (by
    rw [ReadsBack]
    cases readNumber n.text <;> simp [Except.toOption])

theorem readsBack_unsigned (n : UInt64) : (unsigned n).ReadsBack := by
  have hhead : (digits n.toNat).head? ≠ some '-' := by
    intro h
    have := isDigit_of_mem_digits (List.mem_of_mem_head? h)
    exact absurd this (by decide)
  have hwhole : whole false n.toNat = .ok (.unsigned n) :=
    congrArg (fun n => Except.ok (Number.unsigned n)) UInt64.ofNat_toNat
  rw [ReadsBack, text, readNumber_of_head hhead, readUnsigned_digits false n.toNat_lt, hwhole]
  rfl

theorem readsBack_negative (n : Fin (UInt64.size / 2)) : (negative n).ReadsBack := by
  have hlt : n.val + 1 < UInt64.size := by omega
  have hrange : 0 < n.val + 1 ∧ n.val + 1 ≤ UInt64.size / 2 := by omega
  rw [ReadsBack, text, readNumber_minus, readUnsigned_digits true hlt, whole, if_neg (by decide),
    dif_pos hrange]
  rfl

-- not every double reads back, since the reader rounds twice: this is `1e-23`
example : ¬(double ⟨false, 0x182db34012b251 <<< 945⟩).ReadsBack := by decide +kernel

/-- A number that reads back alone reads back in a text. -/
theorem ReadsBack.append {n : Number} (h : n.ReadsBack) {q : Char} (hq : Stops q)
    (k : List Char) : readNumber (n.text ++ q :: k) = .ok (n, q :: k) := by
  rw [readNumber_append hq, show readNumber n.text = .ok (n, []) from h]
  rfl

end Retrace.Number

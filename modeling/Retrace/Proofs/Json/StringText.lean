import Retrace.Json.Lexeme
import Retrace.Json.Printer

/-! Strings in JSON text. The reader of strings undoes the printer in front of any continuation, so
a printed string tells where it ends and what it holds. -/
namespace Retrace.Json

private theorem hexValue?_digitChar {n : Nat} (h : n < 16) :
    hexValue? (Nat.digitChar n) = some n := by
  have hall : ∀ n < 16, hexValue? (Nat.digitChar n) = some n := by decide
  exact hall n h

private theorem not_short {a b c d : Char} {k : List Char} :
    short (a :: b :: c :: d :: k) = false := by
  have ha := a.utf8Size_pos
  have hb := b.utf8Size_pos
  have hc := c.utf8Size_pos
  have hd := d.utf8Size_pos
  refine decide_eq_false fun hlt => ?_
  simp only [List.take_succ_cons, List.take_zero, List.foldl_cons, List.foldl_nil] at hlt
  omega

/-- A control character is written by the value of its two lowest digits. -/
private theorem readStringFrom_control (mode : StringMode) (acc : List Char) {c : Char}
    (h : c.toNat < 32) (k : List Char) :
    readStringFrom mode acc .plain
        ('\\' :: 'u' :: '0' :: '0' :: Nat.digitChar (c.toNat / 16) ::
          Nat.digitChar (c.toNat % 16) :: k) =
      readStringFrom mode (c :: acc) .plain k := by
  have hzero : hexValue? '0' = some 0 := by decide
  have hhigh : hexValue? (Nat.digitChar (c.toNat / 16)) = some (c.toNat / 16) :=
    hexValue?_digitChar (by omega)
  have hlow : hexValue? (Nat.digitChar (c.toNat % 16)) = some (c.toNat % 16) :=
    hexValue?_digitChar (by omega)
  have hvalue : c.toNat / 16 * 16 + c.toNat % 16 = c.toNat := by omega
  have hhi : isHighSurrogate c.toNat = false := by
    simp only [isHighSurrogate, Bool.and_eq_false_iff, decide_eq_false_iff_not]; omega
  have hlo : isLowSurrogate c.toNat = false := by
    simp only [isLowSurrogate, Bool.and_eq_false_iff, decide_eq_false_iff_not]; omega
  simp [readStringFrom, not_short, hzero, hhigh, hlow, hvalue, hhi, hlo]

private theorem readStringFrom_escapeChar (mode : StringMode) (acc : List Char) (c : Char)
    (k : List Char) :
    readStringFrom mode acc .plain (escapeChar c ++ k) =
      readStringFrom mode (c :: acc) .plain k := by
  unfold escapeChar
  split
  case h_8 hquote hslash _ _ _ _ _ =>
    split
    · next h => exact readStringFrom_control mode acc (UInt32.lt_iff_toNat_lt.1 h) k
    · next h =>
      simp [readStringFrom, show c ≠ '"' from hquote, show c ≠ '\\' from hslash, h]
  all_goals simp [readStringFrom, unescape?]

/-- Reading what was printed gives back the string and leaves the continuation. -/
theorem readStringFrom_escaped (mode : StringMode) (acc cs k : List Char) :
    readStringFrom mode acc .plain (cs.flatMap escapeChar ++ '"' :: k) =
      .ok (String.ofList (acc.reverse ++ cs), k) := by
  induction cs generalizing acc with
  | nil => simp [readStringFrom]
  | cons c cs ih =>
    rw [List.flatMap_cons, List.append_assoc, readStringFrom_escapeChar, ih]
    simp

theorem emitString_append (s : String) (k l : List Char) :
    emitString s (k ++ l) = emitString s k ++ l := by
  simp [emitString]

/-- A printed string tells where it ends. -/
theorem emitString_inj {s t : String} {k l : List Char}
    (h : emitString s k = emitString t l) : s = t ∧ k = l := by
  simp only [emitString, List.cons_append, List.cons.injEq, true_and] at h
  have hread := congrArg (readStringFrom ⟨false, true⟩ [] .plain) h
  rw [readStringFrom_escaped, readStringFrom_escaped] at hread
  simpa using hread

end Retrace.Json

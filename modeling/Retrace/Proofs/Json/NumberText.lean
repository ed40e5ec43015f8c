import Retrace.Json.Value

/-! Printed numbers: they are not empty, and only a few characters stand in them. Hence a number is
told from whatever follows it by the first character of another kind. -/
namespace Retrace

def isNumeral (c : Char) : Bool := c.isDigit || c = '.' || c = '-' || c = '+' || c = 'e'

private theorem isNumeral_of_mem_digits {n : Nat} {c : Char} (h : c ∈ digits n) :
    isNumeral c = true := by
  simp [isNumeral, Nat.isDigit_of_mem_toDigits (by decide) (by decide) h]

theorem digits_inj {m n : Nat} (h : digits m = digits n) : m = n := by
  have hread := congrArg (Nat.ofDigitChars 10 · 0) h
  simpa [digits] using hread

namespace Layout

private theorem mem_of_mem_strip {c : Char} {ds : List Char} (h : c ∈ strip ds) : c ∈ ds := by
  rw [strip, List.mem_reverse] at h
  exact List.mem_reverse.1 ((List.dropWhile_suffix _).subset h)

variable {layout : Layout}

private theorem isNumeral_of_mem_place (hmark : isNumeral layout.mark = true)
    (hplus : ∀ c ∈ layout.plus, isNumeral c = true) {ds : List Char}
    (hds : ∀ c ∈ ds, isNumeral c = true) {exponent : Int} {c : Char}
    (h : c ∈ layout.place ds exponent) : isNumeral c = true := by
  have hzero : isNumeral '0' = true := by decide
  have hpoint : isNumeral '.' = true := by decide
  have hminus : isNumeral '-' = true := by decide
  have hzeros (n : Nat) : ∀ c ∈ zeros n, isNumeral c = true := by
    simp [zeros, hzero]
  have htake (n : Nat) : ∀ c ∈ ds.take n, isNumeral c = true :=
    fun c h => hds c (List.mem_of_mem_take h)
  have hdrop (n : Nat) : ∀ c ∈ ds.drop n, isNumeral c = true :=
    fun c h => hds c (List.mem_of_mem_drop h)
  unfold place at h
  split at h
  · rw [List.mem_append, List.mem_cons] at h
    rcases h with h | rfl | h
    · split at h
      · simp only [List.mem_singleton] at h; exact h ▸ hzero
      · simp only [List.mem_singleton] at h; exact h ▸ hds _ List.mem_cons_self
      · simp only [List.mem_cons] at h hds
        rcases h with rfl | rfl | h
        · exact hds c (.inl rfl)
        · exact hpoint
        · exact hds c (.inr h)
    · exact hmark
    · split at h
      · rcases List.mem_append.1 h with h | h
        · exact hplus c h
        · exact isNumeral_of_mem_digits h
      · rcases List.mem_cons.1 h with rfl | h
        · exact hminus
        · exact isNumeral_of_mem_digits h
  · split at h
    · simp only [List.cons_append, List.mem_cons, List.mem_append] at h
      rcases h with rfl | rfl | h | h
      · exact hzero
      · exact hpoint
      · exact hzeros _ c h
      · exact hds c h
    · simp only [List.mem_append, List.mem_cons] at h
      rcases h with (h | h) | rfl | h
      · exact htake _ c h
      · exact hzeros _ c h
      · exact hpoint
      · split at h
        · simp only [List.mem_singleton] at h; exact h ▸ hzero
        · exact hdrop _ c h

private theorem place_ne_nil {ds : List Char} {exponent : Int} :
    layout.place ds exponent ≠ [] := by
  unfold place
  split
  · simp
  · split <;> simp

theorem text_of_zero (layout : Layout) {d : Double} (h : d.units = 0) :
    layout.text d = (if d.negative then ['-'] else []) ++ ['0', '.', '0'] := by
  rw [text, if_pos h]

/-- A double other than zero: its sign in front of its shortest decimal. -/
theorem text_of_ne_zero (layout : Layout) {d : Double} (h : d.units ≠ 0) {c : Nat} {k : Int}
    (hshortest : Double.shortest d.units = ⟨c, k⟩) :
    layout.text d = (if d.negative then ['-'] else []) ++
      layout.place (strip (digits c)) (k + (digits c).length - 1) := by
  rw [text, if_neg h, hshortest]

end Layout

namespace Number

theorem isNumeral_of_mem_text {n : Number} {c : Char} (h : c ∈ n.text) : isNumeral c = true := by
  have hminus : isNumeral '-' = true := by decide
  cases n with
  | unsigned n => exact isNumeral_of_mem_digits h
  | negative n =>
    rcases List.mem_cons.1 h with rfl | h
    · exact hminus
    · exact isNumeral_of_mem_digits h
  | double d =>
    have hsign : ∀ c ∈ (if d.negative then ['-'] else []), isNumeral c = true := by
      split <;> simp [hminus]
    rw [text] at h
    by_cases hz : d.units = 0
    · rw [Layout.text_of_zero _ hz] at h
      rcases List.mem_append.1 h with h | h
      · exact hsign c h
      · have hall : ∀ c ∈ ['0', '.', '0'], isNumeral c = true := by simp [isNumeral]
        exact hall c h
    · rcases hshortest : Double.shortest d.units with ⟨coefficient, k⟩
      rw [Layout.text_of_ne_zero layout hz hshortest] at h
      rcases List.mem_append.1 h with h | h
      · exact hsign c h
      · exact Layout.isNumeral_of_mem_place (by decide) (by simp [layout, isNumeral])
          (fun c h => isNumeral_of_mem_digits (Layout.mem_of_mem_strip h)) h

theorem text_ne_nil (n : Number) : n.text ≠ [] := by
  cases n with
  | unsigned n => exact Nat.toDigits_ne_nil
  | negative n => simp [text]
  | double d =>
    rw [text]
    by_cases hz : d.units = 0
    · simp [Layout.text_of_zero _ hz]
    · rcases hshortest : Double.shortest d.units with ⟨coefficient, k⟩
      rw [Layout.text_of_ne_zero layout hz hshortest]
      exact List.append_ne_nil_of_right_ne_nil _ Layout.place_ne_nil

/-- Printed numbers of 64 bits are told apart by their text. -/
theorem unsigned_of_text_eq {a b : UInt64} (h : (unsigned a).text = (unsigned b).text) : a = b :=
  UInt64.toNat_inj.1 (digits_inj h)

/-- What follows a printed number does not go on with it. -/
def Ends (k : List Char) : Prop := ∀ c ∈ k.head?, isNumeral c = false

/-- A printed number tells where it ends. -/
theorem text_append_inj {m n : Number} {k l : List Char} (hk : Ends k) (hl : Ends l)
    (h : m.text ++ k = n.text ++ l) : m.text = n.text ∧ k = l := by
  have htake (n : Number) {k : List Char} (hk : Ends k) :
      (n.text ++ k).takeWhile isNumeral = n.text := by
    rw [List.takeWhile_append_of_pos fun c hc => isNumeral_of_mem_text hc]
    cases k with
    | nil => simp
    | cons c k => simp [hk c rfl]
  have htext : m.text = n.text := by
    rw [← htake m hk, h, htake n hl]
  rw [htext] at h
  exact ⟨htext, List.append_cancel_left h⟩

end Number
end Retrace

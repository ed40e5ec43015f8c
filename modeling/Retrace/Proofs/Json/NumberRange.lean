import Retrace.Proofs.Datum.Identity
import Retrace.Proofs.Json.NumberReading
import Retrace.Proofs.Numeral.Rounding

/-! Numbers that are read from JSON text are such that 64 bits can hold them: what is no whole number
of 64 bits is rounded to a double. So are all numbers in the values that are read from it. -/
namespace Retrace

namespace Number

/-- A number that 64 bits can hold: a double is finite. -/
def IsFinite : Number → Prop
  | .double x => Double.IsFinite x.units
  | _ => True

theorem IsFinite.representable {n : Number} (h : n.IsFinite) : n.Representable := by
  cases n with
  | double x => exact Double.IsFinite.representable h
  | _ => trivial

end Number

namespace Json

/-! ### Numbers in text -/

def Fits (read : Except Fault (Number × List Char)) : Prop :=
  ∀ n rest, read = .ok (n, rest) → n.IsFinite

private theorem fits_error (fault : Fault) : Fits (.error fault) := nofun

/-- Digits are taken only as long as they fit. -/
theorem takeDigits_lt {value : Nat} (h : value < UInt64.size) (taken : Nat) (cs : List Char) :
    (takeDigits value taken cs).1 < UInt64.size := by
  induction cs generalizing value taken with
  | nil => exact h
  | cons c cs ih =>
    rw [takeDigits]
    split
    · next hc => exact ih hc.2 _
    · exact h

private theorem firstDigits_lt {c : Char} (hc : c.isDigit = true) (cs : List Char) :
    (firstDigits c cs).1 < UInt64.size := by
  have hvalue : digitValue c < UInt64.size := by
    have hle : c.toNat ≤ '0'.toNat + 9 := (Char.isDigit_iff_toNat.1 hc).2
    have hdigit : digitValue c ≤ 9 := by
      rw [digitValue]
      omega
    exact Nat.lt_of_le_of_lt hdigit (by decide)
  rw [firstDigits]
  split
  · exact Nat.zero_lt_succ _
  · exact takeDigits_lt hvalue _ _

section

variable {significand : Nat} (hlt : significand < UInt64.size)
include hlt

private theorem isFinite_of_double {negative : Bool} {exponent : Int} {n : Number}
    (h : double negative significand exponent = .ok n) : n.IsFinite := by
  rw [double] at h
  split at h
  · next units hscale =>
    cases h
    exact Double.isFinite_of_scale hlt hscale
  · cases h

private theorem fits_double (negative : Bool) (exponent : Int) (rest : List Char) :
    Fits (do return (← double negative significand exponent, rest)) := by
  intro n _ h
  obtain ⟨m, hm, h⟩ := Except.bind_eq_ok h
  cases h
  exact isFinite_of_double hlt hm

private theorem fits_whole (negative : Bool) (rest : List Char) :
    Fits (do return (← whole negative significand, rest)) := by
  intro n _ h
  obtain ⟨k, hk, h⟩ := Except.bind_eq_ok h
  cases h
  rw [whole] at hk
  split at hk
  · cases hk
    trivial
  · split at hk
    · cases hk
      trivial
    · exact isFinite_of_double hlt hk

private theorem fits_readExponent (negative : Bool) (exponent : Int) (cs : List Char) :
    Fits (readExponent negative significand exponent cs) := by
  unfold readExponent
  split
  split
  · exact fits_error _
  · split
    · exact fits_double hlt _ _ _
    · exact fits_error _

private theorem fits_readFraction (negative : Bool) (exponent : Int) (cs : List Char) :
    Fits (readFraction negative significand exponent cs) := by
  have htaken := takeDigits_lt hlt 0 cs
  simp only [readFraction]
  split
  · split
    · exact fits_error _
    · exact fits_double htaken _ _ _
  · split
    · exact fits_error _
    · split
      · exact fits_readExponent htaken _ _ _
      · exact fits_double htaken _ _ _

private theorem fits_readEnd (negative : Bool) (dropped cs : List Char) :
    Fits (readEnd negative significand dropped cs) := by
  unfold readEnd
  split
  · exact fits_readFraction hlt _ _ _
  · split
    · exact fits_readExponent hlt _ _ _
    · split
      · exact fits_whole hlt _ _
      · exact fits_double hlt _ _ _
  · split
    · exact fits_whole hlt _ _
    · exact fits_double hlt _ _ _

end

private theorem fits_readUnsigned (negative : Bool) (cs : List Char) :
    Fits (readUnsigned negative cs) := by
  cases cs with
  | nil => exact fits_error _
  | cons c cs =>
    cases hc : c.isDigit with
    | false => simp only [readUnsigned, hc]; exact fits_error _
    | true =>
      rw [readUnsigned_cons negative hc]
      split
      · exact fits_error _
      · exact fits_readEnd (firstDigits_lt hc cs) _ _ _

theorem fits_readNumber (cs : List Char) : Fits (readNumber cs) := by
  unfold readNumber
  split <;> exact fits_readUnsigned _ _

/-! ### Trees of texts -/

/-- A tree all of whose numbers 64 bits can hold. -/
inductive Tree.IsFinite : Tree → Prop
  | null : IsFinite .null
  | bool (b : Bool) : IsFinite (.bool b)
  | number {n : Number} (h : n.IsFinite) : IsFinite (.number n)
  | string (s : String) : IsFinite (.string s)
  | array {items : List Tree} (h : ∀ t ∈ items, IsFinite t) (closing : Closing) :
      IsFinite (.array items closing)
  | object {members : List (Key × Tree)} (h : ∀ m ∈ members, IsFinite m.2)
      (closing : Closing) : IsFinite (.object members closing)
  | flawed (start : Option Char) (flaw : Flaw) : IsFinite (.flawed start flaw)

namespace Tree

private theorem isFinite_scalar {α : Type} {read : Except Fault α} {f : α → Tree × List Char}
    (h : ∀ a, read = .ok a → (f a).1.IsFinite) (start : Char)
    (skip : Except Fault (List Char)) : (scalar start (read.map f) skip).1.IsFinite := by
  cases read with
  | ok a => exact h a rfl
  | error fault => cases skip <;> exact .flawed _ _

private theorem isFinite_literal {t : Tree} (h : t.IsFinite) (start : Char) (word : String)
    (cs : List Char) : (literal start word t cs).1.IsFinite :=
  isFinite_scalar (fun _ _ => h) start _

private theorem isFinite_text (start : Char) (medium : Medium) (cs : List Char)
    (skip : Except Fault (List Char)) :
    (scalar start ((readString medium cs).map fun (s, rest) => (.string s, rest))
      skip).1.IsFinite :=
  isFinite_scalar (fun _ _ => .string _) start skip

private theorem isFinite_numeral (start : Char) (cs : List Char) (skip : Except Fault (List Char)) :
    (scalar start ((readNumber cs).map fun (n, rest) => (.number n, rest))
      skip).1.IsFinite :=
  isFinite_scalar (fun _ hread => .number (fits_readNumber _ _ _ hread)) start skip

private theorem isFinite_limited {t : Tree} (h : t.IsFinite) (start : Char) (depth : Nat) :
    (limited start depth t).IsFinite := by
  unfold limited
  split
  · exact .flawed _ _
  · exact h

/-- What the readers of trees give on a supply of fuel. -/
structure Fitting (medium : Medium) (fuel : Nat) : Prop where
  value : ∀ depth cs, (readValue medium fuel depth cs).1.IsFinite
  items : ∀ depth cs, ∀ t ∈ (readItems medium fuel depth cs).1, t.IsFinite
  item : ∀ depth cs, ∀ t ∈ (readItem medium fuel depth cs).1, t.IsFinite
  moreItems : ∀ depth cs, ∀ t ∈ (readMoreItems medium fuel depth cs).1, t.IsFinite
  members : ∀ depth cs, ∀ m ∈ (readMembers medium fuel depth cs).1, m.2.IsFinite
  member : ∀ depth cs, ∀ m ∈ (readMember medium fuel depth cs).1, m.2.IsFinite
  moreMembers : ∀ depth cs, ∀ m ∈ (readMoreMembers medium fuel depth cs).1, m.2.IsFinite

private theorem fitting_zero (medium : Medium) : Fitting medium 0 where
  value _ _ := by rw [readValue]; exact .flawed _ _
  items _ _ := by rw [readItems]; exact List.forall_mem_nil _
  item _ _ := by rw [readItem]; exact List.forall_mem_nil _
  moreItems _ _ := by rw [readMoreItems]; exact List.forall_mem_nil _
  members _ _ := by rw [readMembers]; exact List.forall_mem_nil _
  member _ _ := by rw [readMember]; exact List.forall_mem_nil _
  moreMembers _ _ := by rw [readMoreMembers]; exact List.forall_mem_nil _

theorem Fitting.succ {medium : Medium} {fuel : Nat} (h : Fitting medium fuel) :
    Fitting medium (fuel + 1) where
  value depth cs := by
    unfold readValue
    split
    · exact .flawed _ _
    · exact isFinite_literal .null _ _ _
    · exact isFinite_literal (.bool _) _ _ _
    · exact isFinite_literal (.bool _) _ _ _
    · exact isFinite_text _ _ _ _
    · exact isFinite_limited (.array (h.items _ _) _) _ _
    · exact isFinite_limited (.object (h.members _ _) _) _ _
    · split
      · exact isFinite_numeral _ _ _
      · exact .flawed _ _
  items depth cs := by
    unfold readItems
    split
    · exact List.forall_mem_nil _
    · exact List.forall_mem_nil _
    · exact h.item _ _
  item depth cs := by
    unfold readItem
    have hvalue := h.value depth cs
    split
    · next heq =>
      rw [heq] at hvalue
      exact List.forall_mem_singleton.2 hvalue
    · next heq =>
      rw [heq] at hvalue
      exact List.forall_mem_cons.2 ⟨hvalue, h.moreItems _ _⟩
  moreItems depth cs := by
    unfold readMoreItems
    split
    · exact List.forall_mem_nil _
    · exact List.forall_mem_nil _
    · split
      · exact List.forall_mem_nil _
      · exact List.forall_mem_nil _
      · exact h.item _ _
    · exact List.forall_mem_nil _
  members depth cs := by
    unfold readMembers
    split
    · exact List.forall_mem_nil _
    · exact List.forall_mem_nil _
    · exact h.member _ _
    · exact List.forall_mem_singleton.2 (h.value _ _)
  member depth cs := by
    unfold readMember
    split
    · exact List.forall_mem_singleton.2 (.flawed _ _)
    · split
      · exact List.forall_mem_singleton.2 (.flawed _ _)
      · next rest _ =>
        have hvalue := h.value depth rest
        split
        · next heq =>
          rw [heq] at hvalue
          exact List.forall_mem_singleton.2 hvalue
        · next heq =>
          rw [heq] at hvalue
          exact List.forall_mem_cons.2 ⟨hvalue, h.moreMembers _ _⟩
      · exact List.forall_mem_singleton.2 (.flawed _ _)
  moreMembers depth cs := by
    unfold readMoreMembers
    split
    · exact List.forall_mem_nil _
    · exact List.forall_mem_nil _
    · split
      · exact List.forall_mem_nil _
      · exact h.member _ _
      · exact List.forall_mem_nil _
    · exact List.forall_mem_nil _

private theorem fitting (medium : Medium) (fuel : Nat) : Fitting medium fuel := by
  induction fuel with
  | zero => exact fitting_zero medium
  | succ fuel ih => exact ih.succ

private theorem isFinite_ofText (medium : Medium) (cs : List Char) :
    (ofText medium cs).1.IsFinite :=
  (fitting medium _).value _ _

end Tree

/-! ### Values -/

/-- A value all of whose numbers 64 bits can hold. -/
inductive IsFinite : Json → Prop
  | null : IsFinite .null
  | bool (b : Bool) : IsFinite (.bool b)
  | number {n : Number} (h : n.IsFinite) : IsFinite (.number n)
  | string (s : String) : IsFinite (.string s)
  | array {items : List Json} (h : ∀ v ∈ items, IsFinite v) : IsFinite (.array items)
  | object {members : List (String × Json)} (h : ∀ m ∈ members, IsFinite m.2) :
      IsFinite (.object members)

mutual

private theorem isFinite_toJson : ∀ {t : Tree} {v : Json}, t.IsFinite → t.toJson = .ok v →
    v.IsFinite
  | .null, _, _, hv => by cases hv; exact .null
  | .bool b, _, _, hv => by cases hv; exact .bool b
  | .number n, _, .number h, hv => by cases hv; exact .number h
  | .string s, _, _, hv => by cases hv; exact .string s
  | .array items closing, v, .array h _, hv => by
    obtain ⟨vs, hvs, hv⟩ := Except.bind_eq_ok hv
    split at hv
    · cases hv
    · cases hv
      exact .array (isFinite_itemsToJson h hvs)
  | .object members closing, v, .object h _, hv => by
    obtain ⟨ms, hms, hv⟩ := Except.bind_eq_ok hv
    split at hv
    · cases hv
    · cases hv
      exact .object (isFinite_membersToJson h hms)
  | .flawed _ _, _, _, hv => by cases hv

private theorem isFinite_itemsToJson : ∀ {ts : List Tree} {vs : List Json},
    (∀ t ∈ ts, t.IsFinite) → Tree.itemsToJson ts = .ok vs → ∀ v ∈ vs, v.IsFinite
  | [], _, _, hvs => by cases hvs; exact List.forall_mem_nil _
  | t :: ts, _, h, hvs => by
    rw [List.forall_mem_cons] at h
    obtain ⟨v, hv, hvs⟩ := Except.bind_eq_ok hvs
    obtain ⟨vs, hrest, hvs⟩ := Except.bind_eq_ok hvs
    cases hvs
    exact List.forall_mem_cons.2
      ⟨isFinite_toJson h.1 hv, isFinite_itemsToJson h.2 hrest⟩

private theorem isFinite_membersToJson : ∀ {ts : List (Key × Tree)} {ms : List (String × Json)},
    (∀ m ∈ ts, m.2.IsFinite) → Tree.membersToJson ts = .ok ms → ∀ m ∈ ms, m.2.IsFinite
  | [], _, _, hms => by cases hms; exact List.forall_mem_nil _
  | (key, t) :: ts, _, h, hms => by
    rw [List.forall_mem_cons] at h
    obtain ⟨name, -, hms⟩ := Except.bind_eq_ok hms
    obtain ⟨v, hv, hms⟩ := Except.bind_eq_ok hms
    obtain ⟨ms, hrest, hms⟩ := Except.bind_eq_ok hms
    cases hms
    exact List.forall_mem_cons.2
      ⟨isFinite_toJson h.1 hv, isFinite_membersToJson h.2 hrest⟩

end

mutual

theorem IsFinite.settle : ∀ {v : Json}, v.IsFinite → v.settle.IsFinite
  | .null, h | .bool _, h | .number _, h | .string _, h => h
  | .array _, .array h => .array (isFinite_settleItems h)
  | .object _, .object h =>
    .object fun m hm => (mem_upsertAll hm).elim (isFinite_settleMembers h m) nofun

private theorem isFinite_settleItems : ∀ {vs : List Json}, (∀ v ∈ vs, v.IsFinite) →
    ∀ v ∈ settleItems vs, v.IsFinite
  | [], h => h
  | _ :: _, h => by
    rw [List.forall_mem_cons] at h
    exact List.forall_mem_cons.2 ⟨h.1.settle, isFinite_settleItems h.2⟩

private theorem isFinite_settleMembers : ∀ {ms : List (String × Json)},
    (∀ m ∈ ms, m.2.IsFinite) → ∀ m ∈ settleMembers ms, m.2.IsFinite
  | [], h => h
  | _ :: _, h => by
    rw [List.forall_mem_cons] at h
    exact List.forall_mem_cons.2 ⟨h.1.settle, isFinite_settleMembers h.2⟩

end

private theorem isFinite_read {t : Tree} (ht : t.IsFinite) {v : Json}
    (h : Read.ofText t.toJson = .ok v) : v.IsFinite := by
  cases htree : t.toJson with
  | error fault => rw [htree] at h; cases h
  | ok w => rw [htree] at h; cases h; exact isFinite_toJson ht htree

/-- All numbers in the value of a text are such that 64 bits can hold them. -/
theorem isFinite_of_parse {text : String} {v : Json} (h : parse text = .ok v) :
    v.IsFinite := by
  cases hread : readText .memory (fun t => Read.ofText t.toJson) text.toList with
  | error e => rw [parse, hread] at h; cases h
  | ok w =>
    rw [parse, hread] at h
    cases h
    obtain ⟨u, hu, hrest⟩ := Except.bind_eq_ok hread
    split at hrest
    · cases hrest
      exact (isFinite_read (Tree.isFinite_ofText _ _) hu).settle
    · cases hrest

end Json

namespace Datum

def IsFinite (d : Datum) : Prop := ∀ n, .number n ∈ d.visits → n.IsFinite

theorem IsFinite.representable {d : Datum} (h : d.IsFinite) : d.Representable :=
  fun n hn => (h n hn).representable

private theorem exists_isFinite_entry {members : List (String × Json)}
    {entries : List (String × Datum)} (h : ofEntries members = .ok entries)
    (hv : ∀ m ∈ members, m.2.IsFinite) {p : Datum} (hp : p ∈ entries.map Prod.snd) :
    ∃ w : Json, w.IsFinite ∧ ofJson w = .ok p := by
  obtain ⟨w, hw, hpart⟩ := exists_of_mem_right (ofEntries_eq_ok h).2 hp
  obtain ⟨m, hm, rfl⟩ := List.mem_map.1 hw
  exact ⟨m.2, hv m hm, hpart⟩

private theorem exists_isFinite_field {body : List (String × Json)}
    {fields : List (String × Datum)} (h : ofFields body = .ok fields)
    (hv : ∀ m ∈ body, m.2.IsFinite) {p : Datum} (hp : p ∈ fields.map Prod.snd) :
    ∃ w : Json, w.IsFinite ∧ ofJson w = .ok p := by
  induction body with
  | nil => cases h; cases hp
  | cons m ms ih =>
    rw [List.forall_mem_cons] at hv
    unfold ofFields at h
    split at h
    · next heq => cases heq
    · cases h; cases hp
    · next heq =>
      cases heq
      cases hv.1 with
      | object hmembers => exact exists_isFinite_entry h hmembers hp
    · cases h
    · next heq => cases heq; exact ih h hv.2

/-- A part of a value that was read was read by itself from some value. -/
theorem exists_isFinite_part {v : Json} {d p : Datum} (h : ofJson v = .ok d)
    (hv : v.IsFinite) (hp : p ∈ d.parts) : ∃ w : Json, w.IsFinite ∧ ofJson w = .ok p := by
  cases reading_of_ofJson h with
  | list hitems =>
    cases hv with
    | array hv =>
      obtain ⟨w, hw, hpart⟩ := exists_of_mem_right hitems hp
      exact ⟨w, hv w hw, hpart⟩
  | mapping _ _ hentries =>
    cases hv with
    | object hv =>
      obtain ⟨w, hw, hpart⟩ := exists_of_mem_right hentries hp
      obtain ⟨m, hm, rfl⟩ := List.mem_map.1 hw
      exact ⟨m.2, hv m hm, hpart⟩
  | object body className _ =>
    cases hv with
    | object hv =>
      cases hv _ List.mem_cons_self with
      | object hbody =>
        rw [ofJson] at h
        split at h
        · cases h
        · obtain ⟨fields, hfields, h⟩ := Except.bind_eq_ok h
          cases h
          exact exists_isFinite_field hfields hbody hp
  | _ => cases hp

theorem isFinite_of_ofJson {v : Json} {d : Datum} (hv : v.IsFinite)
    (h : ofJson v = .ok d) : d.IsFinite := by
  induction d using partsInduction generalizing v with
  | step d ih =>
    intro n hn
    rw [visits_eq] at hn
    rcases List.mem_cons.1 hn with rfl | hn
    · cases reading_of_ofJson h with
      | number _ => cases hv with | number hn => exact hn
    · obtain ⟨p, hp, hn⟩ := List.mem_flatMap.1 hn
      obtain ⟨w, hw, hpart⟩ := exists_isFinite_part h hv hp
      exact ih p hp hw hpart n hn

/-- All numbers in a value that was read from a text are such that 64 bits can hold them. -/
theorem representable_of_text {text : String} {v : Json} {d : Datum}
    (hv : Json.parse text = .ok v) (h : ofJson v = .ok d) : d.Representable :=
  (isFinite_of_ofJson (Json.isFinite_of_parse hv) h).representable

end Datum
end Retrace

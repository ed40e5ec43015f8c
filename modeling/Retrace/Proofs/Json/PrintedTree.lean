import Retrace.Json.Reading
import Retrace.Proofs.Json.NumberRereading
import Retrace.Proofs.Json.StringText

/-! The tree of printed text. Text that is printed with blanks between its tokens is taken apart
into a tree without flaws, which has the printed value. -/
namespace Retrace.Json

/-! ### Trees of printed values -/

def Key.printed (name : String) : Key :=
  .spelled (.ok name) (name.toList.flatMap escapeChar ++ ['"'])

mutual

def printed : Json → Tree
  | .null => .null
  | .bool b => .bool b
  | .number n => .number n
  | .string s => .string s
  | .array items => .array (printedItems items) .closed
  | .object members => .object (printedMembers members) .closed

def printedItems : List Json → List Tree
  | [] => []
  | v :: vs => v.printed :: printedItems vs

def printedMembers : List (String × Json) → List (Key × Tree)
  | [] => []
  | (name, v) :: ms => (.printed name, v.printed) :: printedMembers ms

end

theorem printedItems_eq (vs : List Json) : printedItems vs = vs.map printed := by
  induction vs with
  | nil => rfl
  | cons v vs ih => rw [printedItems, ih, List.map_cons]

theorem printedMembers_eq (ms : List (String × Json)) :
    printedMembers ms = ms.map fun m => (.printed m.1, m.2.printed) := by
  induction ms with
  | nil => rfl
  | cons m ms ih => rw [printedMembers, ih, List.map_cons]

/-- A value whose numbers have a property, where `depth` more containers may open: no more than these
are open at once. -/
inductive Nested (P : Number → Prop) : Nat → Json → Prop
  | null (depth : Nat) : Nested P depth .null
  | bool (depth : Nat) (b : Bool) : Nested P depth (.bool b)
  | number (depth : Nat) {n : Number} (h : P n) : Nested P depth (.number n)
  | string (depth : Nat) (s : String) : Nested P depth (.string s)
  | array {depth : Nat} {items : List Json} (h : ∀ v ∈ items, Nested P depth v) :
      Nested P (depth + 1) (.array items)
  | object {depth : Nat} {members : List (String × Json)}
      (h : ∀ m ∈ members, Nested P depth m.2) : Nested P (depth + 1) (.object members)

namespace Nested

variable {P Q : Number → Prop} {depth : Nat}

theorem array_map {α : Type} {write : α → Json} {as : List α}
    (h : ∀ a ∈ as, Nested P depth (write a)) : Nested P (depth + 1) (.array (as.map write)) :=
  .array (List.forall_mem_map.2 h)

theorem object_map {α : Type} {name : α → String} {write : α → Json} {as : List α}
    (h : ∀ a ∈ as, Nested P depth (write a)) :
    Nested P (depth + 1) (.object (as.map fun a => (name a, write a))) :=
  .object (List.forall_mem_map.2 h)

theorem imp (hPQ : ∀ n, P n → Q n) {v : Json} (h : Nested P depth v) : Nested Q depth v := by
  induction h with
  | null => exact .null _
  | bool _ b => exact .bool _ b
  | number _ h => exact .number _ (hPQ _ h)
  | string _ s => exact .string _ s
  | array _ ih => exact .array ih
  | object _ ih => exact .object ih

end Nested

abbrev Readable : Nat → Json → Prop := Nested Number.ReadsBack

/-! ### Values read again -/

mutual

def mapNumbers (f : Number → Number) : Json → Json
  | .null => .null
  | .bool b => .bool b
  | .number n => .number (f n)
  | .string s => .string s
  | .array items => .array (mapItems f items)
  | .object members => .object (mapMembers f members)

def mapItems (f : Number → Number) : List Json → List Json
  | [] => []
  | v :: vs => v.mapNumbers f :: mapItems f vs

def mapMembers (f : Number → Number) : List (String × Json) → List (String × Json)
  | [] => []
  | (name, v) :: ms => (name, v.mapNumbers f) :: mapMembers f ms

end

theorem mapItems_eq (f : Number → Number) (vs : List Json) :
    mapItems f vs = vs.map (mapNumbers f) := by
  induction vs with
  | nil => rfl
  | cons v vs ih => rw [mapItems, ih, List.map_cons]

theorem mapMembers_eq (f : Number → Number) (ms : List (String × Json)) :
    mapMembers f ms = ms.map fun m => (m.1, m.2.mapNumbers f) := by
  induction ms with
  | nil => rfl
  | cons m ms ih => rw [mapMembers, ih, List.map_cons]

def reread (v : Json) : Json := v.mapNumbers Number.reread

/-- A value whose numbers all stay the same. -/
theorem mapNumbers_eq_self {f : Number → Number} {depth : Nat} {v : Json}
    (h : Nested (fun n => f n = n) depth v) : v.mapNumbers f = v := by
  induction h with
  | null | bool | string => rfl
  | number _ h => rw [mapNumbers, h]
  | array _ ih => rw [mapNumbers, mapItems_eq, map_eq_self_iff.2 ih]
  | @object _ members _ ih =>
    have hmembers : members.map (fun m => (m.1, m.2.mapNumbers f)) = members :=
      map_eq_self_iff.2 fun m hm => Prod.ext rfl (ih m hm)
    rw [mapNumbers, mapMembers_eq, hmembers]

/-! ### Blanks -/

/-- A style that puts nothing but blanks between tokens. -/
structure Style.Blank (style : Style) : Prop where
  newline : ∀ depth, ∀ c ∈ style.newline depth, isBlank c = true
  afterColon : ∀ c ∈ style.afterColon, isBlank c = true

private theorem blank_pretty : Style.pretty.Blank where
  newline depth c hc := by
    rcases List.mem_cons.1 hc with rfl | hc
    · decide
    · rw [(List.mem_replicate.1 hc).2]
      decide
  afterColon c hc := by
    rw [List.mem_singleton.1 hc]
    decide

private theorem skipBlanks_append {blanks : List Char} (h : ∀ c ∈ blanks, isBlank c = true)
    (cs : List Char) : skipBlanks (blanks ++ cs) = skipBlanks cs :=
  List.dropWhile_append_of_pos h

private theorem skipBlanks_cons {c : Char} (h : isBlank c = false) (cs : List Char) :
    skipBlanks (c :: cs) = c :: cs :=
  List.dropWhile_cons_of_neg (by simp [h])

/-- What follows a value does not go on with a number. -/
def Stopped (k : List Char) : Prop := ∀ c ∈ k.head?, Stops c

private theorem stopped_nil : Stopped [] := nofun

private theorem stopped_cons {c : Char} (h : Stops c) (k : List Char) : Stopped (c :: k) := by
  intro d hd
  cases hd
  exact h

private theorem stops_of_isBlank {c : Char} (h : isBlank c = true) : Stops c := by
  simp only [isBlank, Bool.or_eq_true, decide_eq_true_eq] at h
  rcases h with ((rfl | rfl) | rfl) | rfl <;> decide

private theorem stopped_blanks {blanks k : List Char} (h : ∀ c ∈ blanks, isBlank c = true)
    (hk : Stopped k) : Stopped (blanks ++ k) := by
  cases blanks with
  | nil => exact hk
  | cons c cs => exact stopped_cons (stops_of_isBlank (h c List.mem_cons_self)) _

/-! ### Names -/

theorem spelled_append (name : Except Flaw String) (cs k : List Char) :
    Key.spelled name (cs ++ '"' :: k) = Key.spelled name (cs ++ ['"']) := by
  have hstops : Stops '"' := by decide
  rw [Key.spelled, Key.spelled]
  congr 1
  cases cs with
  | nil => rfl
  | cons c cs =>
    rw [List.cons_append, List.cons_append, Key.readNumber, Key.readNumber]
    split
    · rw [← List.cons_append, ← List.cons_append, readNumber_append hstops,
        readNumber_append hstops]
      cases readNumber (c :: cs) with
      | error fault => cases fault <;> rfl
      | ok r =>
        obtain ⟨n, rest⟩ := r
        cases rest <;> rfl
    · rfl

variable {medium : Medium}

private theorem readString_escaped (h : medium.stray = none) (s : String) (k : List Char) :
    readString medium (s.toList.flatMap escapeChar ++ '"' :: k) = .ok (s, k) := by
  rw [readString, readStringFrom_escaped, h]
  simp only [List.reverse_nil, List.nil_append, String.ofList_toList]
  rfl

private theorem readName_escaped (h : medium.stray = none) (name : String) (k : List Char) :
    Tree.readName medium (name.toList.flatMap escapeChar ++ '"' :: k) = (.ok name, some k) := by
  rw [Tree.readName, readString_escaped h]

/-! ### Values -/

open Retrace.Json.Tree

private theorem readValue_blanks {blanks : List Char} (h : ∀ c ∈ blanks, isBlank c = true)
    (fuel depth : Nat) (cs : List Char) :
    readValue medium fuel depth (blanks ++ cs) = readValue medium fuel depth cs := by
  cases fuel with
  | zero => rw [readValue, readValue]
  | succ fuel => rw [readValue, readValue, skipBlanks_append h]

private theorem readValue_null (fuel depth : Nat) (k : List Char) :
    readValue medium (fuel + 1) depth ('n' :: 'u' :: 'l' :: 'l' :: k) = (.null, some k) := by
  rw [readValue, skipBlanks_cons (by decide)]
  rfl

private theorem readValue_true (fuel depth : Nat) (k : List Char) :
    readValue medium (fuel + 1) depth ('t' :: 'r' :: 'u' :: 'e' :: k) =
      (.bool true, some k) := by
  rw [readValue, skipBlanks_cons (by decide)]
  rfl

private theorem readValue_false (fuel depth : Nat) (k : List Char) :
    readValue medium (fuel + 1) depth ('f' :: 'a' :: 'l' :: 's' :: 'e' :: k) =
      (.bool false, some k) := by
  rw [readValue, skipBlanks_cons (by decide)]
  rfl

private theorem readValue_string (h : medium.stray = none) (fuel depth : Nat) (s : String)
    (k : List Char) :
    readValue medium (fuel + 1) depth (emitString s k) = (.string s, some k) := by
  rw [emitString, List.cons_append, readValue, skipBlanks_cons (by decide)]
  simp only [readString_escaped h]
  rfl

/-- What is read as a number starts with a digit or a minus. -/
theorem head_of_readNumber {cs rest : List Char} {n : Number} (h : readNumber cs = .ok (n, rest)) :
    ∃ c cs', cs = c :: cs' ∧ (c.isDigit || c = '-') = true := by
  cases cs with
  | nil => cases h
  | cons c cs =>
    refine ⟨c, cs, rfl, ?_⟩
    by_cases hminus : c = '-'
    · rw [hminus]
      decide
    · have hhead : (c :: cs).head? ≠ some '-' := fun hhead => hminus (Option.some.inj hhead)
      rw [readNumber_of_head hhead] at h
      cases hdigit : c.isDigit with
      | true => rfl
      | false => simp [readUnsigned, hdigit] at h

private theorem readValue_number {n : Number} (h : n.IsFinite) {k : List Char} (hk : Stopped k)
    (fuel depth : Nat) :
    readValue medium (fuel + 1) depth (n.text ++ k) = (.number n.reread, some k) := by
  have hread : readNumber (n.text ++ k) = .ok (n.reread, k) := by
    cases k with
    | nil => rw [List.append_nil]; exact Number.readNumber_text h
    | cons q k => exact Number.readNumber_text_append h (hk q rfl) k
  obtain ⟨c, cs, hcs, hc⟩ := head_of_readNumber hread
  rw [hcs] at hread ⊢
  have hne {d : Char} (hd : (d.isDigit || d = '-') = false) : c ≠ d := by
    rintro rfl
    rw [hd] at hc
    cases hc
  have hblank : isBlank c = false := by
    simp only [isBlank, Bool.or_eq_false_iff, decide_eq_false_iff_not]
    exact ⟨⟨⟨hne (by decide), hne (by decide)⟩, hne (by decide)⟩, hne (by decide)⟩
  rw [readValue, skipBlanks_cons hblank]
  split
  case h_1 heq => cases heq
  case h_8 heq =>
    cases heq
    rw [if_pos hc, hread]
    rfl
  all_goals
    next heq => exact absurd (List.cons.inj heq).1 (hne (by decide))

/-! ### Names that are numbers -/

theorem escapeChar_of_isDigit {c : Char} (h : c.isDigit = true) : escapeChar c = [c] := by
  unfold escapeChar
  split
  case h_8 =>
    rw [Char.isDigit, Bool.and_eq_true, decide_eq_true_eq] at h
    exact if_neg (UInt32.not_lt.2 (UInt32.le_trans (by decide) h.1))
  all_goals exact absurd h (by decide)

private theorem flatMap_escapeChar {cs : List Char} (h : ∀ c ∈ cs, c.isDigit = true) :
    cs.flatMap escapeChar = cs := by
  induction cs with
  | nil => rfl
  | cons c cs ih =>
    rw [List.forall_mem_cons] at h
    rw [List.flatMap_cons, escapeChar_of_isDigit h.1, ih h.2]
    rfl

theorem Key.readNumber_of_ok {cs rest : List Char} {n : Number}
    (h : Json.readNumber cs = .ok (n, rest)) (finished : List Char → Bool) :
    Key.readNumber finished cs = .ok (n, finished rest) := by
  obtain ⟨c, cs, rfl, hc⟩ := head_of_readNumber h
  rw [Key.readNumber, if_pos hc, h]
  rfl

/-- A name of digits spells their number to its end. -/
theorem number_printed (n : UInt64) :
    (Key.printed (String.ofList (digits n.toNat))).number = .ok (.unsigned n, true) := by
  have hread : readNumber (digits n.toNat ++ ['"']) = .ok (.unsigned n, ['"']) :=
    (Number.readsBack_unsigned n).append (by decide) []
  rw [Key.printed, Key.spelled, String.toList_ofList,
    flatMap_escapeChar fun c hc => isDigit_of_mem_digits hc]
  exact Key.readNumber_of_ok hread fun rest => rest.head? = some '"'

/-! ### Items and members -/

variable {style : Style}

/-- The text of a value starts neither with a blank nor like the end of an array. -/
theorem emit_head (style : Style) (v : Json) (depth : Nat) (k : List Char) :
    ∃ c cs, v.emit style depth k = c :: cs ∧ isBlank c = false ∧ c ≠ ']' := by
  cases v with
  | null => exact ⟨_, _, rfl, by decide, by decide⟩
  | bool b => cases b <;> exact ⟨_, _, rfl, by decide, by decide⟩
  | number n =>
    obtain ⟨c, cs, hcs⟩ := List.exists_cons_of_ne_nil n.text_ne_nil
    have hnumeral : isNumeral c = true :=
      Number.isNumeral_of_mem_text (hcs ▸ List.mem_cons_self)
    refine ⟨c, cs ++ k, by rw [emit, hcs, List.cons_append], ?_, ?_⟩
    · cases hblank : isBlank c with
      | false => rfl
      | true => exact absurd rfl ((stops_of_isBlank hblank).ne_of_numeral hnumeral)
    · rintro rfl
      cases hnumeral
  | string s => exact ⟨_, _, rfl, by decide, by decide⟩
  | array items => cases items <;> exact ⟨_, _, rfl, by decide, by decide⟩
  | object members =>
    rcases members with _ | ⟨⟨name, v⟩, ms⟩ <;> exact ⟨_, _, rfl, by decide, by decide⟩

section

variable {blanks : List Char} (hblanks : ∀ c ∈ blanks, isBlank c = true)
include hblanks

private theorem readItems_emit (fuel depth : Nat) (v : Json) (d : Nat) (k : List Char) :
    readItems medium (fuel + 1) depth (blanks ++ v.emit style d k) =
      readItem medium fuel depth (v.emit style d k) := by
  obtain ⟨c, cs, hcs, hblank, hend⟩ := emit_head style v d k
  rw [readItems, skipBlanks_append hblanks, hcs, skipBlanks_cons hblank]
  split
  · next heq => cases heq
  · next heq => exact absurd (List.cons.inj heq).1 hend
  · rfl

private theorem readMoreItems_emit (fuel depth : Nat) (v : Json) (d : Nat) (k : List Char) :
    readMoreItems medium (fuel + 1) depth (',' :: (blanks ++ v.emit style d k)) =
      readItem medium fuel depth (v.emit style d k) := by
  obtain ⟨c, cs, hcs, hblank, hend⟩ := emit_head style v d k
  rw [readMoreItems, skipBlanks_cons (by decide)]
  simp only [skipBlanks_append hblanks, hcs, skipBlanks_cons hblank]
  split
  · next heq => cases heq
  · next heq => exact absurd (List.cons.inj heq).1 hend
  · rfl

private theorem readMoreItems_end (fuel depth : Nat) (k : List Char) :
    readMoreItems medium (fuel + 1) depth (blanks ++ ']' :: k) = ([], .closed, some k) := by
  rw [readMoreItems, skipBlanks_append hblanks, skipBlanks_cons (by decide)]
  rfl

private theorem readMembers_emit (fuel depth : Nat) (name : String) (k : List Char) :
    readMembers medium (fuel + 1) depth (blanks ++ emitString name k) =
      readMember medium fuel depth (name.toList.flatMap escapeChar ++ '"' :: k) := by
  rw [readMembers, skipBlanks_append hblanks, emitString, List.cons_append,
    skipBlanks_cons (by decide)]
  rfl

private theorem readMoreMembers_emit (fuel depth : Nat) (name : String) (k : List Char) :
    readMoreMembers medium (fuel + 1) depth (',' :: (blanks ++ emitString name k)) =
      readMember medium fuel depth (name.toList.flatMap escapeChar ++ '"' :: k) := by
  rw [readMoreMembers, skipBlanks_cons (by decide)]
  simp only [skipBlanks_append hblanks, emitString, List.cons_append]
  rw [skipBlanks_cons (by decide)]
  rfl

private theorem readMoreMembers_end (fuel depth : Nat) (k : List Char) :
    readMoreMembers medium (fuel + 1) depth (blanks ++ '\x7d' :: k) = ([], .closed, some k) := by
  rw [readMoreMembers, skipBlanks_append hblanks, skipBlanks_cons (by decide)]
  rfl

end

private theorem readItem_eq {fuel depth : Nat} {cs rest : List Char} {t : Tree}
    (h : readValue medium fuel depth cs = (t, some rest)) :
    readItem medium (fuel + 1) depth cs =
      (t :: (readMoreItems medium fuel depth rest).1,
        (readMoreItems medium fuel depth rest).2) := by
  rw [readItem, h]

private theorem readMember_eq (hstray : medium.stray = none) {fuel depth : Nat}
    {cs rest : List Char} {t : Tree} (h : readValue medium fuel depth cs = (t, some rest))
    (name : String) :
    readMember medium (fuel + 1) depth (name.toList.flatMap escapeChar ++ '"' :: ':' :: cs) =
      ((.printed name, t) :: (readMoreMembers medium fuel depth rest).1,
        (readMoreMembers medium fuel depth rest).2) := by
  rw [readMember, readName_escaped hstray]
  simp only [skipBlanks_cons (show isBlank ':' = false by decide)]
  rw [h, spelled_append]
  rfl

/-! ### Whole values -/

theorem length_emitString (s : String) (k : List Char) :
    k.length + 2 ≤ (emitString s k).length := by
  simp only [emitString, List.cons_append, List.length_cons, List.length_append]
  omega

mutual

private theorem length_emit (style : Style) (depth : Nat) (k : List Char) :
    ∀ v : Json, k.length < (v.emit style depth k).length
  | .null | .bool true | .bool false | .array [] | .object [] => by
    simp only [emit, List.length_cons]
    omega
  | .number n => by
    have := List.length_pos_iff.2 n.text_ne_nil
    rw [emit, List.length_append]
    omega
  | .string s => by
    have := length_emitString s k
    rw [emit]
    omega
  | .array (v :: vs) => by
    have := length_emitItems style depth k vs
    have := length_emit style (depth + 1) (emitItems style depth vs k) v
    simp only [emit, List.length_cons, List.length_append]
    omega
  | .object ((name, v) :: ms) => by
    have := length_emitMembers style depth k ms
    have := length_emit style (depth + 1) (emitMembers style depth ms k) v
    have := length_emitString name
      (':' :: (style.afterColon ++ v.emit style (depth + 1) (emitMembers style depth ms k)))
    simp only [emit, List.length_cons, List.length_append] at this ⊢
    omega

private theorem length_emitItems (style : Style) (depth : Nat) (k : List Char) :
    ∀ vs : List Json, k.length < (emitItems style depth vs k).length
  | [] => by
    simp only [emitItems, List.length_cons, List.length_append]
    omega
  | v :: vs => by
    have := length_emitItems style depth k vs
    have := length_emit style (depth + 1) (emitItems style depth vs k) v
    simp only [emitItems, List.length_cons, List.length_append]
    omega

private theorem length_emitMembers (style : Style) (depth : Nat) (k : List Char) :
    ∀ ms : List (String × Json), k.length < (emitMembers style depth ms k).length
  | [] => by
    simp only [emitMembers, List.length_cons, List.length_append]
    omega
  | (name, v) :: ms => by
    have := length_emitMembers style depth k ms
    have := length_emit style (depth + 1) (emitMembers style depth ms k) v
    have := length_emitString name
      (':' :: (style.afterColon ++ v.emit style (depth + 1) (emitMembers style depth ms k)))
    simp only [emitMembers, List.length_cons, List.length_append] at this ⊢
    omega

end

private theorem stopped_emitItems (hstyle : style.Blank) (depth : Nat) (vs : List Json)
    (k : List Char) :
    Stopped (emitItems style depth vs k) := by
  cases vs with
  | nil =>
    rw [emitItems]
    exact stopped_blanks (hstyle.newline depth) (stopped_cons (by decide) k)
  | cons v vs => exact stopped_cons (by decide) _

private theorem stopped_emitMembers (hstyle : style.Blank) (depth : Nat) (ms : List (String × Json))
    (k : List Char) : Stopped (emitMembers style depth ms k) := by
  rcases ms with _ | ⟨⟨name, v⟩, ms⟩
  · rw [emitMembers]
    exact stopped_blanks (hstyle.newline depth) (stopped_cons (by decide) k)
  · exact stopped_cons (by decide) _

private theorem readItem_emit {fuel room d : Nat} {v : Json} {vs : List Json} {cs k : List Char}
    (hv : readValue medium fuel room (v.emit style d cs) = (v.reread.printed, some cs))
    (hvs : readMoreItems medium fuel room cs =
      (printedItems (mapItems Number.reread vs), .closed, some k)) :
    readItem medium (fuel + 1) room (v.emit style d cs) =
      (printedItems (mapItems Number.reread (v :: vs)), .closed, some k) := by
  rw [readItem_eq hv, hvs]
  rfl

private theorem readMember_emit (hstray : medium.stray = none) (hstyle : style.Blank)
    {fuel room d : Nat} (name : String) {v : Json} {ms : List (String × Json)} {cs k : List Char}
    (hv : readValue medium fuel room (v.emit style d cs) = (v.reread.printed, some cs))
    (hms : readMoreMembers medium fuel room cs =
      (printedMembers (mapMembers Number.reread ms), .closed, some k)) :
    readMember medium (fuel + 1) room (name.toList.flatMap escapeChar ++
        '"' :: ':' :: (style.afterColon ++ v.emit style d cs)) =
      (printedMembers (mapMembers Number.reread ((name, v) :: ms)), .closed, some k) := by
  rw [← readValue_blanks hstyle.afterColon] at hv
  rw [readMember_eq hstray hv, hms]
  rfl

private theorem readValue_array (fuel room : Nat) (cs : List Char) {items : List Tree}
    {closing : Closing} {rest : Option (List Char)}
    (h : readItems medium fuel room cs = (items, closing, rest)) :
    readValue medium (fuel + 1) (room + 1) ('[' :: cs) = (.array items closing, rest) := by
  rw [readValue, skipBlanks_cons (by decide)]
  simp only [Nat.add_sub_cancel, h]
  rfl

private theorem readValue_object (fuel room : Nat) (cs : List Char) {members : List (Key × Tree)}
    {closing : Closing} {rest : Option (List Char)}
    (h : readMembers medium fuel room cs = (members, closing, rest)) :
    readValue medium (fuel + 1) (room + 1) ('\x7b' :: cs) = (.object members closing, rest) := by
  rw [readValue, skipBlanks_cons (by decide)]
  simp only [Nat.add_sub_cancel, h]
  rfl

mutual

/-- Printed text is taken apart into the tree of the value with its numbers read again. The fuel has
to last for three calls a character. -/
theorem readValue_emit (hstray : medium.stray = none) (hstyle : style.Blank) {fuel room depth : Nat}
    {k : List Char} (hk : Stopped k) :
    ∀ v : Json, Nested Number.IsFinite room v → 3 * (v.emit style depth k).length + 3 ≤ fuel →
      readValue medium fuel room (v.emit style depth k) = (v.reread.printed, some k)
  | .null, _, hfuel => by
    obtain ⟨fuel, rfl⟩ := Nat.exists_eq_add_of_le' (show 1 ≤ fuel by omega)
    exact readValue_null fuel room k
  | .bool true, _, hfuel => by
    obtain ⟨fuel, rfl⟩ := Nat.exists_eq_add_of_le' (show 1 ≤ fuel by omega)
    exact readValue_true fuel room k
  | .bool false, _, hfuel => by
    obtain ⟨fuel, rfl⟩ := Nat.exists_eq_add_of_le' (show 1 ≤ fuel by omega)
    exact readValue_false fuel room k
  | .number n, h, hfuel => by
    obtain ⟨fuel, rfl⟩ := Nat.exists_eq_add_of_le' (show 1 ≤ fuel by omega)
    cases h with
    | number _ h => exact readValue_number h hk fuel room
  | .string s, _, hfuel => by
    obtain ⟨fuel, rfl⟩ := Nat.exists_eq_add_of_le' (show 1 ≤ fuel by omega)
    exact readValue_string hstray fuel room s k
  | .array [], h, hfuel => by
    obtain ⟨fuel, rfl⟩ := Nat.exists_eq_add_of_le' (show 2 ≤ fuel by omega)
    cases h with
    | @array room =>
      refine readValue_array (fuel + 1) room _ ?_
      rw [readItems, skipBlanks_cons (by decide)]
      rfl
  | .array (v :: vs), h, hfuel => by
    have hlength := length_emit style (depth + 1) (emitItems style depth vs k) v
    rw [emit, List.length_cons, List.length_append] at hfuel
    obtain ⟨fuel, rfl⟩ := Nat.exists_eq_add_of_le' (show 3 ≤ fuel by omega)
    cases h with
    | @array room _ h =>
      rw [List.forall_mem_cons] at h
      have hv : readValue medium fuel room (v.emit style (depth + 1) (emitItems style depth vs k)) =
          (v.reread.printed, some (emitItems style depth vs k)) :=
        readValue_emit hstray hstyle (stopped_emitItems hstyle depth vs k) v h.1 (by omega)
      have hvs : readMoreItems medium fuel room (emitItems style depth vs k) =
          (printedItems (mapItems Number.reread vs), .closed, some k) :=
        readMoreItems_emitItems hstray hstyle vs h.2 (by omega)
      refine readValue_array (fuel + 2) room _ ?_
      rw [readItems_emit (hstyle.newline _)]
      exact readItem_emit hv hvs
  | .object [], h, hfuel => by
    obtain ⟨fuel, rfl⟩ := Nat.exists_eq_add_of_le' (show 2 ≤ fuel by omega)
    cases h with
    | @object room =>
      refine readValue_object (fuel + 1) room _ ?_
      rw [readMembers, skipBlanks_cons (by decide)]
      rfl
  | .object ((name, v) :: ms), h, hfuel => by
    have hlength := length_emit style (depth + 1) (emitMembers style depth ms k) v
    have hname := length_emitString name
      (':' :: (style.afterColon ++ v.emit style (depth + 1) (emitMembers style depth ms k)))
    rw [emit, List.length_cons, List.length_append] at hfuel
    rw [List.length_cons, List.length_append] at hname
    obtain ⟨fuel, rfl⟩ := Nat.exists_eq_add_of_le' (show 3 ≤ fuel by omega)
    cases h with
    | @object room _ h =>
      rw [List.forall_mem_cons] at h
      have hv : readValue medium fuel room
          (v.emit style (depth + 1) (emitMembers style depth ms k)) =
          (v.reread.printed, some (emitMembers style depth ms k)) :=
        readValue_emit hstray hstyle (stopped_emitMembers hstyle depth ms k) v h.1 (by omega)
      have hms : readMoreMembers medium fuel room (emitMembers style depth ms k) =
          (printedMembers (mapMembers Number.reread ms), .closed, some k) :=
        readMoreMembers_emitMembers hstray hstyle ms h.2 (by omega)
      refine readValue_object (fuel + 2) room _ ?_
      rw [readMembers_emit (hstyle.newline _)]
      exact readMember_emit hstray hstyle name hv hms

private theorem readMoreItems_emitItems (hstray : medium.stray = none) (hstyle : style.Blank)
    {fuel room depth : Nat} {k : List Char} :
    ∀ vs : List Json, (∀ v ∈ vs, Nested Number.IsFinite room v) →
      3 * (emitItems style depth vs k).length + 3 ≤ fuel →
      readMoreItems medium fuel room (emitItems style depth vs k) =
        (printedItems (mapItems Number.reread vs), .closed, some k)
  | [], _, hfuel => by
    obtain ⟨fuel, rfl⟩ := Nat.exists_eq_add_of_le' (show 1 ≤ fuel by omega)
    exact readMoreItems_end (hstyle.newline depth) fuel room k
  | v :: vs, h, hfuel => by
    have hlength := length_emit style (depth + 1) (emitItems style depth vs k) v
    rw [emitItems, List.length_cons, List.length_append] at hfuel
    obtain ⟨fuel, rfl⟩ := Nat.exists_eq_add_of_le' (show 2 ≤ fuel by omega)
    rw [List.forall_mem_cons] at h
    have hv : readValue medium fuel room (v.emit style (depth + 1) (emitItems style depth vs k)) =
        (v.reread.printed, some (emitItems style depth vs k)) :=
      readValue_emit hstray hstyle (stopped_emitItems hstyle depth vs k) v h.1 (by omega)
    have hvs : readMoreItems medium fuel room (emitItems style depth vs k) =
        (printedItems (mapItems Number.reread vs), .closed, some k) :=
      readMoreItems_emitItems hstray hstyle vs h.2 (by omega)
    rw [emitItems, readMoreItems_emit (hstyle.newline _)]
    exact readItem_emit hv hvs

private theorem readMoreMembers_emitMembers (hstray : medium.stray = none) (hstyle : style.Blank)
    {fuel room depth : Nat} {k : List Char} :
    ∀ ms : List (String × Json), (∀ m ∈ ms, Nested Number.IsFinite room m.2) →
      3 * (emitMembers style depth ms k).length + 3 ≤ fuel →
      readMoreMembers medium fuel room (emitMembers style depth ms k) =
        (printedMembers (mapMembers Number.reread ms), .closed, some k)
  | [], _, hfuel => by
    obtain ⟨fuel, rfl⟩ := Nat.exists_eq_add_of_le' (show 1 ≤ fuel by omega)
    exact readMoreMembers_end (hstyle.newline depth) fuel room k
  | (name, v) :: ms, h, hfuel => by
    have hlength := length_emit style (depth + 1) (emitMembers style depth ms k) v
    have hname := length_emitString name
      (':' :: (style.afterColon ++ v.emit style (depth + 1) (emitMembers style depth ms k)))
    rw [emitMembers, List.length_cons, List.length_append] at hfuel
    rw [List.length_cons, List.length_append] at hname
    obtain ⟨fuel, rfl⟩ := Nat.exists_eq_add_of_le' (show 2 ≤ fuel by omega)
    rw [List.forall_mem_cons] at h
    have hv : readValue medium fuel room
        (v.emit style (depth + 1) (emitMembers style depth ms k)) =
        (v.reread.printed, some (emitMembers style depth ms k)) :=
      readValue_emit hstray hstyle (stopped_emitMembers hstyle depth ms k) v h.1 (by omega)
    have hms : readMoreMembers medium fuel room (emitMembers style depth ms k) =
        (printedMembers (mapMembers Number.reread ms), .closed, some k) :=
      readMoreMembers_emitMembers hstray hstyle ms h.2 (by omega)
    rw [emitMembers, readMoreMembers_emit (hstyle.newline _)]
    exact readMember_emit hstray hstyle name hv hms

end

/-- A reader of printed text reads the tree of the value with its numbers read again. -/
theorem readText_emit (hstray : medium.stray = none) (hstyle : style.Blank) {v : Json}
    (h : Nested Number.IsFinite maxDepth v) (read : Tree → Read α) :
    readText medium read (v.emit style 0 []) = read v.reread.printed := by
  have htree : Tree.ofText medium (v.emit style 0 []) = (v.reread.printed, some []) :=
    readValue_emit hstray hstyle stopped_nil v h (Nat.le_refl _)
  simp only [readText, htree]
  cases read v.reread.printed <;> rfl

theorem readText_pretty_reread (hstray : medium.stray = none) {v : Json}
    (h : Nested Number.IsFinite maxDepth v) (read : Tree → Read α) :
    readText medium read v.pretty.toList = read v.reread.printed := by
  rw [pretty, String.toList_ofList]
  exact readText_emit hstray blank_pretty h read

/-- A reader of the text of a value whose numbers read back reads the tree of the printed value. -/
theorem readText_pretty (hstray : medium.stray = none) {v : Json} (h : Readable maxDepth v)
    (read : Tree → Read α) : readText medium read v.pretty.toList = read v.printed := by
  have hfinite : Nested Number.IsFinite maxDepth v := h.imp fun _ hn => hn.isFinite
  have hsame : v.reread = v :=
    mapNumbers_eq_self (h.imp fun _ hn => (Number.readsBack_iff hn.isFinite).1 hn)
  rw [readText_pretty_reread hstray hfinite, hsame]

mutual

/-- The tree of printed text has the printed value. -/
theorem toJson_printed : ∀ v : Json, v.printed.toJson = .ok v
  | .null | .bool _ | .number _ | .string _ => by rw [printed, Tree.toJson]
  | .array items => by
    rw [printed, Tree.toJson, itemsToJson_printed items]
    rfl
  | .object members => by
    rw [printed, Tree.toJson, membersToJson_printed members]
    rfl

private theorem itemsToJson_printed : ∀ vs : List Json, Tree.itemsToJson (printedItems vs) = .ok vs
  | [] => rfl
  | v :: vs => by
    rw [printedItems, Tree.itemsToJson, toJson_printed v, itemsToJson_printed vs]
    rfl

private theorem membersToJson_printed :
    ∀ ms : List (String × Json), Tree.membersToJson (printedMembers ms) = .ok ms
  | [] => rfl
  | (name, v) :: ms => by
    rw [printedMembers, Tree.membersToJson, toJson_printed v, membersToJson_printed ms]
    rfl

end

end Retrace.Json

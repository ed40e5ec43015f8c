import Mathlib.Data.List.Forall2
import Retrace.Proofs.Json.NumberText
import Retrace.Proofs.Json.StringText

/-! Unique readability of compact JSON text: two values with the same text agree in everything but,
perhaps, numbers that are spelled alike. -/
namespace Retrace.Json

/-- Values that agree up to the spelling of numbers. -/
inductive Alike : Json → Json → Prop
  | null : Alike .null .null
  | bool (b : Bool) : Alike (.bool b) (.bool b)
  | number {m n : Number} (h : m.text = n.text) : Alike (.number m) (.number n)
  | string (s : String) : Alike (.string s) (.string s)
  | array {vs ws : List Json} (h : List.Forall₂ Alike vs ws) : Alike (.array vs) (.array ws)
  | object {ms ns : List (String × Json)} (names : ms.map Prod.fst = ns.map Prod.fst)
      (h : List.Forall₂ Alike (ms.map Prod.snd) (ns.map Prod.snd)) :
      Alike (.object ms) (.object ns)

def text (v : Json) : List Char := v.emit .compact 0 []

/-- The items of an array after its first, and its end. -/
def itemsText : List Json → List Char
  | [] => [']']
  | v :: vs => ',' :: (v.text ++ itemsText vs)

def membersText : List (String × Json) → List Char
  | [] => ['\x7d']
  | (name, v) :: ms => ',' :: emitString name (':' :: (v.text ++ membersText ms))

private theorem newline_compact (depth : Nat) : Style.compact.newline depth = [] := rfl

private theorem afterColon_compact : Style.compact.afterColon = [] := rfl

mutual

private theorem emit_eq (depth : Nat) (k : List Char) :
    ∀ v : Json, v.emit .compact depth k = v.emit .compact 0 [] ++ k
  | .null | .bool true | .bool false | .number _ | .array [] | .object [] => by simp [emit]
  | .string s => by simp [emit, ← emitString_append]
  | .array (v :: vs) => by
    simp only [emit, newline_compact, Nat.zero_add, List.nil_append, List.cons_append]
    rw [emit_eq (depth + 1) _ v, emit_eq 1 _ v, emitItems_eq depth k vs, emitItems_eq 0 [] vs]
    simp
  | .object ((name, v) :: ms) => by
    simp only [emit, newline_compact, afterColon_compact, Nat.zero_add, List.nil_append,
      List.cons_append, ← emitString_append]
    rw [emit_eq (depth + 1) _ v, emit_eq 1 _ v, emitMembers_eq depth k ms,
      emitMembers_eq 0 [] ms]
    simp

private theorem emitItems_eq (depth : Nat) (k : List Char) :
    ∀ vs : List Json, emitItems .compact depth vs k = itemsText vs ++ k
  | [] => rfl
  | v :: vs => by
    simp only [emitItems, newline_compact, List.nil_append, itemsText, List.cons_append]
    rw [emit_eq (depth + 1) _ v, emitItems_eq depth k vs, text, List.append_assoc]

private theorem emitMembers_eq (depth : Nat) (k : List Char) :
    ∀ ms : List (String × Json), emitMembers .compact depth ms k = membersText ms ++ k
  | [] => rfl
  | (name, v) :: ms => by
    simp only [emitMembers, newline_compact, afterColon_compact, List.nil_append, membersText,
      List.cons_append]
    rw [emit_eq (depth + 1) _ v, emitMembers_eq depth k ms, text, ← emitString_append]
    simp only [List.cons_append, List.append_assoc]

end

/-- Compact text is written in front of its continuation, whatever the depth. -/
theorem emit_compact (v : Json) (depth : Nat) (k : List Char) :
    v.emit .compact depth k = v.text ++ k :=
  emit_eq depth k v

private theorem text_null : text .null = ['n', 'u', 'l', 'l'] := rfl

private theorem text_true : text (.bool true) = ['t', 'r', 'u', 'e'] := rfl

private theorem text_false : text (.bool false) = ['f', 'a', 'l', 's', 'e'] := rfl

private theorem text_number (n : Number) : text (.number n) = n.text := by simp [text, emit]

private theorem text_string (s : String) :
    text (.string s) = emitString s [] := by simp [text, emit]

theorem text_array_nil : text (.array []) = ['[', ']'] := rfl

theorem text_array_cons (v : Json) (vs : List Json) :
    text (.array (v :: vs)) = '[' :: (v.text ++ itemsText vs) := by
  rw [text, emit, emitItems_eq, emit_compact, List.append_nil]
  rfl

theorem text_object_nil : text (.object []) = ['\x7b', '\x7d'] := rfl

theorem text_object_cons (name : String) (v : Json) (ms : List (String × Json)) :
    text (.object ((name, v) :: ms)) =
      '\x7b' :: emitString name (':' :: (v.text ++ membersText ms)) := by
  rw [text, emit, emitMembers_eq, emit_compact, List.append_nil]
  rfl

theorem compact_eq_iff (v w : Json) : v.compact = w.compact ↔ v.text = w.text := by
  simp [compact, text, String.ofList_inj]

/-! ### Reading back -/

private theorem text_array_cons_append (v : Json) (vs : List Json) (k : List Char) :
    text (.array (v :: vs)) ++ k = '[' :: (v.text ++ (itemsText vs ++ k)) := by
  rw [text_array_cons, List.cons_append, List.append_assoc]

private theorem text_object_cons_append (name : String) (v : Json) (ms : List (String × Json))
    (k : List Char) :
    text (.object ((name, v) :: ms)) ++ k =
      '\x7b' :: emitString name (':' :: (v.text ++ (membersText ms ++ k))) := by
  rw [text_object_cons, List.cons_append, ← emitString_append, List.cons_append,
    List.append_assoc]

private theorem itemsText_cons_append (v : Json) (vs : List Json) (k : List Char) :
    itemsText (v :: vs) ++ k = ',' :: (v.text ++ (itemsText vs ++ k)) := by
  rw [itemsText, List.cons_append, List.append_assoc]

private theorem membersText_cons_append (name : String) (v : Json) (ms : List (String × Json))
    (k : List Char) :
    membersText ((name, v) :: ms) ++ k =
      ',' :: emitString name (':' :: (v.text ++ (membersText ms ++ k))) := by
  rw [membersText, List.cons_append, ← emitString_append, List.cons_append, List.append_assoc]

/-- What the first character of a text tells: a number, or which other kind of value. -/
private def lead (c : Char) : Option Char := if isNumeral c then none else some c

private def leadOf : Json → Option Char
  | .null => some 'n'
  | .bool true => some 't'
  | .bool false => some 'f'
  | .number _ => none
  | .string _ => some '"'
  | .array _ => some '['
  | .object _ => some '\x7b'

private theorem text_lead (v : Json) : ∃ c rest, v.text = c :: rest ∧ lead c = leadOf v := by
  cases v with
  | null => exact ⟨'n', _, text_null, by decide⟩
  | bool b =>
    cases b with
    | true => exact ⟨'t', _, text_true, by decide⟩
    | false => exact ⟨'f', _, text_false, by decide⟩
  | number n =>
    obtain ⟨c, rest, h⟩ := List.exists_cons_of_ne_nil n.text_ne_nil
    have hc : isNumeral c = true := Number.isNumeral_of_mem_text (n := n) (by simp [h])
    exact ⟨c, rest, by rw [text_number, h], by simp [lead, leadOf, hc]⟩
  | string s =>
    exact ⟨'"', s.toList.flatMap escapeChar ++ ['"'], by simp [text_string, emitString],
      by simp only [leadOf]; decide⟩
  | array vs =>
    have hlead : lead '[' = leadOf (.array vs) := by simp only [leadOf]; decide
    cases vs with
    | nil => exact ⟨'[', _, text_array_nil, hlead⟩
    | cons v vs => exact ⟨'[', _, text_array_cons v vs, hlead⟩
  | object ms =>
    have hlead : lead '\x7b' = leadOf (.object ms) := by simp only [leadOf]; decide
    rcases ms with _ | ⟨⟨name, v⟩, ms⟩
    · exact ⟨'\x7b', _, text_object_nil, hlead⟩
    · exact ⟨'\x7b', _, text_object_cons name v ms, hlead⟩

private theorem leadOf_eq {v w : Json} {k l : List Char} (h : v.text ++ k = w.text ++ l) :
    leadOf v = leadOf w := by
  obtain ⟨c, rest, hv, hc⟩ := text_lead v
  obtain ⟨d, rest', hw, hd⟩ := text_lead w
  rw [hv, hw, List.cons_append, List.cons_append] at h
  rw [← hc, ← hd, (List.cons.inj h).1]

private theorem text_ne_bracket (v : Json) {k l : List Char} : v.text ++ k ≠ ']' :: l := by
  intro h
  obtain ⟨c, rest, hv, hc⟩ := text_lead v
  rw [hv, List.cons_append] at h
  rw [(List.cons.inj h).1, show lead ']' = some ']' by decide] at hc
  cases v with
  | bool b => cases b <;> exact absurd hc (by simp [leadOf])
  | _ => exact absurd hc (by simp [leadOf])

private theorem ends_itemsText (vs : List Json) (k : List Char) :
    Number.Ends (itemsText vs ++ k) := by
  cases vs <;> simp [itemsText, Number.Ends, isNumeral]

private theorem ends_membersText (ms : List (String × Json)) (k : List Char) :
    Number.Ends (membersText ms ++ k) := by
  cases ms <;> simp [membersText, Number.Ends, isNumeral]

mutual

/-- Texts that agree in front of what cannot go on with a number are texts of like values. -/
theorem text_append_inj : ∀ (v w : Json) {k l : List Char}, Number.Ends k → Number.Ends l →
    v.text ++ k = w.text ++ l → Alike v w ∧ k = l
  | .null, w, k, l, _, _, h => by
    have hlead := leadOf_eq h
    cases w with
    | null => exact ⟨.null, List.append_cancel_left h⟩
    | bool b => cases b <;> cases hlead
    | _ => cases hlead
  | .bool a, w, k, l, _, _, h => by
    have hlead := leadOf_eq h
    cases w with
    | bool b =>
      have hab : a = b := by
        cases a <;> cases b <;> first | rfl | exact absurd hlead (by decide)
      subst hab
      exact ⟨.bool a, List.append_cancel_left h⟩
    | _ => cases a <;> cases hlead
  | .number m, w, k, l, hk, hl, h => by
    have hlead := leadOf_eq h
    cases w with
    | number n =>
      rw [text_number, text_number] at h
      obtain ⟨htext, rest⟩ := Number.text_append_inj hk hl h
      exact ⟨.number htext, rest⟩
    | bool b => cases b <;> cases hlead
    | _ => cases hlead
  | .string s, w, k, l, _, _, h => by
    have hlead := leadOf_eq h
    cases w with
    | string t =>
      rw [text_string, text_string, ← emitString_append, ← emitString_append] at h
      obtain ⟨rfl, rest⟩ := emitString_inj h
      exact ⟨.string s, rest⟩
    | bool b => cases b <;> cases hlead
    | _ => cases hlead
  | .array vs, w, k, l, _, _, h => by
    have hlead := leadOf_eq h
    cases w with
    | array ws =>
      match vs, ws with
      | [], [] => exact ⟨.array .nil, List.append_cancel_left h⟩
      | [], w :: ws =>
        rw [text_array_nil, text_array_cons_append] at h
        exact absurd (List.cons.inj h).2.symm (text_ne_bracket w)
      | v :: vs, [] =>
        rw [text_array_nil, text_array_cons_append] at h
        exact absurd (List.cons.inj h).2 (text_ne_bracket v)
      | v :: vs, w :: ws =>
        rw [text_array_cons_append, text_array_cons_append] at h
        obtain ⟨hv, h⟩ := text_append_inj v w (ends_itemsText vs k) (ends_itemsText ws l)
          (List.cons.inj h).2
        obtain ⟨hvs, rest⟩ := itemsText_inj vs ws h
        exact ⟨.array (.cons hv hvs), rest⟩
    | bool b => cases b <;> cases hlead
    | _ => cases hlead
  | .object ms, w, k, l, _, _, h => by
    have hlead := leadOf_eq h
    cases w with
    | object ns =>
      match ms, ns with
      | [], [] => exact ⟨.object rfl .nil, List.append_cancel_left h⟩
      | [], (name, w) :: ns =>
        rw [text_object_nil, text_object_cons_append] at h
        exact absurd (List.cons.inj (List.cons.inj h).2).1 (by decide)
      | (name, v) :: ms, [] =>
        rw [text_object_nil, text_object_cons_append] at h
        exact absurd (List.cons.inj (List.cons.inj h).2).1 (by decide)
      | (name, v) :: ms, (name', w) :: ns =>
        rw [text_object_cons_append, text_object_cons_append] at h
        obtain ⟨rfl, hvalue⟩ := emitString_inj (List.cons.inj h).2
        obtain ⟨hv, h⟩ := text_append_inj v w (ends_membersText ms k) (ends_membersText ns l)
          (List.cons.inj hvalue).2
        obtain ⟨hnames, hms, rest⟩ := membersText_inj ms ns h
        exact ⟨.object (congrArg (name :: ·) hnames) (.cons hv hms), rest⟩
    | bool b => cases b <;> cases hlead
    | _ => cases hlead

private theorem itemsText_inj : ∀ (vs ws : List Json) {k l : List Char},
    itemsText vs ++ k = itemsText ws ++ l → List.Forall₂ Alike vs ws ∧ k = l
  | [], [], k, l, h => ⟨.nil, (List.cons.inj h).2⟩
  | [], w :: ws, k, l, h => absurd (List.cons.inj h).1 (by decide)
  | v :: vs, [], k, l, h => absurd (List.cons.inj h).1 (by decide)
  | v :: vs, w :: ws, k, l, h => by
    rw [itemsText_cons_append, itemsText_cons_append] at h
    obtain ⟨hv, h⟩ := text_append_inj v w (ends_itemsText vs k) (ends_itemsText ws l)
      (List.cons.inj h).2
    obtain ⟨hvs, rest⟩ := itemsText_inj vs ws h
    exact ⟨.cons hv hvs, rest⟩

private theorem membersText_inj : ∀ (ms ns : List (String × Json)) {k l : List Char},
    membersText ms ++ k = membersText ns ++ l →
      ms.map Prod.fst = ns.map Prod.fst ∧
        List.Forall₂ Alike (ms.map Prod.snd) (ns.map Prod.snd) ∧ k = l
  | [], [], k, l, h => ⟨rfl, .nil, (List.cons.inj h).2⟩
  | [], (_, w) :: ns, k, l, h => absurd (List.cons.inj h).1 (by decide)
  | (_, v) :: ms, [], k, l, h => absurd (List.cons.inj h).1 (by decide)
  | (name, v) :: ms, (name', w) :: ns, k, l, h => by
    rw [membersText_cons_append, membersText_cons_append] at h
    obtain ⟨rfl, hvalue⟩ := emitString_inj (List.cons.inj h).2
    obtain ⟨hv, h⟩ := text_append_inj v w (ends_membersText ms k) (ends_membersText ns l)
      (List.cons.inj hvalue).2
    obtain ⟨hnames, hms, rest⟩ := membersText_inj ms ns h
    exact ⟨congrArg (name :: ·) hnames, .cons hv hms, rest⟩

end

/-- Compact text is uniquely readable. -/
theorem alike_of_text_eq {v w : Json} (h : v.text = w.text) : Alike v w :=
  (text_append_inj v w (k := []) (l := []) nofun nofun (by rw [h])).1

mutual

theorem Alike.text_eq : ∀ {v w : Json}, Alike v w → v.text = w.text
  | .null, _, .null => rfl
  | .bool b, _, .bool _ => rfl
  | .number m, _, .number h => by rw [text_number, text_number, h]
  | .string s, _, .string _ => rfl
  | .array [], _, .array .nil => rfl
  | .array (v :: vs), _, .array (.cons hv hvs) => by
    rw [text_array_cons, text_array_cons, hv.text_eq, itemsText_eq hvs]
  | .object [], .object [], _ => rfl
  | .object [], .object (_ :: _), .object hnames _ => by cases hnames
  | .object (_ :: _), .object [], .object hnames _ => by cases hnames
  | .object ((name, v) :: ms), .object ((name', w) :: ns), .object hnames (.cons hv hms) => by
    obtain ⟨hname, hnames⟩ := List.cons.inj hnames
    rw [text_object_cons, text_object_cons, show name = name' from hname, hv.text_eq,
      membersText_eq hnames hms]

private theorem itemsText_eq : ∀ {vs ws : List Json}, List.Forall₂ Alike vs ws →
    itemsText vs = itemsText ws
  | [], _, .nil => rfl
  | v :: vs, _, .cons hv hvs => by rw [itemsText, itemsText, hv.text_eq, itemsText_eq hvs]

private theorem membersText_eq : ∀ {ms ns : List (String × Json)},
    ms.map Prod.fst = ns.map Prod.fst →
      List.Forall₂ Alike (ms.map Prod.snd) (ns.map Prod.snd) → membersText ms = membersText ns
  | [], [], _, _ => rfl
  | [], _ :: _, hnames, _ => by cases hnames
  | _ :: _, [], hnames, _ => by cases hnames
  | (name, v) :: ms, (name', w) :: ns, hnames, .cons hv hms => by
    obtain ⟨hname, hnames⟩ := List.cons.inj hnames
    rw [membersText, membersText, show name = name' from hname, hv.text_eq,
      membersText_eq hnames hms]

end

/-! ### Lengths -/

private theorem length_text_le_itemsText {v : Json} {vs : List Json} (h : v ∈ vs) :
    v.text.length ≤ (itemsText vs).length := by
  induction vs with
  | nil => cases h
  | cons w ws ih =>
    rw [itemsText, List.length_cons, List.length_append]
    rcases List.mem_cons.1 h with rfl | h
    · omega
    · have := ih h
      omega

private theorem length_text_le_membersText {name : String} {v : Json}
    {ms : List (String × Json)} (h : (name, v) ∈ ms) :
    v.text.length ≤ (membersText ms).length := by
  induction ms with
  | nil => cases h
  | cons n ns ih =>
    obtain ⟨name', w⟩ := n
    rw [membersText, emitString]
    simp only [List.length_cons, List.length_append]
    rcases List.mem_cons.1 h with h | h
    · cases h
      omega
    · have := ih h
      omega

/-- An item is shorter than its array. -/
theorem length_text_lt_array {v : Json} {vs : List Json} (h : v ∈ vs) :
    v.text.length < (text (.array vs)).length := by
  cases vs with
  | nil => cases h
  | cons w ws =>
    rw [text_array_cons, List.length_cons, List.length_append]
    rcases List.mem_cons.1 h with rfl | h
    · omega
    · have := length_text_le_itemsText h
      omega

/-- A member is shorter than its object. -/
theorem length_text_lt_object {name : String} {v : Json} {ms : List (String × Json)}
    (h : (name, v) ∈ ms) : v.text.length < (text (.object ms)).length := by
  cases ms with
  | nil => cases h
  | cons n ns =>
    obtain ⟨name', w⟩ := n
    rw [text_object_cons, emitString]
    simp only [List.length_cons, List.length_append]
    rcases List.mem_cons.1 h with h | h
    · cases h
      omega
    · have := length_text_le_membersText h
      omega

end Retrace.Json

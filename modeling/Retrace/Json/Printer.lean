import Retrace.Json.Value
import Retrace.Text.Quoted

/-! JSON text of values. Text is written in front of what follows it, so that printing is linear and
a reader can be run on the result with any continuation. -/
namespace Retrace.Json

/-- How one character of a string is written: quotes, backslashes and control characters are escaped,
everything else stands as it is. -/
def escapeChar (c : Char) : List Char :=
  match c with
  | '"' => ['\\', '"']
  | '\\' => ['\\', '\\']
  | '\x08' => ['\\', 'b']
  | '\x0c' => ['\\', 'f']
  | '\n' => ['\\', 'n']
  | '\r' => ['\\', 'r']
  | '\t' => ['\\', 't']
  | c =>
    if c.val < 0x20 then
      ['\\', 'u', '0', '0', Nat.digitChar (c.toNat / 16), Nat.digitChar (c.toNat % 16)]
    else [c]

def emitString (s : String) (k : List Char) : List Char :=
  '"' :: s.toList.flatMap escapeChar ++ '"' :: k

/-- The blanks between tokens: what starts a line at a depth of nesting, and what follows a colon. -/
structure Style where
  newline : Nat → List Char
  afterColon : List Char

def Style.compact : Style := ⟨fun _ => [], []⟩

/-- One item a line, indented by two spaces for each open container. -/
def Style.pretty : Style := ⟨fun depth => '\n' :: List.replicate (2 * depth) ' ', [' ']⟩

mutual

/-- The text of a value in front of `k`. -/
def emit (style : Style) (depth : Nat) : Json → List Char → List Char
  | .null, k => 'n' :: 'u' :: 'l' :: 'l' :: k
  | .bool true, k => 't' :: 'r' :: 'u' :: 'e' :: k
  | .bool false, k => 'f' :: 'a' :: 'l' :: 's' :: 'e' :: k
  | .number n, k => n.text ++ k
  | .string s, k => emitString s k
  | .array [], k => '[' :: ']' :: k
  | .array (v :: vs), k =>
    '[' :: (style.newline (depth + 1) ++
      emit style (depth + 1) v (emitItems style depth vs k))
  | .object [], k => '\x7b' :: '\x7d' :: k
  | .object ((name, v) :: ms), k =>
    '\x7b' :: (style.newline (depth + 1) ++ emitString name (':' :: (style.afterColon ++
      emit style (depth + 1) v (emitMembers style depth ms k))))

/-- The items of an array after its first, and its end. -/
def emitItems (style : Style) (depth : Nat) : List Json → List Char → List Char
  | [], k => style.newline depth ++ ']' :: k
  | v :: vs, k =>
    ',' :: (style.newline (depth + 1) ++
      emit style (depth + 1) v (emitItems style depth vs k))

/-- The members of an object after its first, and its end. -/
def emitMembers (style : Style) (depth : Nat) : List (String × Json) → List Char → List Char
  | [], k => style.newline depth ++ '\x7d' :: k
  | (name, v) :: ms, k =>
    ',' :: (style.newline (depth + 1) ++ emitString name (':' :: (style.afterColon ++
      emit style (depth + 1) v (emitMembers style depth ms k))))

end

def compact (v : Json) : String := String.ofList (v.emit .compact 0 [])

def pretty (v : Json) : String := String.ofList (v.emit .pretty 0 [])

end Retrace.Json

import Retrace.Toml.Lexeme
import Retrace.Toml.Table

/-! Reading TOML files. A text either is one and gives its tables, or is none. -/
namespace Retrace.Toml

def skipBlank : Nat → List Char → List Char
  | 0, cs => cs
  | fuel + 1, cs =>
    match newline? (skipComment (skipSpaces cs)) with
    | some cs => skipBlank fuel cs
    | none => skipComment (skipSpaces cs)

def blank (cs : List Char) : List Char := skipBlank (cs.length + 1) cs

def scalar (cs : List Char) : Option (Item × List Char) :=
  match cs with
  | 't' :: 'r' :: 'u' :: 'e' :: cs => some (.other, cs)
  | 'f' :: 'a' :: 'l' :: 's' :: 'e' :: cs => some (.other, cs)
  | '"' :: _ => (string cs).map fun (_, cs) => (.other, cs)
  | '\x27' :: _ => (string cs).map fun (_, cs) => (.other, cs)
  | cs =>
    match dateTime cs with
    | some cs => some (.other, cs)
    | none =>
      match float cs with
      | some cs => some (.other, cs)
      | none => (integer cs).map fun (n, cs) => (.integer n, cs)

mutual

/-- Reads a value; `depth` more containers may open. -/
def value : Nat → Nat → List Char → Option (Item × List Char)
  | 0, _, _ => none
  | fuel + 1, depth, cs =>
    match cs with
    | '[' :: cs => if depth = 0 then none else
      (arrayItems fuel (depth - 1) cs).map fun cs => (.other, cs)
    | '\x7b' :: cs => if depth = 0 then none else
      match skipSpaces cs with
      | '\x7d' :: cs => some (.other, cs)
      | cs => (inlineEntries fuel (depth - 1) [] cs).map fun cs => (.other, cs)
    | cs => scalar cs

def arrayItems : Nat → Nat → List Char → Option (List Char)
  | 0, _, _ => none
  | fuel + 1, depth, cs =>
    match blank cs with
    | ']' :: cs => some cs
    | cs => do
      let (_, cs) ← value fuel depth cs
      match blank cs with
      | ']' :: cs => return cs
      | ',' :: cs => arrayItems fuel depth cs
      | _ => none

def inlineEntries : Nat → Nat → Entries → List Char → Option (List Char)
  | 0, _, _, _ => none
  | fuel + 1, depth, entries, cs => do
    let ((path, last), cs) ← key cs
    let (item, cs) ← value fuel depth (skipSpaces (← expect '=' cs))
    let entries ← bind false path last item entries
    match skipSpaces cs with
    | '\x7d' :: cs => return cs
    | ',' :: cs => inlineEntries fuel depth entries cs
    | _ => none

end

/-- The tables read so far, and the path of the table that keys are bound in. -/
structure State where
  root : Entries
  header : List String

def State.bind (s : State) (path : List String) (last : String) (item : Item) : Option State := do
  let root ← descend false (fun dotted entries => Toml.bind dotted path last item entries)
    s.header false s.root
  return { s with root }

def expression (s : State) (cs : List Char) : Option (State × List Char) :=
  match cs with
  | '[' :: '[' :: cs => do
    let ((path, last), cs) ← key cs
    let cs ← endLine (← expect ']' (← expect ']' cs))
    return (⟨← openElement path last s.root, path ++ [last]⟩, cs)
  | '[' :: cs => do
    let ((path, last), cs) ← key cs
    let cs ← endLine (← expect ']' cs)
    return (⟨← openTable path last s.root, path ++ [last]⟩, cs)
  | cs => do
    let ((path, last), cs) ← key cs
    let cs := skipSpaces (← expect '=' cs)
    let (item, cs) ← value (2 * cs.length + 2) maxDepth cs
    return (← s.bind path last item, ← endLine cs)

def lines : Nat → State → List Char → Option Entries
  | 0, _, _ => none
  | fuel + 1, s, cs =>
    match blank cs with
    | [] => some s.root
    | cs => do
      let (s, cs) ← expression s cs
      lines fuel s cs

/-- The tables of a text, which may start with a byte order mark. -/
def parse (text : String) : Option Entries :=
  let cs := match text.toList with
    | '\ufeff' :: cs => cs
    | cs => cs
  lines (cs.length + 1) ⟨[], []⟩ cs

end Retrace.Toml

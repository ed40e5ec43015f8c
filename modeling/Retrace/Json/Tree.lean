import Retrace.Json.Lexeme

/-! The tree of a JSON text, faults included. A text is taken apart up to the first fault that stops
it, and each fault stays at its place in the tree, so that a reader of some type meets the first
problem of its own, be it of text or of shape. -/
namespace Retrace.Json

/-- A fault, and what is left of it for a reader that passes over the place. -/
structure Flaw where
  fault : Fault
  skipped : Option Fault

/-- The name of a member: its text, and the number that it begins with together with whether it
ends there. -/
structure Key where
  name : Except Flaw String
  number : Except Fault (Number × Bool)
  /-- Whether it is a string at all. -/
  quoted : Bool

/-- How an array or object ends. -/
inductive Closing
  | closed
  /-- The end is missing; `afterComma` when a comma announced more. -/
  | cut (afterComma : Bool) (fault : Fault)
deriving DecidableEq

/-- A JSON text taken apart. Members with the same name are all kept. -/
inductive Tree
  | null
  | bool (b : Bool)
  | number (n : Number)
  | string (s : String)
  | array (items : List Tree) (closing : Closing)
  | object (members : List (Key × Tree)) (closing : Closing)
  /-- A value that cannot be read, with the character it starts with. -/
  | flawed (start : Option Char) (flaw : Flaw)

namespace Closing

def fault? : Closing → Option Fault
  | closed => none
  | cut _ fault => some fault

/-- The fault found by a reader that wants nothing more: a comma is one too many. -/
def endFault? : Closing → Option Fault
  | closed => none
  | cut afterComma fault => some (if afterComma then .malformed else fault)

end Closing

/-- The number that a name begins with: the name has to start with a digit or a minus. `finished`
looks at what follows the number. -/
def Key.readNumber (finished : List Char → Bool) : List Char → Except Fault (Number × Bool)
  | [] => .error .keyNotNumeric
  | c :: cs =>
    if c.isDigit || c = '-' then
      (Json.readNumber (c :: cs)).map fun (n, rest) => (n, finished rest)
    else .error .keyNotNumeric

/-- A name as it stands in a value that has been read. -/
def Key.ofName (name : String) : Key :=
  ⟨.ok name, Key.readNumber List.isEmpty name.toList, true⟩

/-- A name as it stands in a text, after its quote: no escape is undone for the number. -/
def Key.spelled (name : Except Flaw String) (cs : List Char) : Key :=
  ⟨name, Key.readNumber (fun rest => rest.head? = some '"') cs, true⟩

/-- What stands where a name is due. The value of its member is what was found instead. -/
def Key.unquoted : Key := ⟨.error ⟨.malformed, some .malformed⟩, .error .malformed, false⟩

namespace Tree

mutual

/-- The fault that stops a reader which passes over the value. -/
def skipFault? : Tree → Option Fault
  | .flawed _ flaw => flaw.skipped
  | .array items closing => skipItems? items |>.or closing.fault?
  | .object members closing => skipMembers? members |>.or closing.fault?
  | _ => none

def skipItems? : List Tree → Option Fault
  | [] => none
  | t :: ts => t.skipFault? |>.or (skipItems? ts)

def skipMembers? : List (Key × Tree) → Option Fault
  | [] => none
  | (key, t) :: ms =>
    (match key.name with
      | .error flaw => flaw.skipped
      | .ok _ => none) |>.or (t.skipFault? |>.or (skipMembers? ms))

end

def stopped (fault : Fault) : Tree := .flawed none ⟨fault, some fault⟩

def stop (start : Option Char) (fault : Fault) : Tree × Option (List Char) :=
  (.flawed start ⟨fault, some fault⟩, none)

/-- The outcome of reading a scalar. `skip` passes over it if it cannot be read. -/
def scalar (start : Char) (read : Except Fault (Tree × List Char))
    (skip : Except Fault (List Char)) : Tree × Option (List Char) :=
  match read with
  | .ok (t, rest) => (t, some rest)
  | .error fault =>
    match skip with
    | .ok rest => (.flawed (some start) ⟨fault, none⟩, some rest)
    | .error skipped => (.flawed (some start) ⟨fault, some skipped⟩, none)

def literal (start : Char) (word : String) (t : Tree) (cs : List Char) :
    Tree × Option (List Char) :=
  let read := readWord word.toList cs
  scalar start (read.map fun rest => (t, rest)) read

/-- Arrays and objects that may be open at once. -/
def maxDepth : Nat := 127

/-- A container too deep can only be passed over. -/
def limited (start : Char) (depth : Nat) (t : Tree) : Tree :=
  if depth = 0 then .flawed (some start) ⟨.malformed, t.skipFault?⟩ else t

def readName (medium : Medium) (cs : List Char) : Except Flaw String × Option (List Char) :=
  match readString medium cs with
  | .ok (name, rest) => (.ok name, some rest)
  | .error fault =>
    match skipString medium cs with
    | .ok rest => (.error ⟨fault, none⟩, some rest)
    | .error skipped => (.error ⟨fault, some skipped⟩, none)

mutual

/-- Takes one value apart; `depth` more containers may open. The rest is missing when the text
stopped in the value. -/
def readValue (medium : Medium) : Nat → Nat → List Char → Tree × Option (List Char)
  | 0, _, _ => stop none .malformed
  | fuel + 1, depth, cs =>
    match skipBlanks cs with
    | [] => stop none .ended
    | 'n' :: cs => literal 'n' "ull" .null cs
    | 't' :: cs => literal 't' "rue" (.bool true) cs
    | 'f' :: cs => literal 'f' "alse" (.bool false) cs
    | '"' :: cs =>
      scalar '"' ((readString medium cs).map fun (s, rest) => (.string s, rest))
        (skipString medium cs)
    | '[' :: cs =>
      let (items, closing, rest) := readItems medium fuel (depth - 1) cs
      (limited '[' depth (.array items closing), rest)
    | '\x7b' :: cs =>
      let (members, closing, rest) := readMembers medium fuel (depth - 1) cs
      (limited '\x7b' depth (.object members closing), rest)
    | c :: cs =>
      if c.isDigit || c = '-' then
        scalar c ((readNumber (c :: cs)).map fun (n, rest) => (.number n, rest))
          (skipNumber (c :: cs))
      else stop (some c) .malformed

def readItems (medium : Medium) :
    Nat → Nat → List Char → List Tree × Closing × Option (List Char)
  | 0, _, _ => ([], .cut false .malformed, none)
  | fuel + 1, depth, cs =>
    match skipBlanks cs with
    | [] => ([], .cut false .ended, none)
    | ']' :: rest => ([], .closed, some rest)
    | cs => readItem medium fuel depth cs

def readItem (medium : Medium) :
    Nat → Nat → List Char → List Tree × Closing × Option (List Char)
  | 0, _, _ => ([], .cut false .malformed, none)
  | fuel + 1, depth, cs =>
    match readValue medium fuel depth cs with
    | (t, none) => ([t], .cut false .malformed, none)
    | (t, some rest) =>
      let (ts, closing, rest) := readMoreItems medium fuel depth rest
      (t :: ts, closing, rest)

def readMoreItems (medium : Medium) :
    Nat → Nat → List Char → List Tree × Closing × Option (List Char)
  | 0, _, _ => ([], .cut false .malformed, none)
  | fuel + 1, depth, cs =>
    match skipBlanks cs with
    | [] => ([], .cut false .ended, none)
    | ']' :: rest => ([], .closed, some rest)
    | ',' :: rest =>
      match skipBlanks rest with
      | [] => ([], .cut true .ended, none)
      | ']' :: _ => ([], .cut true .malformed, none)
      | cs => readItem medium fuel depth cs
    | _ => ([], .cut false .malformed, none)

def readMembers (medium : Medium) :
    Nat → Nat → List Char → List (Key × Tree) × Closing × Option (List Char)
  | 0, _, _ => ([], .cut false .malformed, none)
  | fuel + 1, depth, cs =>
    match skipBlanks cs with
    | [] => ([], .cut false .ended, none)
    | '\x7d' :: rest => ([], .closed, some rest)
    | '"' :: cs => readMember medium fuel depth cs
    | cs => ([(.unquoted, (readValue medium fuel depth cs).1)], .cut false .malformed, none)

def readMember (medium : Medium) :
    Nat → Nat → List Char → List (Key × Tree) × Closing × Option (List Char)
  | 0, _, _ => ([], .cut false .malformed, none)
  | fuel + 1, depth, cs =>
    match readName medium cs with
    | (name, none) => ([(.spelled name cs, stopped .malformed)], .cut false .malformed, none)
    | (name, some rest) =>
      match skipBlanks rest with
      | [] => ([(.spelled name cs, stopped .ended)], .cut false .malformed, none)
      | ':' :: rest =>
        match readValue medium fuel depth rest with
        | (t, none) => ([(.spelled name cs, t)], .cut false .malformed, none)
        | (t, some rest) =>
          let (ms, closing, rest) := readMoreMembers medium fuel depth rest
          ((.spelled name cs, t) :: ms, closing, rest)
      | _ => ([(.spelled name cs, stopped .malformed)], .cut false .malformed, none)

def readMoreMembers (medium : Medium) :
    Nat → Nat → List Char → List (Key × Tree) × Closing × Option (List Char)
  | 0, _, _ => ([], .cut false .malformed, none)
  | fuel + 1, depth, cs =>
    match skipBlanks cs with
    | [] => ([], .cut false .ended, none)
    | '\x7d' :: rest => ([], .closed, some rest)
    | ',' :: rest =>
      match skipBlanks rest with
      | [] => ([], .cut true .ended, none)
      | '"' :: cs => readMember medium fuel depth cs
      | _ => ([], .cut true .malformed, none)
    | _ => ([], .cut false .malformed, none)

end

/-- Takes the value at the start of a text apart. Every step of the reader either takes a character
or is one of three in a row that do not. -/
def ofText (medium : Medium) (cs : List Char) : Tree × Option (List Char) :=
  readValue medium (3 * cs.length + 3) maxDepth cs

mutual

/-- The value of a tree without flaws, else the first fault in the order of the text. -/
def toJson : Tree → Except Fault Json
  | .null => .ok .null
  | .bool b => .ok (.bool b)
  | .number n => .ok (.number n)
  | .string s => .ok (.string s)
  | .array items closing => do
    let items ← itemsToJson items
    match closing.fault? with
    | some fault => throw fault
    | none => return .array items
  | .object members closing => do
    let members ← membersToJson members
    match closing.fault? with
    | some fault => throw fault
    | none => return .object members
  | .flawed _ flaw => .error flaw.fault

def itemsToJson : List Tree → Except Fault (List Json)
  | [] => .ok []
  | t :: ts => do return (← t.toJson) :: (← itemsToJson ts)

def membersToJson : List (Key × Tree) → Except Fault (List (String × Json))
  | [] => .ok []
  | (key, t) :: ms => do
    let name ← key.name.mapError Flaw.fault
    return (name, ← t.toJson) :: (← membersToJson ms)

end

end Tree

mutual

def tree : Json → Tree
  | .null => .null
  | .bool b => .bool b
  | .number n => .number n
  | .string s => .string s
  | .array items => .array (itemTrees items) .closed
  | .object members => .object (memberTrees members) .closed

def itemTrees : List Json → List Tree
  | [] => []
  | v :: vs => v.tree :: itemTrees vs

def memberTrees : List (String × Json) → List (Key × Tree)
  | [] => []
  | (name, v) :: ms => (.ofName name, v.tree) :: memberTrees ms

end

end Retrace.Json

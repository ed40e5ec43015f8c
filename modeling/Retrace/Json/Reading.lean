import Retrace.Assoc
import Retrace.Json.Tree

/-! Reading values of given types, from JSON values and from the trees of texts. A reader takes parts
in the order of the text, and the first problem wins. -/
namespace Retrace.Json

abbrev Read (α : Type) := Except ReadError α

def fail (m : Mismatch) : Read α := .error (.shape m)

def Read.ofText (r : Except Fault α) : Read α := r.mapError .text

mutual

/-- The value with every name of an object bound once: a repeated name keeps its first place and
takes its last value. -/
def settle : Json → Json
  | .array items => .array (settleItems items)
  | .object members => .object (upsertAll (settleMembers members) [])
  | v => v

def settleItems : List Json → List Json
  | [] => []
  | v :: vs => v.settle :: settleItems vs

def settleMembers : List (String × Json) → List (String × Json)
  | [] => []
  | (name, v) :: ms => (name, v.settle) :: settleMembers ms

end

def readText (medium : Medium) (read : Tree → Read α) (cs : List Char) : Read α := do
  let (t, rest) := Tree.ofText medium cs
  let a ← read t
  match rest.map skipBlanks with
  | some [] => return a
  | _ => throw (.text .malformed)

def parse (text : String) : Read Json :=
  (readText .memory (fun t => Read.ofText t.toJson) text.toList).map settle

/-! ### What stands there -/

def found : Json → Found
  | .null => .null
  | .bool b => .bool b
  | .number n => .number n
  | .string s => .string s
  | .array _ => .sequence
  | .object _ => .map

def Tree.found : Tree → Read Found
  | .null => return .null
  | .bool b => return .bool b
  | .number n => return .number n
  | .string s => return .string s
  | .array _ _ => return .sequence
  | .object _ _ => return .map
  | .flawed _ flaw => throw (.text flaw.fault)

namespace Found

def toNat (expected : String) (limit : Nat) : Found → Read Nat
  | .number (.unsigned n) =>
    if n.toNat < limit then return n.toNat else fail (.value (.number (.unsigned n)) expected)
  | .number (.negative n) => fail (.value (.number (.negative n)) expected)
  | found => fail (.type found expected)

def toUInt64 (found : Found) : Read UInt64 := do return (← found.toNat "u64" UInt64.size).toUInt64

def toUInt32 (found : Found) : Read UInt32 := do return (← found.toNat "u32" UInt32.size).toUInt32

def toSize (found : Found) : Read UInt64 := do return (← found.toNat "usize" UInt64.size).toUInt64

def toText : Found → Read String
  | .string s => return s
  | found => fail (.type found "a string")

def toBool : Found → Read Bool
  | .bool b => return b
  | found => fail (.type found "a boolean")

end Found

/-! ### Values -/

def toUInt64 (v : Json) : Read UInt64 := v.found.toUInt64

def toUInt32 (v : Json) : Read UInt32 := v.found.toUInt32

def toText (v : Json) : Read String := v.found.toText

def optional (read : Json → Read α) : Json → Read (Option α)
  | .null => return none
  | v => some <$> read v

def toList (read : Json → Read α) : Json → Read (List α)
  | .array items => items.mapM read
  | v => fail (.type v.found "a sequence")

/-! ### Trees -/

namespace Tree

def toUInt64 (t : Tree) : Read UInt64 := do (← t.found).toUInt64

def toUInt32 (t : Tree) : Read UInt32 := do (← t.found).toUInt32

def toSize (t : Tree) : Read UInt64 := do (← t.found).toSize

def toText (t : Tree) : Read String := do (← t.found).toText

def toBool (t : Tree) : Read Bool := do (← t.found).toBool

def optional (read : Tree → Read α) : Tree → Read (Option α)
  | .null => return none
  | t => some <$> read t

def refuse : Option Fault → Read Unit
  | none => return
  | some fault => throw (.text fault)

def toList (read : Tree → Read α) : Tree → Read (List α)
  | .array items closing => do
    let as ← items.mapM read
    refuse closing.fault?
    return as
  | t => do fail (.type (← t.found) "a sequence")

def keyName (key : Key) : Read String := Read.ofText (key.name.mapError Flaw.fault)

def toMembers (read : Key → Tree → Read α) : Tree → Read (List α)
  | .object members closing => do
    let as ← members.mapM fun (key, t) => read key t
    refuse closing.fault?
    return as
  | t => do fail (.type (← t.found) "a map")

end Tree

end Retrace.Json

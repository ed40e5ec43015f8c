import Retrace.Numeral.Decimal

/-! JSON values. Members of an object keep their order, and a number keeps which of three ways it
was written in: `1` and `1.0` are different values. -/
namespace Retrace

/-- A number of 64 bits: `negative n` is `-(n + 1)`. -/
inductive Number
  | unsigned (n : UInt64)
  | negative (n : Fin (UInt64.size / 2))
  | double (d : Double)
deriving DecidableEq

namespace Number

/-- Equality within one way of writing; the two zeros among the doubles are one. -/
def same : Number → Number → Bool
  | .unsigned a, .unsigned b => a = b
  | .negative a, .negative b => a = b
  | .double a, .double b => a.same b
  | _, _ => false

theorem same_refl (a : Number) : a.same a = true := by
  cases a <;> simp [same, Double.same_refl]

/-- Doubles stand plainly from `0.00001` up to sixteen digits before the point. -/
def layout : Layout := ⟨-5, 15, 'e', ['+']⟩

def text : Number → List Char
  | .unsigned n => digits n.toNat
  | .negative n => '-' :: digits (n + 1)
  | .double d => layout.text d

end Number

/-- A JSON value. -/
inductive Json
  | null
  | bool (b : Bool)
  | number (n : Number)
  | string (s : String)
  | array (items : List Json)
  | object (members : List (String × Json))

namespace Json

def kind : Json → String
  | .null => "null"
  | .bool _ => "boolean"
  | .number _ => "number"
  | .string _ => "string"
  | .array _ => "array"
  | .object _ => "object"

def member? (name : String) : Json → Option Json
  | .object members => members.lookup name
  | _ => none

def string? : Json → Option String
  | .string s => some s
  | _ => none

def array? : Json → Option (List Json)
  | .array items => some items
  | _ => none

def ofUInt64 (n : UInt64) : Json := .number (.unsigned n)

def ofNat (n : Nat) : Json := ofUInt64 n.toUInt64

def ofOption (f : α → Json) : Option α → Json
  | none => .null
  | some a => f a

end Json
end Retrace

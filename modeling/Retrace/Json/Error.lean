import Retrace.Json.Value
import Retrace.Text.Quoted

/-! What can be wrong with JSON: text that is no JSON, and JSON of the wrong shape. -/
namespace Retrace.Json

/-- What is wrong with a text. -/
inductive Fault
  | ended
  | invalidNumber
  | numberOutOfRange
  | keyNotNumeric
  | malformed
deriving DecidableEq

/-- The wording of a fault; `malformed` covers all that is never worded. -/
def Fault.message : Fault → String
  | .ended => "EOF while parsing a value"
  | .invalidNumber => "invalid number"
  | .numberOutOfRange => "number out of range"
  | .keyNotNumeric => "invalid value: expected key to be a number in quotes"
  | .malformed => "malformed text"

/-- What a reader met, as far as a message tells it. -/
inductive Found
  | null
  | bool (b : Bool)
  | number (n : Number)
  | string (s : String)
  | sequence
  | map
deriving DecidableEq

namespace Found

def describe : Found → String
  | .null => "null"
  | .bool b => "boolean `" ++ toString b ++ "`"
  | .number (.double d) => "floating point `" ++ String.ofList (Number.double d).text ++ "`"
  | .number n => "integer `" ++ String.ofList n.text ++ "`"
  | .string s => "string " ++ Text.quoted s
  | .sequence => "sequence"
  | .map => "map"

end Found

/-- JSON of the wrong shape. -/
inductive Mismatch
  /-- Another kind of value. -/
  | type (found : Found) (expected : String)
  /-- The right kind, but not this value. -/
  | value (found : Found) (expected : String)
  | missing (field : String)
  | duplicate (field : String)
  | variant (name : String) (options : List String)
  | length (n : Nat) (expected : String)
  /-- None of the shapes that a type's values come in. -/
  | noShape (wanted : String)
  /-- Refused for a reason of the domain. -/
  | refused (reason : String)
deriving DecidableEq

namespace Mismatch

def ticked (s : String) : String := "`" ++ s ++ "`"

def choice : List String → String
  | [] => "there are no variants"
  | [a] => "expected " ++ ticked a
  | [a, b] => "expected " ++ ticked a ++ " or " ++ ticked b
  | options => "expected one of " ++ ", ".intercalate (options.map ticked)

def message : Mismatch → String
  | .type found expected => "invalid type: " ++ found.describe ++ ", expected " ++ expected
  | .value found expected => "invalid value: " ++ found.describe ++ ", expected " ++ expected
  | .missing field => "missing field " ++ ticked field
  | .duplicate field => "duplicate field " ++ ticked field
  | .variant name options => "unknown variant " ++ ticked name ++ ", " ++ choice options
  | .length n expected => "invalid length " ++ toString n ++ ", expected " ++ expected
  | .noShape wanted => "data did not match any variant of untagged enum " ++ wanted
  | .refused reason => reason

end Mismatch

/-- Why a text or a value cannot be read as what is wanted. -/
inductive ReadError
  | text (fault : Fault)
  | shape (mismatch : Mismatch)
deriving DecidableEq

def ReadError.message : ReadError → String
  | .text fault => fault.message
  | .shape mismatch => mismatch.message

end Retrace.Json

import Retrace.Json.Record

/-! The kinds of interpreter events that produce a step. -/
namespace Retrace

open Json (Read)

/-- What the interpreter did at a step. -/
inductive Event
  | step
  | call
  | leave
  | raise
deriving DecidableEq

namespace Event

def name : Event → String
  | .step => "step"
  | .call => "call"
  | .leave => "return"
  | .raise => "exception"

/-- The names that are read; a plain step has two. -/
def names : List (String × Event) :=
  [("step", .step), ("step_line", .step), ("call", .call), ("return", .leave),
    ("exception", .raise)]

/-- An event is a name, or an object whose only member has the name and the value `null`. -/
def ofJson : Json → Read Event
  | .string name => Json.variant names name
  | .object [(name, v)] => do
    let event ← Json.variant names name
    match v with
    | .null => return event
    | v => Json.fail (.type v.found "unit")
  | .object _ => Json.fail (.value .map "map with a single key")
  | v => Json.fail (.type v.found "string or map")

/-- An event in a text, where anything but a string or an object is malformed. -/
def ofTree : Json.Tree → Read Event
  | .string name => Json.variant names name
  | .object [] closing => throw (.text (closing.fault?.getD .malformed))
  | .object ((key, t) :: more) closing => do
    if !key.quoted then Json.fail (.type (← t.found) "variant identifier")
    let event ← Json.variant names (← Json.Tree.keyName key)
    match ← t.found with
    | .null => pure ()
    | found => Json.fail (.type found "unit")
    if more.isEmpty then Json.Tree.refuse closing.endFault? else throw (.text .malformed)
    return event
  | .flawed start flaw =>
    throw (.text (if start = none ∨ start = some '"' then flaw.fault else .malformed))
  | _ => throw (.text .malformed)

end Event
end Retrace

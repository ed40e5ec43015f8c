import Retrace.Json.Printer
import Retrace.Json.Reading

/-! Values as a recording holds them. JSON arrays are lists and objects are mappings; three shapes of
objects stand for what JSON cannot say directly: callables, instances of classes, and references
into a heap that came with the recording. -/
namespace Retrace

abbrev HeapId := UInt64

/-- A recorded value. -/
inductive Datum
  | null
  | bool (b : Bool)
  | number (n : Number)
  | string (s : String)
  | ref (id : HeapId)
  | list (items : List Datum)
  | mapping (entries : List (String × Datum))
  | function (name source : String)
  | object (className : String) (fields : List (String × Datum))

/-- What is wrong with an object that is marked as something else than a mapping. -/
inductive DatumError
  | functionName
  | functionSource (found : Json)
  | objectBody
  | objectClass
  | objectFields (found : Json)
  | reference (error : Json.ReadError)

def DatumError.message : DatumError → String
  | .functionName => "$function marker requires a string \"name\""
  | .functionSource found => "$function \"source\" must be a string, found " ++ found.compact
  | .objectBody => "$instance marker must wrap an object"
  | .objectClass => "$instance marker requires a string \"class\""
  | .objectFields found => "$instance \"fields\" must be an object, found " ++ found.compact
  | .reference error => error.message

namespace Datum

/-- Whether a value lives on the heap. -/
def isComposite : Datum → Bool
  | .list _ | .mapping _ | .function _ _ | .object _ _ => true
  | _ => false

/-- A callable is told by the first characters of its source. -/
def digestLength : Nat := 50

def digest (source : String) : String := String.ofList (source.toList.take digestLength)

/-! ### JSON form -/

mutual

/-- The JSON form of a value. An object binds a name once, so a repeated one keeps its first place and
takes its last value. -/
def toJson : Datum → Json
  | .null => .null
  | .bool b => .bool b
  | .number n => .number n
  | .string s => .string s
  | .ref id => .object [("kind", .string "ref"), ("heap_id", .ofUInt64 id)]
  | .list items => .array (itemsToJson items)
  | .mapping entries => .object (upsertAll (entriesToJson entries) [])
  | .function name source =>
    .object [("$function", .object [("name", .string name), ("source", .string source)])]
  | .object className fields =>
    .object [("$instance",
      .object [("class", .string className),
        ("fields", .object (upsertAll (entriesToJson fields) []))])]

def itemsToJson : List Datum → List Json
  | [] => []
  | d :: ds => d.toJson :: itemsToJson ds

def entriesToJson : List (String × Datum) → List (String × Json)
  | [] => []
  | (name, d) :: ds => (name, d.toJson) :: entriesToJson ds

end

/-- The number in an object that has the form of a reference: exactly the two members of one. -/
def referenceId? : List (String × Json) → Option Json
  | [(a, x), (b, y)] =>
    if a = "kind" ∧ b = "heap_id" ∧ x.string? = some "ref" then some y
    else if a = "heap_id" ∧ b = "kind" ∧ y.string? = some "ref" then some x
    else none
  | _ => none

/-- The callable in a marked object. Its source may be missing. -/
def ofFunction (body : Json) : Except DatumError Datum :=
  match (body.member? "name").bind Json.string? with
  | none => .error .functionName
  | some name =>
    match body.member? "source" with
    | none | some .null => .ok (.function name "")
    | some (.string source) => .ok (.function name source)
    | some found => .error (.functionSource found)

mutual

def ofJson : Json → Except DatumError Datum
  | .null => .ok .null
  | .bool b => .ok (.bool b)
  | .number n => .ok (.number n)
  | .string s => .ok (.string s)
  | .array items => return .list (← ofItems items)
  | .object [("$function", body)] => ofFunction body
  | .object [("$instance", .object body)] =>
    match (body.lookup "class").bind Json.string? with
    | none => .error .objectClass
    | some className => return .object className (← ofFields body)
  | .object [("$instance", _)] => .error .objectBody
  | .object members =>
    match referenceId? members with
    | some id => (id.toUInt64.mapError .reference).map .ref
    | none => return .mapping (← ofEntries members)

def ofItems : List Json → Except DatumError (List Datum)
  | [] => .ok []
  | v :: vs => return (← ofJson v) :: (← ofItems vs)

def ofEntries : List (String × Json) → Except DatumError (List (String × Datum))
  | [] => .ok []
  | (name, v) :: ms => return (name, ← ofJson v) :: (← ofEntries ms)

/-- The fields in the body of an instance. They may be missing. -/
def ofFields : List (String × Json) → Except DatumError (List (String × Datum))
  | [] => .ok []
  | ("fields", .null) :: _ => .ok []
  | ("fields", .object fields) :: _ => ofEntries fields
  | ("fields", found) :: _ => .error (.objectFields found)
  | _ :: ms => ofFields ms

end

/-- The text by which composite values are told apart: callables by name and digest, all others by
their JSON form. -/
def key : Datum → String
  | .function name source => "func_" ++ name ++ "_" ++ digest source
  | d => d.toJson.compact

end Datum
end Retrace

import Retrace.Json.Reading

/-! Records and tagged unions in JSON. A record is an object of its fields or an array of them in
order; a tagged union is a record with a member, or a first item, that names the variant. -/
namespace Retrace.Json

/-- A field of a record: its name, whether it has to be there, and an examination of its value. -/
structure Field (β : Type) where
  name : String
  required : Bool
  check : β → Read Unit

namespace Field

def always (name : String) (read : β → Read α) : Field β :=
  ⟨name, true, fun b => discard (read b)⟩

def sometimes (name : String) (read : β → Read α) : Field β :=
  ⟨name, false, fun b => discard (read b)⟩

/-- The first required field, in order of declaration, that is missing. -/
def missing? (fields : List (Field β)) (members : List (String × β)) : Option String :=
  (fields.find? fun f => f.required && (members.lookup f.name).isNone).map Field.name

def get (read : β → Read α) (name : String) (members : List (String × β)) : Read α :=
  match members.lookup name with
  | some b => read b
  | none => fail (.missing name)

def get? (read : β → Read (Option α)) (name : String) (members : List (String × β)) :
    Read (Option α) :=
  match members.lookup name with
  | some b => read b
  | none => return none

end Field

def elements (n : Nat) : String :=
  if n = 1 then "1 element" else toString n ++ " elements"

/-- The known members of an object, each examined, none twice. -/
def knownMembers (fields : List (Field Json)) (seen : List String) :
    List (String × Json) → Read (List (String × Json))
  | [] => return []
  | (name, v) :: rest =>
    match fields.find? (·.name = name) with
    | none => knownMembers fields seen rest
    | some f => do
      if seen.contains name then fail (.duplicate name)
      f.check v
      return (name, v) :: (← knownMembers fields (name :: seen) rest)

/-- The items of an array as fields in order, from the `i`-th on. Trailing fields that are not
required may be left out. -/
def itemFields (title : String) (count : Nat) :
    Nat → List (Field Json) → List Json → Read (List (String × Json))
  | _, [], _ => return []
  | i, f :: fields, [] =>
    if f.required then fail (.length i (title ++ " with " ++ elements count))
    else itemFields title count (i + 1) fields []
  | i, f :: fields, v :: vs => do
    f.check v
    return (f.name, v) :: (← itemFields title count (i + 1) fields vs)

/-- The fields of a record. `excess` words what was expected instead of an array too long. -/
def recordFields (title excess : String) (fields : List (Field Json)) :
    Json → Read (List (String × Json))
  | .array items => do
    let members ← itemFields title fields.length 0 fields items
    if fields.length < items.length then fail (.length items.length excess)
    return members
  | .object members => do
    let members ← knownMembers fields [] members
    match Field.missing? fields members with
    | some name => fail (.missing name)
    | none => return members
  | v => fail (.type v.found title)

namespace Tree

/-- The known members of an object, each examined, none twice; the others are passed over. -/
def knownMembers (fields : List (Field Tree)) (seen : List String) :
    List (Key × Tree) → Read (List (String × Tree))
  | [] => return []
  | (key, t) :: rest => do
    let name ← keyName key
    match fields.find? (·.name = name) with
    | none =>
      refuse t.skipFault?
      knownMembers fields seen rest
    | some f =>
      if seen.contains name then fail (.duplicate name)
      f.check t
      return (name, t) :: (← knownMembers fields (name :: seen) rest)

def itemFields (title : String) (count : Nat) (closing : Closing) :
    Nat → List (Field Tree) → List Tree → Read (List (String × Tree))
  | _, [], [] => do
    refuse closing.endFault?
    return []
  | _, [], _ :: _ => throw (.text .malformed)
  | i, f :: fields, [] => do
    refuse closing.fault?
    if f.required then fail (.length i (title ++ " with " ++ elements count))
    itemFields title count closing (i + 1) fields []
  | i, f :: fields, t :: ts => do
    f.check t
    return (f.name, t) :: (← itemFields title count closing (i + 1) fields ts)

def recordFields (title : String) (fields : List (Field Tree)) :
    Tree → Read (List (String × Tree))
  | .array items closing => itemFields title fields.length closing 0 fields items
  | .object members closing => do
    let members ← knownMembers fields [] members
    refuse closing.fault?
    match Field.missing? fields members with
    | some name => fail (.missing name)
    | none => return members
  | t => do fail (.type (← t.found) title)

end Tree

/-! ### Unions -/

def variant (variants : List (String × α)) (name : String) : Read α :=
  match variants.lookup name with
  | some a => return a
  | none => fail (.variant name (variants.map Prod.fst))

namespace Tree

def tagVariant (variants : List (String × α)) (t : Tree) : Read α := do
  match ← t.found with
  | .string name => variant variants name
  | found => fail (.type found "variant identifier")

/-- The variant and the other members of an object, the tag among them wherever it is. -/
def taggedMembers (tag : String) (variants : List (String × α)) (seen : Option α) :
    List (Key × Tree) → Read (Option α × List (String × Json))
  | [] => return (seen, [])
  | (key, t) :: rest => do
    let name ← keyName key
    if name = tag then
      if seen.isSome then fail (.duplicate tag)
      taggedMembers tag variants (some (← t.tagVariant variants)) rest
    else
      let v ← Read.ofText t.toJson
      let (seen, members) ← taggedMembers tag variants seen rest
      return (seen, (name, v) :: members)

/-- The variant of a tagged union, and the array or object of its fields. -/
def tagged (union tag : String) (variants : List (String × α)) : Tree → Read (α × Json)
  | .array [] closing => do
    refuse closing.fault?
    fail (.missing tag)
  | .array (t :: ts) closing => do
    let a ← t.tagVariant variants
    let items ← Read.ofText (itemsToJson ts)
    refuse closing.fault?
    return (a, .array items)
  | .object members closing => do
    let (seen, members) ← taggedMembers tag variants none members
    refuse closing.fault?
    match seen with
    | some a => return (a, .object members)
    | none => fail (.missing tag)
  | t => do fail (.type (← t.found) ("internally tagged enum " ++ union))

end Tree

def variantFields (title : String) (fields : List (Field Json)) (v : Json) :
    Read (List (String × Json)) :=
  recordFields ("struct variant " ++ title) (elements fields.length ++ " in sequence") fields v

end Retrace.Json

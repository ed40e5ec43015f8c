import Retrace.Assoc

/-! Tables of a TOML file. They keep how they came about, since a table may be given once by a header,
and may be extended by dotted keys only where dotted keys made it. -/
namespace Retrace.Toml

/-- What a key is bound to. Of values other than whole numbers nothing is kept. -/
inductive Item
  | integer (n : Int)
  | other
  /-- `implicit`: made on the way to another table. `dotted`: made by a dotted key. -/
  | table (implicit dotted : Bool) (entries : List (String × Item))
  /-- An array of tables, last first. -/
  | tables (elements : List (List (String × Item)))

abbrev Entries := List (String × Item)

/-- Changes the table under a path, making the tables on the way. `change` gets the table and whether
a dotted key made it. Of an array of tables the last one is meant. -/
def descend (byDots : Bool) (change : Bool → Entries → Option Entries) :
    List String → Bool → Entries → Option Entries
  | [], dotted, entries => change dotted entries
  | key :: path, _, entries =>
    match entries.lookup key with
    | none => do
      let inner ← descend byDots change path byDots []
      return upsert key (.table true byDots inner) entries
    | some (.table implicit dotted inner) => do
      if byDots && !implicit then none
      else
        let inner ← descend byDots change path dotted inner
        return upsert key (.table implicit dotted inner) entries
    | some (.tables (last :: before)) => do
      let last ← descend byDots change path false last
      return upsert key (.tables (last :: before)) entries
    | _ => none

def bindNew (key : String) (item : Item) (entries : Entries) : Option Entries :=
  if (entries.lookup key).isSome then none else some (upsert key item entries)

/-- Binds a dotted key in a table. The table that gets the last part is one made by dotted keys if
and only if there are other parts. -/
def bind (dotted : Bool) (path : List String) (key : String) (item : Item) (entries : Entries) :
    Option Entries :=
  descend true
    (fun dotted entries => if dotted = path.isEmpty then none else bindNew key item entries)
    path dotted entries

def openTable (path : List String) (key : String) (root : Entries) : Option Entries :=
  descend false
    (fun _ entries =>
      match entries.lookup key with
      | none => some (upsert key (.table false false []) entries)
      | some (.table true false inner) => some (upsert key (.table false false inner) entries)
      | _ => none)
    path false root

def openElement (path : List String) (key : String) (root : Entries) : Option Entries :=
  descend false
    (fun _ entries =>
      match entries.lookup key with
      | none => some (upsert key (.tables [[]]) entries)
      | some (.tables elements) => some (upsert key (.tables ([] :: elements)) entries)
      | _ => none)
    path false root

end Retrace.Toml

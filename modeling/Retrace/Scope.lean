import Retrace.Datum

/-! Names bound to values, in the order in which they were first bound. -/
namespace Retrace

/-- The bindings of a module or of a function call. -/
structure Scope where
  entries : List (String × Datum)
  distinct : (entries.map Prod.fst).Nodup

namespace Scope

def empty : Scope := ⟨[], .nil⟩

instance : EmptyCollection Scope := ⟨empty⟩

/-- Binds a name: in place if it is bound already, else after the others. -/
def insert (s : Scope) (name : String) (value : Datum) : Scope :=
  ⟨upsert name value s.entries, nodup_keys_upsert s.distinct⟩

def ofList (pairs : List (String × Datum)) : Scope :=
  pairs.foldl (fun s p => s.insert p.1 p.2) ∅

def get? (s : Scope) (name : String) : Option Datum := s.entries.lookup name

def names (s : Scope) : List String := s.entries.map Prod.fst

def size (s : Scope) : Nat := s.entries.length

theorem get?_insert (s : Scope) (name n : String) (value : Datum) :
    (s.insert name value).get? n = if n == name then some value else s.get? n :=
  lookup_upsert name n value s.entries

def ofJson : Json → Json.Read Scope
  | .object members =>
    match Datum.ofEntries members with
    | .ok entries => return ofList entries
    | .error e => Json.fail (.refused e.message)
  | v => Json.fail (.type v.found "a map")

end Scope
end Retrace

/-! Paths as text: parts between slashes. -/
namespace Retrace.Path

/-- The parts of a path that count: no empty ones, and a dot only at the start. An absolute path starts
with the part `/`. -/
def parts (path : String) : List String :=
  match path.splitOn "/" with
  | [] => []
  | first :: rest =>
    let rest := rest.filter fun part => part ≠ "" ∧ part ≠ "."
    if path = "" then [] else if first = "" then "/" :: rest else first :: rest

/-- Whether two paths have the same parts. They may still lead to the same file if they have not. -/
def same (a b : String) : Bool := parts a = parts b

/-- The pieces up to the one before the last that counts. -/
def upToParent : List String → List String
  | [] => []
  | piece :: outer =>
    if piece = "" ∨ (piece = "." ∧ outer ≠ []) then upToParent outer else trim outer
where
  trim : List String → List String
    | [] => []
    | piece :: outer =>
      if (piece = "" ∨ piece = ".") ∧ outer ≠ [] then trim outer else piece :: outer

/-- The path without its last part; empty if it has no other. -/
def parent (path : String) : String :=
  match upToParent (path.splitOn "/").reverse with
  | [""] => "/"
  | pieces => "/".intercalate pieces.reverse

end Retrace.Path

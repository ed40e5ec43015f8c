import Retrace.Json.Lexeme

/-! The words of TOML: keys, strings, numbers and times. Each reader gives what it read and the rest
of the text. -/
namespace Retrace.Toml

abbrev Reader (α : Type) := List Char → Option (α × List Char)

def isSpace (c : Char) : Bool := c = ' ' || c = '\t'

def skipSpaces (cs : List Char) : List Char := cs.dropWhile isSpace

/-- A character that may stand in a comment, and in a string but for what ends it. -/
def isText (c : Char) : Bool := c = '\t' || (0x20 ≤ c.val && c.val != 0x7f)

/-- The text after a line break, if it starts with one. -/
def newline? : List Char → Option (List Char)
  | '\n' :: cs => some cs
  | '\r' :: '\n' :: cs => some cs
  | _ => none

def skipComment : List Char → List Char
  | '#' :: cs => cs.dropWhile isText
  | cs => cs

/-- Passes over spaces and a comment up to the end of the line or of the text. -/
def endLine (cs : List Char) : Option (List Char) :=
  match skipComment (skipSpaces cs) with
  | [] => some []
  | cs => newline? cs

/-! ### Strings -/

def codePoint (count : Nat) (cs : List Char) : Option (Char × List Char) := do
  let digits ← (cs.take count).mapM Json.hexValue?
  if digits.length < count then none
  else
    let n := digits.foldl (fun n d => n * 16 + d) 0
    if n.isValidChar then some (Char.ofNat n, cs.drop count) else none

def escaped : Reader Char
  | 'b' :: cs => some ('\x08', cs)
  | 't' :: cs => some ('\t', cs)
  | 'n' :: cs => some ('\n', cs)
  | 'f' :: cs => some ('\x0c', cs)
  | 'r' :: cs => some ('\r', cs)
  | '"' :: cs => some ('"', cs)
  | '\\' :: cs => some ('\\', cs)
  | 'u' :: cs => codePoint 4 cs
  | 'U' :: cs => codePoint 8 cs
  | _ => none

def basicFrom : Nat → List Char → Reader String
  | 0, _, _ => none
  | fuel + 1, acc, cs =>
    match cs with
    | '"' :: cs => some (String.ofList acc.reverse, cs)
    | '\\' :: cs => do
      let (c, cs) ← escaped cs
      basicFrom fuel (c :: acc) cs
    | c :: cs => if isText c then basicFrom fuel (c :: acc) cs else none
    | [] => none

def basic (cs : List Char) : Option (String × List Char) := basicFrom (cs.length + 1) [] cs

def literal (cs : List Char) : Option (String × List Char) :=
  match cs.span fun c => isText c && c != '\x27' with
  | (text, '\x27' :: cs) => some (String.ofList text, cs)
  | _ => none

def skipLines : Nat → List Char → List Char
  | 0, cs => cs
  | fuel + 1, cs =>
    match newline? (skipSpaces cs) with
    | some cs => skipLines fuel cs
    | none => skipSpaces cs

/-- The rest of a string over several lines. Up to two quotes may stand before the three that end
it. -/
def longFrom (quote : Char) (escapes : Bool) : Nat → List Char → Reader String
  | 0, _, _ => none
  | fuel + 1, acc, cs =>
    match cs with
    | [] => none
    | c :: rest =>
      if c = quote then
        let run := (cs.takeWhile (· = quote)).length
        if run < 3 then longFrom quote escapes fuel (c :: acc) rest
        else
          let extra := min (run - 3) 2
          some (String.ofList (acc.reverse ++ List.replicate extra quote), cs.drop (3 + extra))
      else if c = '\\' ∧ escapes then
        match newline? (skipSpaces rest) with
        | some rest => longFrom quote escapes fuel acc (skipLines rest.length rest)
        | none => do
          let (c, rest) ← escaped rest
          longFrom quote escapes fuel (c :: acc) rest
      else match newline? cs with
        | some rest => longFrom quote escapes fuel ('\n' :: acc) rest
        | none => if isText c then longFrom quote escapes fuel (c :: acc) rest else none

/-- The rest of a string over several lines; a line break right at its start does not count. -/
def long (quote : Char) (escapes : Bool) (cs : List Char) : Option (String × List Char) :=
  let cs := (newline? cs).getD cs
  longFrom quote escapes (cs.length + 1) [] cs

def string : Reader String
  | '"' :: '"' :: '"' :: cs => long '"' true cs
  | '\x27' :: '\x27' :: '\x27' :: cs => long '\x27' false cs
  | '"' :: cs => basic cs
  | '\x27' :: cs => literal cs
  | _ => none

/-! ### Keys -/

def isBare (c : Char) : Bool := c.isAlphanum || c = '_' || c = '-'

def simpleKey : Reader String
  | '"' :: cs => basic cs
  | '\x27' :: cs => literal cs
  | cs =>
    let name := cs.takeWhile isBare
    if name.isEmpty then none else some (String.ofList name, cs.dropWhile isBare)

def keyFrom : Nat → Reader (List String)
  | 0, _ => none
  | fuel + 1, cs => do
    let (part, cs) ← simpleKey (skipSpaces cs)
    match skipSpaces cs with
    | '.' :: cs =>
      let (parts, cs) ← keyFrom fuel cs
      return (part :: parts, cs)
    | cs => return ([part], cs)

/-- The most that may be nested: arrays and inline tables in each other, or tables by the parts of a
key. -/
def maxDepth : Nat := 79

/-- A key as the path to its last part, and that part. -/
def key (cs : List Char) : Option ((List String × String) × List Char) := do
  let (parts, cs) ← keyFrom (cs.length + 1) cs
  if maxDepth < parts.length then none
  let last ← parts.getLast?
  return ((parts.dropLast, last), cs)

/-! ### Numbers -/

/-- A run of digits in which single underscores may stand between digits. -/
def digitRun (isDigit : Char → Bool) : Nat → Reader (List Char)
  | 0, _ => none
  | fuel + 1, c :: cs =>
    if !isDigit c then none
    else match cs with
      | '_' :: rest => do
        let (ds, rest) ← digitRun isDigit fuel rest
        return (c :: ds, rest)
      | d :: _ =>
        if isDigit d then do
          let (ds, rest) ← digitRun isDigit fuel cs
          return (c :: ds, rest)
        else some ([c], cs)
      | [] => some ([c], [])
  | _, [] => none

def runOf (isDigit : Char → Bool) (cs : List Char) : Option (List Char × List Char) :=
  digitRun isDigit (cs.length + 1) cs

/-- A sign, if there is one: whether it is a minus. -/
def sign : List Char → Bool × List Char
  | '+' :: cs => (false, cs)
  | '-' :: cs => (true, cs)
  | cs => (false, cs)

/-- A decimal number without sign: a lone zero, or digits that do not start with one. -/
def decimal : Reader (List Char)
  | '0' :: cs => some (['0'], cs)
  | cs => runOf Char.isDigit cs

def inRange (n : Int) : Option Int :=
  if Int64.minValue.toInt ≤ n ∧ n ≤ Int64.maxValue.toInt then some n else none

def based (base : Nat) (cs : List Char) : Option (Int × List Char) := do
  let isDigit := fun c => (Json.hexValue? c).any (· < base)
  let (ds, cs) ← runOf isDigit cs
  let n := ds.foldl (fun n c => n * base + (Json.hexValue? c).getD 0) 0
  return (← inRange n, cs)

def integer : Reader Int
  | '0' :: 'x' :: cs => based 16 cs
  | '0' :: 'o' :: cs => based 8 cs
  | '0' :: 'b' :: cs => based 2 cs
  | cs => do
    let (negative, cs) := sign cs
    let (ds, cs) ← decimal cs
    let n : Int := Json.digitsValue ds
    return (← inRange (if negative then -n else n), cs)

def exponent (cs : List Char) : Option (Int × List Char) := do
  let (negative, cs) := sign cs
  let (ds, cs) ← runOf Char.isDigit cs
  let n : Int := Json.digitsValue ds
  return (if negative then -n else n, cs)

/-- Whether `coefficient * 10 ^ power` is too large for a double. -/
def overflows (coefficient : Nat) (power : Int) : Bool :=
  let top : Int := (digits coefficient).length + power
  if coefficient = 0 || top < 309 then false
  else if 309 < top then true
  else (1 <<< 1024 - 1 <<< 970) * Nat.pow 10 (-power).toNat ≤
    coefficient * Nat.pow 10 power.toNat

/-- A number with a fraction or an exponent. Only negative ones may be too large. -/
def float (cs : List Char) : Option (List Char) := do
  let (negative, cs) := sign cs
  match cs with
  | 'i' :: 'n' :: 'f' :: cs => return cs
  | 'n' :: 'a' :: 'n' :: cs => return cs
  | cs =>
    let (whole, cs) ← decimal cs
    let (fraction, cs) ← match cs with
      | '.' :: cs => runOf Char.isDigit cs
      | 'e' :: _ | 'E' :: _ => some ([], cs)
      | _ => none
    let (power, cs) ← match cs with
      | 'e' :: cs => exponent cs
      | 'E' :: cs => exponent cs
      | cs => some (0, cs)
    if !negative && overflows (Json.digitsValue (whole ++ fraction)) (power - fraction.length)
    then none
    else return cs

/-! ### Times -/

/-- A number of exactly `count` digits between two bounds. -/
def field (count low high : Nat) (cs : List Char) : Option (Nat × List Char) :=
  let ds := cs.take count
  let n := Json.digitsValue ds
  if ds.length = count ∧ ds.all Char.isDigit ∧ low ≤ n ∧ n ≤ high then some (n, cs.drop count)
  else none

def expect (c : Char) : List Char → Option (List Char)
  | d :: cs => if c = d then some cs else none
  | [] => none

def daysInMonth (year month : Nat) : Nat :=
  if month = 2 then
    if year % 4 = 0 ∧ (year % 100 ≠ 0 ∨ year % 400 = 0) then 29 else 28
  else if month = 4 ∨ month = 6 ∨ month = 9 ∨ month = 11 then 30 else 31

def date (cs : List Char) : Option (List Char) := do
  let (year, cs) ← field 4 0 9999 cs
  let (month, cs) ← field 2 1 12 (← expect '-' cs)
  let (_, cs) ← field 2 1 (daysInMonth year month) (← expect '-' cs)
  return cs

def time (cs : List Char) : Option (List Char) := do
  let (_, cs) ← field 2 0 23 cs
  let (_, cs) ← field 2 0 59 (← expect ':' cs)
  let (_, cs) ← field 2 0 60 (← expect ':' cs)
  match cs with
  | '.' :: rest =>
    if rest.head?.any Char.isDigit then return rest.dropWhile Char.isDigit else return cs
  | cs => return cs

def offset (cs : List Char) : Option (List Char) :=
  let distance := fun cs => do
    let (_, cs) ← field 2 0 23 cs
    let (_, cs) ← field 2 0 59 (← expect ':' cs)
    return cs
  match cs with
  | 'Z' :: cs => some cs
  | 'z' :: cs => some cs
  | '+' :: cs => distance cs
  | '-' :: cs => distance cs
  | cs => some cs

def dateTime (cs : List Char) : Option (List Char) :=
  match date cs with
  | some rest =>
    match rest with
    | d :: after =>
      if d = 'T' || d = 't' || d = ' ' then
        match time after with
        | some rest => offset rest
        | none => some rest
      else some rest
    | [] => some []
  | none => time cs

end Retrace.Toml

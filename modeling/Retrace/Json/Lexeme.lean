import Retrace.Json.Error

/-! The words of JSON text: blanks, literals, numbers and strings. Each reader takes the text from
where the word starts and gives back what follows it. -/
namespace Retrace.Json

def isBlank (c : Char) : Bool := c = ' ' || c = '\t' || c = '\n' || c = '\r'

def skipBlanks (cs : List Char) : List Char := cs.dropWhile isBlank

def readWord : List Char → List Char → Except Fault (List Char)
  | [], cs => .ok cs
  | _ :: _, [] => .error .ended
  | w :: ws, c :: cs => if c = w then readWord ws cs else .error .malformed

/-! ### Numbers -/

def digitValue (c : Char) : Nat := c.toNat - '0'.toNat

/-- Appends digits to a number for as long as it stays below `2 ^ 64`. Gives the number, how many
digits were taken, and the rest. -/
def takeDigits (value taken : Nat) : List Char → Nat × Nat × List Char
  | [] => (value, taken, [])
  | c :: cs =>
    if c.isDigit ∧ value * 10 + digitValue c < UInt64.size then
      takeDigits (value * 10 + digitValue c) (taken + 1) cs
    else (value, taken, c :: cs)

def digitsValue (cs : List Char) : Nat := cs.foldl (fun n c => n * 10 + digitValue c) 0

def double (negative : Bool) (significand : Nat) (exponent : Int) : Except Fault Number :=
  match Double.scale significand exponent with
  | some units => .ok (.double ⟨negative, units⟩)
  | none => .error .numberOutOfRange

def readExponent (negative : Bool) (significand : Nat) (exponent : Int) (cs : List Char) :
    Except Fault (Number × List Char) :=
  let (down, cs) := match cs with
    | '+' :: cs => (false, cs)
    | '-' :: cs => (true, cs)
    | cs => (false, cs)
  match cs with
  | [] => .error .ended
  | c :: rest =>
    if c.isDigit then do
      let power : Int := digitsValue (c :: rest.takeWhile Char.isDigit)
      let n ← double negative significand (if down then exponent - power else exponent + power)
      return (n, rest.dropWhile Char.isDigit)
    else .error .invalidNumber

def isMark (c : Char) : Bool := c = 'e' || c = 'E'

/-- Reads a fraction after its point. Digits that no longer fit the significand are dropped. -/
def readFraction (negative : Bool) (significand : Nat) (exponent : Int) (cs : List Char) :
    Except Fault (Number × List Char) :=
  let (significand, taken, rest) := takeDigits significand 0 cs
  let exponent := exponent - taken
  let following := rest.dropWhile Char.isDigit
  match following with
  | [] => if cs = [] then .error .ended else do
    return (← double negative significand exponent, [])
  | c :: after =>
    if following = cs then .error .invalidNumber
    else if isMark c then readExponent negative significand exponent after
    else do return (← double negative significand exponent, following)

/-- A whole number of 64 bits, or the double nearest to one that does not fit. Minus zero is a
double. -/
def whole (negative : Bool) (n : Nat) : Except Fault Number :=
  if !negative then .ok (.unsigned n.toUInt64)
  else if h : 0 < n ∧ n ≤ UInt64.size / 2 then .ok (.negative ⟨n - 1, by omega⟩)
  else double true n 0

/-- Reads a number after its sign. Digits beyond 64 bits only move the exponent. -/
def readUnsigned (negative : Bool) : List Char → Except Fault (Number × List Char)
  | [] => .error .ended
  | c :: cs =>
    if !c.isDigit then .error .invalidNumber
    else
      let (significand, _, rest) := takeDigits (digitValue c) 0 (if c = '0' then [] else cs)
      let rest := if c = '0' then cs else rest
      let dropped := rest.takeWhile Char.isDigit
      if c = '0' ∧ dropped ≠ [] then .error .invalidNumber
      else match rest.dropWhile Char.isDigit with
        | '.' :: after => readFraction negative significand dropped.length after
        | following =>
          match following with
          | d :: after =>
            if isMark d then readExponent negative significand dropped.length after
            else if dropped = [] then do return (← whole negative significand, following)
            else do return (← double negative significand dropped.length, following)
          | [] =>
            if dropped = [] then do return (← whole negative significand, [])
            else do return (← double negative significand dropped.length, [])

def readNumber : List Char → Except Fault (Number × List Char)
  | '-' :: cs => readUnsigned true cs
  | cs => readUnsigned false cs

def skipDigits : List Char → Except Fault (List Char)
  | [] => .error .malformed
  | c :: cs => if c.isDigit then .ok (cs.dropWhile Char.isDigit) else .error .malformed

def skipExponent : List Char → Except Fault (List Char)
  | c :: cs =>
    if isMark c then
      match cs with
      | '+' :: cs => skipDigits cs
      | '-' :: cs => skipDigits cs
      | cs => skipDigits cs
    else .ok (c :: cs)
  | [] => .ok []

/-- Passes over a number whatever its size; a number cut short counts as malformed. -/
def skipNumber (cs : List Char) : Except Fault (List Char) := do
  let cs := match cs with
    | '-' :: cs => cs
    | cs => cs
  let rest ← skipDigits cs
  if cs.head? = some '0' ∧ (cs.drop 1).head?.any Char.isDigit then throw .malformed
  match rest with
  | '.' :: cs => skipDigits cs >>= skipExponent
  | rest => skipExponent rest

/-! ### Strings -/

def hexValue? (c : Char) : Option Nat :=
  if c.isDigit then some (c.toNat - '0'.toNat)
  else if 'a' ≤ c ∧ c ≤ 'f' then some (c.toNat - 'a'.toNat + 10)
  else if 'A' ≤ c ∧ c ≤ 'F' then some (c.toNat - 'A'.toNat + 10)
  else none

def unescape? : Char → Option Char
  | '"' => some '"'
  | '\\' => some '\\'
  | '/' => some '/'
  | 'b' => some '\x08'
  | 'f' => some '\x0c'
  | 'n' => some '\n'
  | 'r' => some '\r'
  | 't' => some '\t'
  | _ => none

def isHighSurrogate (n : Nat) : Bool := 0xd800 ≤ n && n ≤ 0xdbff

def isLowSurrogate (n : Nat) : Bool := 0xdc00 ≤ n && n ≤ 0xdfff

def joinSurrogates (high low : Nat) : Char :=
  Char.ofNat (0x10000 + (high - 0xd800) * 0x400 + (low - 0xdc00))

/-- How a text is at hand. -/
structure Medium where
  /-- As a whole: an escape that its end cuts off is found before its digits are looked at. -/
  whole : Bool
  /-- What stands in the text for bytes that are no characters. -/
  stray : Option Char

namespace Medium

def memory : Medium := ⟨true, none⟩

def stream : Medium := ⟨false, none⟩

end Medium

/-- How strings are read. -/
structure StringMode where
  whole : Bool
  /-- Surrogates have to come in pairs. -/
  paired : Bool

/-- Where the reader of a string stands. -/
inductive StringState
  | plain
  | slash
  | hex (high : Option Nat) (value left : Nat)
  | highHalf (high : Nat)
  | highHalfSlash (high : Nat)

/-- Fewer than four bytes are left. -/
def short (cs : List Char) : Bool := (cs.take 4).foldl (fun n c => n + c.utf8Size) 0 < 4

/-- Reads a string up to its closing quote; `acc` holds what was read, last character first. -/
def readStringFrom (mode : StringMode) (acc : List Char) :
    StringState → List Char → Except Fault (String × List Char)
  | _, [] => .error .ended
  | .plain, c :: cs =>
    if c = '"' then .ok (String.ofList acc.reverse, cs)
    else if c = '\\' then readStringFrom mode acc .slash cs
    else if c.val < 0x20 then .error .malformed
    else readStringFrom mode (c :: acc) .plain cs
  | .slash, c :: cs =>
    if c = 'u' then
      if mode.whole && short cs then .error .ended
      else readStringFrom mode acc (.hex none 0 4) cs
    else match unescape? c with
      | some d => readStringFrom mode (d :: acc) .plain cs
      | none => .error .malformed
  | .hex high value left, c :: cs =>
    match hexValue? c with
    | none => .error .malformed
    | some d =>
      let n := value * 16 + d
      if 1 < left then readStringFrom mode acc (.hex high n (left - 1)) cs
      else match high with
        | some h =>
          if isLowSurrogate n then readStringFrom mode (joinSurrogates h n :: acc) .plain cs
          else .error .malformed
        | none =>
          if !mode.paired then readStringFrom mode (Char.ofNat n :: acc) .plain cs
          else if isHighSurrogate n then readStringFrom mode acc (.highHalf n) cs
          else if isLowSurrogate n then .error .malformed
          else readStringFrom mode (Char.ofNat n :: acc) .plain cs
  | .highHalf h, c :: cs =>
    if c = '\\' then readStringFrom mode acc (.highHalfSlash h) cs else .error .malformed
  | .highHalfSlash h, c :: cs =>
    if c = 'u' then
      if mode.whole && short cs then .error .ended
      else readStringFrom mode acc (.hex (some h) 0 4) cs
    else .error .malformed

def readString (medium : Medium) (cs : List Char) : Except Fault (String × List Char) := do
  let (s, rest) ← readStringFrom ⟨medium.whole, true⟩ [] .plain cs
  match medium.stray with
  | none => return (s, rest)
  | some c =>
    if c ∈ cs.take (cs.length - rest.length) then throw .malformed
    return (s, rest)

/-- Passes over a string after its opening quote, whatever bytes and lone surrogates it has. -/
def skipString (medium : Medium) (cs : List Char) : Except Fault (List Char) :=
  (readStringFrom ⟨medium.whole, false⟩ [] .plain cs).map Prod.snd

end Retrace.Json

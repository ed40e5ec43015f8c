/-! Text in bytes that need not all be text. -/
namespace Retrace.Text

/-- The characters of bytes from a place on, with `none` for a byte that is part of no character. -/
def decodeFrom (bytes : ByteArray) (i : Nat) : List (Option Char) :=
  if i < bytes.size then
    match bytes.utf8DecodeChar? i with
    | some c => some c :: decodeFrom bytes (i + c.utf8Size)
    | none => none :: decodeFrom bytes (i + 1)
  else []
termination_by bytes.size - i
decreasing_by
  · have positive := c.utf8Size_pos
    omega
  · omega

def decode (bytes : ByteArray) : List (Option Char) := decodeFrom bytes 0

/-- The last character of all that a text does not use. -/
def unused (cs : List Char) : Char :=
  let candidates := (List.range (cs.length + 1)).map fun k => Char.ofNat (0x10ffff - k)
  (candidates.find? (· ∉ cs)).getD '\x00'

end Retrace.Text

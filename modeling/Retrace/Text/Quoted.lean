import Retrace.Text.Unprintable

/-! Strings as messages quote them: in double quotes, with escapes for what cannot be seen. -/
namespace Retrace.Text

def hex (n : Nat) : List Char := Nat.toDigits 16 n

def quotedChar (c : Char) : List Char :=
  match c with
  | '\x00' => ['\\', '0']
  | '\t' => ['\\', 't']
  | '\r' => ['\\', 'r']
  | '\n' => ['\\', 'n']
  | '\\' => ['\\', '\\']
  | '"' => ['\\', '"']
  | c => if isUnprintable c then ['\\', 'u', '\x7b'] ++ hex c.toNat ++ ['\x7d'] else [c]

def quoted (s : String) : String :=
  String.ofList ('"' :: s.toList.flatMap quotedChar ++ ['"'])

end Retrace.Text

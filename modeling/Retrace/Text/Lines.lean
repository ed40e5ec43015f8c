/-! Texts as lines. -/
namespace Retrace.Text

/-- A line that a line feed ends, without the carriage return before it. -/
def withoutReturn (line : List Char) : List Char :=
  if line.getLast? = some '\r' then line.dropLast else line

/-- The lines of a text from `line` on, the characters read of the current line. A text that ends with
a line feed has no line after it. -/
def linesFrom (line : List Char) : List Char → List (List Char)
  | [] => if line = [] then [] else [line.reverse]
  | c :: cs =>
    if c = '\n' then withoutReturn line.reverse :: linesFrom [] cs
    else linesFrom (c :: line) cs

def lines (s : String) : List String := (linesFrom [] s.toList).map String.ofList

end Retrace.Text

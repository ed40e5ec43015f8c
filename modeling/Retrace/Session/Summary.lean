import Retrace.Session.Basic
import Retrace.Text.Lines

/-! The step that a session is at, laid out for a terminal. -/
namespace Retrace

/-- The colours and weights in use. -/
inductive Ink
  | bold
  | red
  | green
  | yellow
  | cyan

namespace Ink

def code : Ink → List Char
  | .bold => "\x1b[1m".toList
  | .red => "\x1b[31m".toList
  | .green => "\x1b[32m".toList
  | .yellow => "\x1b[33m".toList
  | .cyan => "\x1b[36m".toList

def reset : List Char := "\x1b[0m".toList

/-- A text in an ink that an end inside the text does not end. -/
def renew (code : List Char) : List Char → List Char
  | '\x1b' :: '[' :: '0' :: 'm' :: cs => reset ++ code ++ renew code cs
  | c :: cs => c :: renew code cs
  | [] => []

def paint (coloured : Bool) (ink : Ink) (s : String) : String :=
  if coloured then String.ofList (ink.code ++ renew ink.code s.toList ++ reset) else s

end Ink

namespace Slot

def text : Slot → String
  | .ref id => "-> id" ++ toString id
  | .bool b => toString b
  | .number n => String.ofList n.text
  | .string s => "\"" ++ s ++ "\""
  | .null => "null"

end Slot

namespace Cell

def braced (s : String) : String := "\x7b" ++ s ++ "\x7d"

def entriesText (entries : Slots) : String :=
  ", ".intercalate (entries.map fun (name, slot) => name ++ ": " ++ slot.text)

def text : Cell → String
  | .list elements => "list [" ++ ", ".intercalate (elements.map Slot.text) ++ "]"
  | .mapping entries => "dict " ++ braced (entriesText entries)
  | .function name _ => "function " ++ name
  | .object className fields => className ++ " " ++ braced (entriesText fields)

end Cell

namespace Summary

def bindings (coloured : Bool) (none : String) (slots : Slots) : String :=
  if slots.isEmpty then "  " ++ none ++ "\n"
  else String.join (slots.map fun (name, slot) =>
    "  " ++ Ink.cyan.paint coloured name ++ " = " ++ slot.text ++ "\n")

def header (coloured : Bool) (s : Session) : String :=
  let ink := if s.status.isError then Ink.red else Ink.green
  let position := "Step " ++ toString (s.cursor.index.toNat + 1) ++ " of " ++ toString s.total
  let place := match s.current? with
    | some step => "Line " ++ toString step.line ++ " in " ++ step.funcName ++ "\n"
    | none => ""
  "\n" ++ Ink.bold.paint coloured position ++
    "\n---------------------------------------------------\n" ++
    ink.paint coloured s.status.text ++ "\n" ++ place

def label (coloured : Bool) (f : Frame) : String :=
  let parent := match f.parent? with
    | some id => "f" ++ toString id
    | none => "Global"
  let label := "f" ++ toString f.id ++ ": " ++ f.funcName ++ " [parent=" ++ parent ++ "]"
  if f.highlighted then Ink.yellow.paint coloured "▶" ++ " " ++ Ink.bold.paint coloured label
  else "  " ++ label

def frame (coloured : Bool) (f : Frame) : String :=
  "\n" ++ label coloured f ++ "\n" ++
    bindings coloured "(no local variables)" f.localsInOrder

def objects (heap : Heap) : String :=
  if heap.toList.isEmpty then ""
  else "\nObjects:\n" ++ String.join (heap.toList.map fun (id, cell) =>
    "  id" ++ toString id ++ " " ++ cell.text ++ "\n")

def output (s : String) : String :=
  if s = "" then ""
  else "\nOutput:\n" ++ String.join ((Text.lines s).map fun line => "  " ++ line ++ "\n")

def body (coloured : Bool) (s : Snapshot) : String :=
  "\nGlobal frame:\n" ++ bindings coloured "(no global variables)" s.globalsInOrder ++
    String.join (s.stack.map (frame coloured)) ++ objects s.heap ++ output s.output

end Summary

def Session.summary (coloured : Bool) (s : Session) : String :=
  Summary.header coloured s ++
    match s.current? with
    | some step => Summary.body coloured step
    | none => ""

end Retrace

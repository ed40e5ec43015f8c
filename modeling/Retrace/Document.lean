import Retrace.Session.Basic
import Retrace.Snapshot.Json
import Retrace.Text.Bytes

/-! Documents: the snapshots of a session with what tells where they come from. -/
namespace Retrace

open Json (Read)

structure Document where
  version : String
  generatedAt : String
  totalSteps : UInt64
  source : Option String
  steps : List Snapshot
deriving DecidableEq

namespace Document

def currentVersion : String := "1.0.0"

def ofSession (generatedAt : String) (s : Session) : Document :=
  ⟨currentVersion, generatedAt, s.total.toUInt64, s.source, s.steps⟩

def toJson (d : Document) : Json :=
  .object ([("version", .string d.version), ("generated_at", .string d.generatedAt),
    ("total_steps", .ofUInt64 d.totalSteps)] ++
    (d.source.map fun source => ("source", .string source)).toList ++
    [("steps", .array (d.steps.map Snapshot.toJson))])

def text (d : Document) : String := d.toJson.pretty

def sourceOfTree (t : Json.Tree) : Read (Option String) := t.optional Json.Tree.toText

def stepsOfTree (t : Json.Tree) : Read (List Snapshot) := t.toList Snapshot.ofTree

def fields : List (Json.Field Json.Tree) :=
  [.always "version" Json.Tree.toText, .always "generated_at" Json.Tree.toText,
    .always "total_steps" Json.Tree.toSize, .sometimes "source" sourceOfTree,
    .always "steps" stepsOfTree]

def ofTree (t : Json.Tree) : Read Document := do
  let ms ← t.recordFields "struct TraceDocument" fields
  return {
    version := ← Json.Field.get Json.Tree.toText "version" ms
    generatedAt := ← Json.Field.get Json.Tree.toText "generated_at" ms
    totalSteps := ← Json.Field.get Json.Tree.toSize "total_steps" ms
    source := ← Json.Field.get? sourceOfTree "source" ms
    steps := ← Json.Field.get stepsOfTree "steps" ms }

/-- Reads the text of a document, which comes as a stream. -/
def ofText (cs : List Char) : Read Document := Json.readText .stream ofTree cs

/-- Reads a document from bytes. Those that are no characters only matter where they are read. -/
def ofBytes (bytes : ByteArray) : Read Document :=
  match String.fromUTF8? bytes with
  | some text => ofText text.toList
  | none =>
    let cs := Text.decode bytes
    let stray := Text.unused (cs.filterMap id)
    Json.readText { Json.Medium.stream with stray } ofTree (cs.map (·.getD stray))

end Document
end Retrace

import Retrace.Files.Disk
import Retrace.Main
import Retrace.Snapshot.Journal
import Retrace.Proofs.SortedMap
import Retrace.Proofs.Assoc
import Retrace.Proofs.Json.Settled
import Retrace.Proofs.Datum.Parts
import Retrace.Proofs.Datum.Decoded
import Retrace.Proofs.Scope
import Retrace.Proofs.Datum.Key
import Retrace.Proofs.Datum.RoundTrip
import Retrace.Proofs.Memory.Encoding
import Retrace.Proofs.Memory.Soundness
import Retrace.Proofs.Memory.Forgetting
import Retrace.Proofs.Memory.Merging
import Retrace.Proofs.Replay.Bindings
import Retrace.Proofs.Replay.Run
import Retrace.Proofs.Replay.CumulativeHeap
import Retrace.Proofs.Json.Parts
import Retrace.Proofs.Recording.Origins
import Retrace.Proofs.Memory.Canonical
import Retrace.Proofs.Replay.Representation
import Retrace.Proofs.Snapshot.Search
import Retrace.Proofs.Replay.Closure
import Retrace.Proofs.Replay.ForeignReferences
import Retrace.Proofs.Replay.Identity
import Retrace.Proofs.Memory.Numbering
import Retrace.Proofs.Replay.Numbering
import Retrace.Proofs.Memory.Runs
import Retrace.Proofs.Memory.Callables
import Retrace.Proofs.Memory.Twins
import Retrace.Proofs.Replay.Prefixes
import Retrace.Proofs.Replay.Invalidation
import Retrace.Proofs.Replay.SourceTails
import Retrace.Proofs.Json.NumberReading
import Retrace.Proofs.Json.PrintedTree
import Retrace.Proofs.Json.RecordReading
import Retrace.Proofs.Heap.Printed
import Retrace.Proofs.Heap.References
import Retrace.Proofs.Snapshot.Printed
import Retrace.Proofs.Document.RoundTrip
import Retrace.Proofs.Session.Cursor
import Retrace.Proofs.Session.Views
import Retrace.Proofs.Snapshot.Recorded
import Retrace.Proofs.Replay.Settled
import Retrace.Proofs.Replay.Resupply
import Retrace.Proofs.Document.FixedPoint
import Retrace.Proofs.Numeral.Shortest
import Retrace.Proofs.Json.NumberSpelling
import Retrace.Proofs.Datum.Identity
import Retrace.Proofs.Json.NumberRange
import Retrace.Proofs.Memory.Known
import Retrace.Proofs.Memory.Reencoding
import Retrace.Proofs.Memory.Renaming
import Retrace.Proofs.Memory.Heaps
import Retrace.Proofs.Replay.Display
import Retrace.Proofs.Json.OptionalFields
import Retrace.Proofs.Recording.Leniency
import Retrace.Proofs.Replay.Locals
import Retrace.Proofs.Heap.Numbers
import Retrace.Proofs.Replay.Replacement
import Retrace.Proofs.Numeral.Rounding
import Retrace.Proofs.Json.NumberRereading
import Retrace.Proofs.Document.Rereading
import Retrace.Proofs.Replay.Numbers
import Retrace.Proofs.Document.Survival
import Retrace.Proofs.Recording.Stepwise
import Retrace.Proofs.Memory.Issuing

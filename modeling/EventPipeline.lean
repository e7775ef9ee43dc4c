import EventPipeline.Adapter.Pool
import EventPipeline.Main
import EventPipeline.Proofs.Handler.Calls
import EventPipeline.Work.Schedule
import EventPipeline.Proofs.Handler.Isolation
import EventPipeline.Proofs.Adapter.Dues
import EventPipeline.Proofs.Adapter.Pool
import EventPipeline.Proofs.Adapter.Completion
import EventPipeline.Proofs.Json.Chars
import EventPipeline.Proofs.Json.Numeral
import EventPipeline.Proofs.Binary64.Rounding
import EventPipeline.Proofs.Binary64.Shortest
import EventPipeline.Proofs.Json.Number
import EventPipeline.Proofs.Json.Document
import EventPipeline.Proofs.Json.Reader
import EventPipeline.Proofs.Tree.Sound
import EventPipeline.Proofs.Event.Reading
import EventPipeline.Proofs.Work.Sound
import EventPipeline.Proofs.Handler.Payload
import EventPipeline.Proofs.Handler.Frame
import EventPipeline.Proofs.Instant.Text
import EventPipeline.Proofs.Json.Record
import EventPipeline.Proofs.Event.Context
import EventPipeline.Proofs.Event.Text
import EventPipeline.Proofs.Json.Printed
import EventPipeline.Proofs.Text.Lines
import EventPipeline.Proofs.Adapter.Line
import EventPipeline.Proofs.Adapter.Balance
import EventPipeline.Proofs.Tree.Place
import EventPipeline.Proofs.Tree.Plain
import EventPipeline.Proofs.Tree.Assign
import EventPipeline.Proofs.Rule.Moves
import EventPipeline.Proofs.Storage.Trace
import EventPipeline.Proofs.Work.Requests
import EventPipeline.Proofs.Pipeline.Locality
import EventPipeline.Proofs.Pipeline.Bytes
import EventPipeline.Proofs.Event.WellFormed
import EventPipeline.Proofs.Handler.Forwarded
import EventPipeline.Proofs.Template.Steps
import EventPipeline.Proofs.Template.Marked
import EventPipeline.Proofs.Template.Values
import EventPipeline.Proofs.Template.Count
import EventPipeline.Proofs.Template.Typed
import EventPipeline.Proofs.Template.Ungrouped
import EventPipeline.Proofs.Template.Meaning
import EventPipeline.Proofs.Pipeline.Failures
import EventPipeline.Proofs.Rule.Removal
import EventPipeline.Proofs.Rule.ThereAndBack
import EventPipeline.Proofs.Tree.Extract
import EventPipeline.Proofs.Tree.Layers
import EventPipeline.Proofs.Rule.Composition
import EventPipeline.Proofs.Path.Text
import EventPipeline.Proofs.Rule.Addressing
import EventPipeline.Proofs.Rule.Exhaustion
import EventPipeline.Proofs.Path.Display
import EventPipeline.Proofs.Tree.Longest
import EventPipeline.Proofs.Pipeline.Configuration
import EventPipeline.Proofs.Pipeline.Growth
import EventPipeline.Proofs.Rule.Parsing
import EventPipeline.Proofs.Rule.Listing
import EventPipeline.Proofs.Rule.WellFormed
import EventPipeline.Proofs.Pipeline.Reports
import EventPipeline.Proofs.Handler.Reports
import EventPipeline.Proofs.Handler.Configuration
import EventPipeline.Proofs.Transform.Text
import EventPipeline.Proofs.Tree.Depth
import EventPipeline.Proofs.Pipeline.Nesting
import EventPipeline.Proofs.Text.Unbordered
import EventPipeline.Proofs.Path.Separators
import EventPipeline.Proofs.Text.Bytes
import EventPipeline.Proofs.Template.Positions
import EventPipeline.Proofs.Template.Turns

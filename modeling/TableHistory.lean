import TableHistory.Entry.Stored.Build
import TableHistory.Operation.Active
import TableHistory.Record.Kind
import TableHistory.Proofs.OrderedMap
import TableHistory.Proofs.Run
import TableHistory.Proofs.Writes
import TableHistory.Proofs.Grouped
import TableHistory.Proofs.Wire.Reading
import TableHistory.Proofs.Schema.Cells
import TableHistory.Proofs.Schema.Fields
import TableHistory.Proofs.Schema.Messages
import TableHistory.Proofs.Record.Structured
import TableHistory.Proofs.Commit.Bodies
import TableHistory.Proofs.Commit.Metadata
import TableHistory.Proofs.Commit.Encodings
import TableHistory.Proofs.Commit.Recoding
import TableHistory.Proofs.Commit.Plain
import TableHistory.Proofs.Commit.CutBodies
import TableHistory.Proofs.Commit.CutTexts
import TableHistory.Proofs.Commit.Layouts
import TableHistory.Proofs.Commit.Scattered
import TableHistory.Proofs.Commit.Partitions
import TableHistory.Proofs.Commit.Recording
import TableHistory.Proofs.Commit.Detour
import TableHistory.Proofs.Entry.Agreement
import TableHistory.Proofs.Entry.Presence
import TableHistory.Proofs.Entry.Upgrades
import TableHistory.Proofs.Entry.Missing
import TableHistory.Proofs.Entry.Cells
import TableHistory.Proofs.Entry.Stored
import TableHistory.Proofs.Entry.Detour
import TableHistory.Proofs.Operation.Folding
import TableHistory.Proofs.Operation.Completion
import TableHistory.Proofs.Operation.Requests
import TableHistory.Proofs.Operation.Unmistakable
import TableHistory.Proofs.Operation.Order
import TableHistory.Proofs.Operation.Changes
import TableHistory.Proofs.Operation.Storage
import TableHistory.Proofs.Texts
import TableHistory.Proofs.Version

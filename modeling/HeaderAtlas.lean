import HeaderAtlas.Atlas.Basic
import HeaderAtlas.Atlas.Document
import HeaderAtlas.Atlas.Load
import HeaderAtlas.Atlas.Reference
import HeaderAtlas.Atlas.Request
import HeaderAtlas.Command.Arguments
import HeaderAtlas.Command.Basic
import HeaderAtlas.Command.Options
import HeaderAtlas.Command.Overrides
import HeaderAtlas.Command.Usage
import HeaderAtlas.Disk.Basic
import HeaderAtlas.Disk.Links
import HeaderAtlas.Disk.Write
import HeaderAtlas.Disk.Expand
import HeaderAtlas.Disk.Host
import HeaderAtlas.Disk.Lookup
import HeaderAtlas.Journal.Basic
import HeaderAtlas.Journal.DateFormat
import HeaderAtlas.Journal.Field
import HeaderAtlas.Journal.LineFormat
import HeaderAtlas.Journal.Moment
import HeaderAtlas.Journal.Record
import HeaderAtlas.Journal.RollingFile
import HeaderAtlas.Journal.Slot
import HeaderAtlas.Json.Basic
import HeaderAtlas.Json.Reader
import HeaderAtlas.Json.Shown
import HeaderAtlas.Json.Writer
import HeaderAtlas.Main
import HeaderAtlas.Number.Pointed
import HeaderAtlas.Number.Shortest
import HeaderAtlas.Number.Whole
import HeaderAtlas.Path.Basic
import HeaderAtlas.Proofs.Atlas.Arena
import HeaderAtlas.Proofs.Atlas.Branch
import HeaderAtlas.Proofs.Atlas.Bytes
import HeaderAtlas.Proofs.Atlas.Calls
import HeaderAtlas.Proofs.Atlas.Document
import HeaderAtlas.Proofs.Atlas.Drawn
import HeaderAtlas.Proofs.Atlas.Facts
import HeaderAtlas.Proofs.Atlas.Family
import HeaderAtlas.Proofs.Atlas.History
import HeaderAtlas.Proofs.Atlas.Identity
import HeaderAtlas.Proofs.Atlas.Load
import HeaderAtlas.Proofs.Atlas.Mirror
import HeaderAtlas.Proofs.Atlas.Order
import HeaderAtlas.Proofs.Atlas.Rebuild
import HeaderAtlas.Proofs.Atlas.Reload
import HeaderAtlas.Proofs.Atlas.Shape
import HeaderAtlas.Proofs.Atlas.Transpose
import HeaderAtlas.Proofs.Atlas.Union
import HeaderAtlas.Proofs.Disk.Beneath
import HeaderAtlas.Proofs.Disk.Canonical
import HeaderAtlas.Proofs.Disk.Depth
import HeaderAtlas.Proofs.Disk.Ends
import HeaderAtlas.Proofs.Disk.Peel
import HeaderAtlas.Proofs.Disk.Places
import HeaderAtlas.Proofs.Disk.Route
import HeaderAtlas.Proofs.Disk.Sound
import HeaderAtlas.Proofs.Disk.Write
import HeaderAtlas.Proofs.Journal.Formats
import HeaderAtlas.Proofs.Journal.Lifecycle
import HeaderAtlas.Proofs.Json.Blanks
import HeaderAtlas.Proofs.Json.Progress
import HeaderAtlas.Proofs.Json.RoundTrip
import HeaderAtlas.Proofs.Path.Normal
import HeaderAtlas.Proofs.Path.Segments
import HeaderAtlas.Proofs.Run
import HeaderAtlas.Proofs.Scan.Agreement
import HeaderAtlas.Proofs.Scan.Containment
import HeaderAtlas.Proofs.Scan.Exact
import HeaderAtlas.Proofs.Scan.Failure
import HeaderAtlas.Proofs.Scan.Listing
import HeaderAtlas.Proofs.Scan.Naming
import HeaderAtlas.Proofs.Scan.Reached
import HeaderAtlas.Proofs.Scan.Repeated
import HeaderAtlas.Proofs.Scan.Resolver
import HeaderAtlas.Proofs.Scan.Reverse
import HeaderAtlas.Proofs.Scan.Tally
import HeaderAtlas.Proofs.Scan.Tracker
import HeaderAtlas.Proofs.Settings.Again
import HeaderAtlas.Proofs.Settings.Guarantees
import HeaderAtlas.Proofs.Settings.Saved
import HeaderAtlas.Proofs.Settings.Strict
import HeaderAtlas.Proofs.Source.Boundary
import HeaderAtlas.Proofs.Source.Continuation
import HeaderAtlas.Proofs.Source.Grammar
import HeaderAtlas.Proofs.Source.LineComment
import HeaderAtlas.Proofs.Source.LineEnds
import HeaderAtlas.Proofs.Source.Opaque
import HeaderAtlas.Proofs.Source.Positions
import HeaderAtlas.Proofs.Source.Spans
import HeaderAtlas.Proofs.Source.Splice
import HeaderAtlas.Proofs.Text.Scalar
import HeaderAtlas.Proofs.Text.Split
import HeaderAtlas.Proofs.Text.Utf8
import HeaderAtlas.Proofs.Wildcard
import HeaderAtlas.Proofs.Wildcard.Language
import HeaderAtlas.Run
import HeaderAtlas.Scan.Basic
import HeaderAtlas.Scan.Draft
import HeaderAtlas.Scan.Params
import HeaderAtlas.Scan.Resolver
import HeaderAtlas.Scan.Survey
import HeaderAtlas.Settings.Basic
import HeaderAtlas.Settings.Check
import HeaderAtlas.Settings.File
import HeaderAtlas.Source.Continuation
import HeaderAtlas.Source.Directive
import HeaderAtlas.Source.Includes
import HeaderAtlas.Source.Skipped
import HeaderAtlas.Text.Alphanumeric
import HeaderAtlas.Text.Basic
import HeaderAtlas.Text.Capital
import HeaderAtlas.Text.Digit
import HeaderAtlas.Text.Printable
import HeaderAtlas.Text.Utf8
import HeaderAtlas.Wildcard
import HeaderAtlas.Wildcard.Value

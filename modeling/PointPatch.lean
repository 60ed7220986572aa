import PointPatch.Bytes.Chunk
import PointPatch.Bytes.Hex
import PointPatch.Bytes.Order
import PointPatch.Bytes.Word
import PointPatch.Column.Basic
import PointPatch.Column.Codec
import PointPatch.Column.Deflate
import PointPatch.Column.Mode
import PointPatch.Column.RunLength
import PointPatch.Column.Sigbits
import PointPatch.Column.Wire
import PointPatch.Config
import PointPatch.Dimension
import PointPatch.Double.Basic
import PointPatch.Double.Decimal
import PointPatch.Double.Rounding
import PointPatch.Double.Shortest
import PointPatch.Engine
import PointPatch.Fault
import PointPatch.Interpretation
import PointPatch.Json.Printer
import PointPatch.Json.Reader
import PointPatch.Json.Value
import PointPatch.Markup.Name
import PointPatch.Markup.Text
import PointPatch.Markup.Token
import PointPatch.Markup.Tree
import PointPatch.Memory
import PointPatch.Notice
import PointPatch.Patch.Basic
import PointPatch.Patch.Blob
import PointPatch.Patch.Bounds
import PointPatch.Patch.Columns
import PointPatch.Patch.Conversion
import PointPatch.Patch.Description
import PointPatch.Patch.Filter
import PointPatch.Patch.Merge
import PointPatch.Patch.Rows
import PointPatch.Patch.Summary
import PointPatch.Patch.Wire
import PointPatch.Point
import PointPatch.Proofs.Bytes.Bits
import PointPatch.Proofs.Bytes.Pieces
import PointPatch.Proofs.Bytes.SharedPrefix
import PointPatch.Proofs.Bytes.Word
import PointPatch.Proofs.Column.ByteOrder
import PointPatch.Proofs.Column.Delimitation
import PointPatch.Proofs.Column.Estimates
import PointPatch.Proofs.Column.Layout
import PointPatch.Proofs.Column.MaximalRuns
import PointPatch.Proofs.Column.Message
import PointPatch.Proofs.Column.RunLength
import PointPatch.Proofs.Column.SharedBits
import PointPatch.Proofs.Column.ShortestRuns
import PointPatch.Proofs.Column.Sigbits
import PointPatch.Proofs.Column.Storage
import PointPatch.Proofs.Column.Validity
import PointPatch.Proofs.Double.Arithmetic
import PointPatch.Proofs.Double.Rounding
import PointPatch.Proofs.Machine.Basic
import PointPatch.Proofs.Machine.Column
import PointPatch.Proofs.Machine.Growth
import PointPatch.Proofs.Machine.Patch
import PointPatch.Proofs.Machine.Rows
import PointPatch.Proofs.Outcome
import PointPatch.Proofs.Patch.Acceptance
import PointPatch.Proofs.Patch.Bounds
import PointPatch.Proofs.Patch.Canonicity
import PointPatch.Proofs.Patch.Compression
import PointPatch.Proofs.Patch.Concatenation
import PointPatch.Proofs.Patch.Consistency
import PointPatch.Proofs.Patch.CountFields
import PointPatch.Proofs.Patch.Delimitation
import PointPatch.Proofs.Patch.Description
import PointPatch.Proofs.Patch.Extent
import PointPatch.Proofs.Patch.Grammar
import PointPatch.Proofs.Patch.Interchange
import PointPatch.Proofs.Patch.Merging
import PointPatch.Proofs.Patch.Message
import PointPatch.Proofs.Patch.Nesting
import PointPatch.Proofs.Patch.Projection
import PointPatch.Proofs.Patch.Reachability
import PointPatch.Proofs.Patch.Reduction
import PointPatch.Proofs.Patch.Reencoding
import PointPatch.Proofs.Patch.Restriction
import PointPatch.Proofs.Patch.Room
import PointPatch.Proofs.Patch.RoundTrip
import PointPatch.Proofs.Patch.Selection
import PointPatch.Proofs.Patch.Summaries
import PointPatch.Proofs.Patch.Transposition
import PointPatch.Proofs.Patch.WellFormed
import PointPatch.Proofs.Point.Message
import PointPatch.Proofs.Point.Values
import PointPatch.Proofs.Sampling.Advice
import PointPatch.Proofs.Sampling.Agreement
import PointPatch.Proofs.Sampling.InPlace
import PointPatch.Proofs.Sampling.Projection
import PointPatch.Proofs.Sampling.Sequence
import PointPatch.Proofs.Sampling.Totals
import PointPatch.Proofs.Schema.Composition
import PointPatch.Proofs.Schema.Coordinates
import PointPatch.Proofs.Schema.Document
import PointPatch.Proofs.Schema.Fields
import PointPatch.Proofs.Schema.Filling
import PointPatch.Proofs.Schema.Layout
import PointPatch.Proofs.Schema.Ledger
import PointPatch.Proofs.Schema.Names
import PointPatch.Proofs.Schema.Slots
import PointPatch.Proofs.Schema.Statements
import PointPatch.Proofs.Schema.Subset
import PointPatch.Proofs.Schema.Tiling
import PointPatch.Proofs.Stream.Stored
import PointPatch.Proofs.Wire.Cursor
import PointPatch.Representation
import PointPatch.Sampling
import PointPatch.Schema.Basic
import PointPatch.Schema.Document
import PointPatch.Schema.Names
import PointPatch.Schema.Rendering
import PointPatch.Stream.Checksum
import PointPatch.Stream.Codec
import PointPatch.Stream.Deflate
import PointPatch.Stream.Demand
import PointPatch.Stream.Frame
import PointPatch.Stream.Frames
import PointPatch.Stream.Huffman
import PointPatch.Stream.Inflate
import PointPatch.Stream.Output
import PointPatch.Stream.Zstandard
import PointPatch.Text.Blank
import PointPatch.Text.CaseTable
import PointPatch.Text.Lowercase
import PointPatch.Version
import PointPatch.Wire.Cursor
import PointPatch.Wire.Opening

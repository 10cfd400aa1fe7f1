import BlockConvert.Block
import BlockConvert.Block.Blockstate
import BlockConvert.Catalog
import BlockConvert.Catalog.BlockNumbers
import BlockConvert.Catalog.Resolution
import BlockConvert.Catalog.RuleFiles
import BlockConvert.Conversion
import BlockConvert.Conversion.Error
import BlockConvert.Coords
import BlockConvert.Database
import BlockConvert.Decimal.Binary
import BlockConvert.Decimal.Natural
import BlockConvert.Decimal.Notation
import BlockConvert.Decimal.Power
import BlockConvert.Decimal.Reader
import BlockConvert.Decimal.Shortest
import BlockConvert.Desk
import BlockConvert.Desk.Route
import BlockConvert.Direction
import BlockConvert.Interpreter
import BlockConvert.Interpreter.Calling
import BlockConvert.Interpreter.Frame
import BlockConvert.Interpreter.Painting
import BlockConvert.Interpreter.State
import BlockConvert.Json.Basic
import BlockConvert.Json.Decode
import BlockConvert.Json.Parser
import BlockConvert.Json.Quoted
import BlockConvert.Kind
import BlockConvert.Metrics
import BlockConvert.Notice
import BlockConvert.NumericIds
import BlockConvert.Order
import BlockConvert.Packed
import BlockConvert.Packed.Raw
import BlockConvert.Packed.Reader
import BlockConvert.Packed.Writer
import BlockConvert.Paint
import BlockConvert.Record
import BlockConvert.RecordId
import BlockConvert.Rule
import BlockConvert.Rule.Loader
import BlockConvert.Script
import BlockConvert.Script.Builtin
import BlockConvert.Script.Child
import BlockConvert.Script.Shapes
import BlockConvert.Script.Signs
import BlockConvert.Settings
import BlockConvert.Snbt.Parser
import BlockConvert.Snbt.Printer
import BlockConvert.Snbt.Scanner
import BlockConvert.Snbt.Word
import BlockConvert.Specification
import BlockConvert.StyledText.Component
import BlockConvert.StyledText.Section
import BlockConvert.StyledText.Style
import BlockConvert.Table
import BlockConvert.Tag
import BlockConvert.Tag.Cast
import BlockConvert.Tag.Named
import BlockConvert.Tag.Path
import BlockConvert.Tag.TypedList
import BlockConvert.Text.Blank
import BlockConvert.Text.ModifiedUtf8
import BlockConvert.Text.Quoted
import BlockConvert.Text.Split
import BlockConvert.Version
import BlockConvert.World
import BlockConvert.Proofs.Interpreter.Equations
import BlockConvert.Proofs.Interpreter.Growth
import BlockConvert.Proofs.Interpreter.Agreement
import BlockConvert.Proofs.Interpreter.RecordOnly
import BlockConvert.Proofs.Conversion.Completeness
import BlockConvert.Proofs.Decimal.Whole
import BlockConvert.Proofs.Conversion.Relocation
import BlockConvert.Proofs.Desk.Reuse
import BlockConvert.Proofs.Paint.Stroke
import BlockConvert.Proofs.Paint.Slot
import BlockConvert.Proofs.Paint.Elements
import BlockConvert.Proofs.Paint.Entries
import BlockConvert.Proofs.Paint.Idempotence
import BlockConvert.Proofs.Interpreter.Reach
import BlockConvert.Proofs.Interpreter.Tracing
import BlockConvert.Proofs.Interpreter.Keeping
import BlockConvert.Proofs.Conversion.Containment
import BlockConvert.Proofs.Interpreter.Footing
import BlockConvert.Proofs.Conversion.Scoping
import BlockConvert.Proofs.Paint.Rebuilding
import BlockConvert.Proofs.Interpreter.PlainWalk
import BlockConvert.Proofs.Decimal.Digits
import BlockConvert.Proofs.Decimal.Patterns
import BlockConvert.Proofs.Decimal.Shortest
import BlockConvert.Proofs.Decimal.Spelling
import BlockConvert.Proofs.Decimal.ReadBack
import BlockConvert.Proofs.Text.Enclosed
import BlockConvert.Proofs.Snbt.Words
import BlockConvert.Proofs.Snbt.Reading
import BlockConvert.Proofs.Snbt.RoundTrip
import BlockConvert.Proofs.Tag.Following
import BlockConvert.Proofs.Tag.Operations
import BlockConvert.Proofs.Interpreter.Coherence
import BlockConvert.Proofs.Conversion.Coherence
import BlockConvert.Proofs.Conversion.Flags
import BlockConvert.Proofs.Conversion.Respelling
import BlockConvert.Proofs.Desk.RoundTrip
import BlockConvert.Proofs.Conversion.Moving
import BlockConvert.Proofs.Decimal.Endings
import BlockConvert.Proofs.Snbt.Grammar
import BlockConvert.Proofs.Snbt.Classification
import BlockConvert.Proofs.Snbt.Acceptance
import BlockConvert.Proofs.Snbt.Stability
import BlockConvert.Proofs.Snbt.Offsets
import BlockConvert.Proofs.Snbt.Scanning
import BlockConvert.Proofs.Snbt.Positions
import BlockConvert.Proofs.Packed.Layout
import BlockConvert.Proofs.Packed.RoundTrip
import BlockConvert.Proofs.Conversion.Notices
import BlockConvert.Proofs.Desk.Misses
import BlockConvert.Proofs.Paint.Independence
import BlockConvert.Proofs.Paint.Locality
import BlockConvert.Proofs.Catalog.Accounting
import BlockConvert.Proofs.Catalog.BoundNumbers
import BlockConvert.Proofs.Paint.Checked
import BlockConvert.Proofs.Paint.Dropping
import BlockConvert.Proofs.Block.Commas
import BlockConvert.Proofs.Block.Rereading
import BlockConvert.Proofs.Block.Stacking
import BlockConvert.Proofs.Block.Canonical
import BlockConvert.Proofs.Catalog.Nearest
import BlockConvert.Proofs.Catalog.Scanning
import BlockConvert.Proofs.Catalog.Kept
import BlockConvert.Proofs.Catalog.DataVersions
import BlockConvert.Proofs.Catalog.Loading
import BlockConvert.Proofs.StyledText.Components
import BlockConvert.Proofs.StyledText.RoundTrip
import BlockConvert.Proofs.Script.Signs
import BlockConvert.Proofs.Specification.Combinations
import BlockConvert.Proofs.Desk.Warnings
import BlockConvert.Proofs.Packed.MixedLists
import BlockConvert.Proofs.Rule.Places
import BlockConvert.Proofs.Rule.OrderFree
import BlockConvert.Proofs.Rule.LoadingOrder

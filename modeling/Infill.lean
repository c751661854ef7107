import Infill.Boundary
import Infill.Builder
import Infill.Command.Arguments
import Infill.Command.Run
import Infill.Config
import Infill.Context
import Infill.Data
import Infill.Decimal.Reader
import Infill.Decimal.Shortest
import Infill.Decimal.Width
import Infill.Engine.Expr
import Infill.Engine.Node
import Infill.Engine.Render
import Infill.Engine.Token
import Infill.Engine.Value
import Infill.Error
import Infill.Files
import Infill.Flatten
import Infill.Format
import Infill.Format.Docx
import Infill.Format.Odt
import Infill.Json.Number
import Infill.Json.Reader
import Infill.Line
import Infill.Main
import Infill.Part
import Infill.Path
import Infill.Rebuild
import Infill.Tagged
import Infill.Tape
import Infill.Tape.Hex
import Infill.Tape.Record
import Infill.Tape.Varint
import Infill.Template.Lexer
import Infill.Template.Tag
import Infill.Text.Blank
import Infill.Text.Bytes
import Infill.Text.Case
import Infill.Text.Quoted
import Infill.Text.Split
import Infill.Toml.Reader
import Infill.Toml.Scalar
import Infill.Toml.Table
import Infill.Xml.Document
import Infill.Xml.Element
import Infill.Xml.Name
import Infill.Xml.Printer
import Infill.Xml.Reference
import Infill.Xml.Token
import Infill.Xml.Walk
import Infill.Yaml.Block
import Infill.Yaml.Cursor
import Infill.Yaml.Flow
import Infill.Yaml.Layout
import Infill.Yaml.Node
import Infill.Yaml.Scalar
import Infill.Yaml.Token
import Infill.Proofs.Agreement
import Infill.Proofs.Assembly
import Infill.Proofs.Atoms
import Infill.Proofs.Batches
import Infill.Proofs.Boundary
import Infill.Proofs.Cells
import Infill.Proofs.Chunks
import Infill.Proofs.Cloning
import Infill.Proofs.Conservation
import Infill.Proofs.Constancy
import Infill.Proofs.Copies
import Infill.Proofs.Course
import Infill.Proofs.Drafting
import Infill.Proofs.ElementCopies
import Infill.Proofs.Feeding
import Infill.Proofs.Flattening
import Infill.Proofs.Grammar
import Infill.Proofs.Inline
import Infill.Proofs.Integrity
import Infill.Proofs.Itinerary
import Infill.Proofs.KeptPieces
import Infill.Proofs.LeafCopies
import Infill.Proofs.Leaves
import Infill.Proofs.Lexing
import Infill.Proofs.Marks
import Infill.Proofs.Mirroring
import Infill.Proofs.Naming
import Infill.Proofs.Numbering
import Infill.Proofs.Openings
import Infill.Proofs.Order
import Infill.Proofs.Partition
import Infill.Proofs.Passage
import Infill.Proofs.Provenance
import Infill.Proofs.Reading
import Infill.Proofs.Records
import Infill.Proofs.Reentry
import Infill.Proofs.Refill
import Infill.Proofs.Remnants
import Infill.Proofs.Removal
import Infill.Proofs.Replay
import Infill.Proofs.Retention
import Infill.Proofs.RoundTrip
import Infill.Proofs.RunPosition
import Infill.Proofs.Scanning
import Infill.Proofs.Seams
import Infill.Proofs.Sinks
import Infill.Proofs.Slices
import Infill.Proofs.Sorting
import Infill.Proofs.Spacing
import Infill.Proofs.Splits
import Infill.Proofs.Straightening
import Infill.Proofs.Tapes
import Infill.Proofs.Tiling
import Infill.Proofs.Totality
import Infill.Proofs.Tracing
import Infill.Proofs.Trail
import Infill.Proofs.Tree
import Infill.Proofs.Trimming
import Infill.Proofs.Unrolling
import Infill.Proofs.VisitTrees
import Infill.Proofs.Writing
import Infill.Proofs.Zipper

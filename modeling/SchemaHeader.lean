import SchemaHeader.Batch
import SchemaHeader.CommandLine.Options
import SchemaHeader.CommandLine.Run
import SchemaHeader.Descriptor
import SchemaHeader.Descriptor.Record
import SchemaHeader.Descriptor.Shape
import SchemaHeader.Diagnostic
import SchemaHeader.Disk
import SchemaHeader.Disk.Path
import SchemaHeader.FieldId
import SchemaHeader.FieldId.DeclaredType
import SchemaHeader.Generation
import SchemaHeader.Header
import SchemaHeader.Header.Phrase
import SchemaHeader.Header.Walk
import SchemaHeader.Main
import SchemaHeader.Proofs.Batch
import SchemaHeader.Proofs.Batch.Room
import SchemaHeader.Proofs.CommandLine.Answer
import SchemaHeader.Proofs.CommandLine.Completion
import SchemaHeader.Proofs.CommandLine.Confinement
import SchemaHeader.Proofs.CommandLine.Modes
import SchemaHeader.Proofs.CommandLine.Options
import SchemaHeader.Proofs.CommandLine.Run
import SchemaHeader.Proofs.Descriptor.Names
import SchemaHeader.Proofs.Descriptor.Record
import SchemaHeader.Proofs.Descriptor.Tree
import SchemaHeader.Proofs.Disk
import SchemaHeader.Proofs.Disk.Change
import SchemaHeader.Proofs.Disk.Growth
import SchemaHeader.Proofs.Disk.Path
import SchemaHeader.Proofs.Disk.Trimmed
import SchemaHeader.Proofs.Disk.Walk
import SchemaHeader.Proofs.Disk.Within
import SchemaHeader.Proofs.FieldId
import SchemaHeader.Proofs.FieldId.Layout
import SchemaHeader.Proofs.FieldId.Literal
import SchemaHeader.Proofs.Generation
import SchemaHeader.Proofs.Header.Agreement
import SchemaHeader.Proofs.Header.Emission
import SchemaHeader.Proofs.Header.EnumEntries
import SchemaHeader.Proofs.Header.Faithful
import SchemaHeader.Proofs.Header.FieldComment
import SchemaHeader.Proofs.Header.Gist
import SchemaHeader.Proofs.Header.Guard
import SchemaHeader.Proofs.Header.Indentation
import SchemaHeader.Proofs.Header.Lines
import SchemaHeader.Proofs.Header.Moves
import SchemaHeader.Proofs.Header.Outline
import SchemaHeader.Proofs.Header.Package
import SchemaHeader.Proofs.Header.Phrases
import SchemaHeader.Proofs.Header.Scopes
import SchemaHeader.Proofs.Header.Statistics
import SchemaHeader.Proofs.Header.Tables
import SchemaHeader.Proofs.Header.Traversal
import SchemaHeader.Proofs.Request
import SchemaHeader.Proofs.Request.Merge
import SchemaHeader.Proofs.Request.RoundTrip
import SchemaHeader.Proofs.Response
import SchemaHeader.Proofs.Selection
import SchemaHeader.Proofs.Session
import SchemaHeader.Proofs.Text.Boundary
import SchemaHeader.Proofs.Text.ConstantName
import SchemaHeader.Proofs.Text.Hex
import SchemaHeader.Proofs.Text.Identifier
import SchemaHeader.Proofs.Text.Runs
import SchemaHeader.Proofs.Text.Segments
import SchemaHeader.Proofs.Wire.Depth
import SchemaHeader.Proofs.Wire.Distinct
import SchemaHeader.Proofs.Wire.Locality
import SchemaHeader.Proofs.Wire.Message
import SchemaHeader.Proofs.Wire.Number
import SchemaHeader.Proofs.Wire.Reads
import SchemaHeader.Proofs.Wire.Record
import SchemaHeader.Request
import SchemaHeader.Response
import SchemaHeader.Session
import SchemaHeader.Text
import SchemaHeader.Wire.Decode
import SchemaHeader.Wire.Encode
import SchemaHeader.Wire.Fault
import SchemaHeader.Wire.Grammar
import SchemaHeader.Wire.Input
import SchemaHeader.Wire.Key
import SchemaHeader.Wire.Varint

import RecordFormat.Octets
import RecordFormat.Floating.Format
import RecordFormat.Floating.Decimal
import RecordFormat.Text.Blank
import RecordFormat.Text.Name
import RecordFormat.Json.Value
import RecordFormat.Json.Term
import RecordFormat.Json.Printer
import RecordFormat.Schema.Primitive
import RecordFormat.Schema.Scalar
import RecordFormat.Schema.Error
import RecordFormat.Schema.Constraints
import RecordFormat.Schema.Basic
import RecordFormat.Schema.Interner
import RecordFormat.Schema.Definition
import RecordFormat.Schema.Build
import RecordFormat.Schema.Violation
import RecordFormat.Schema.Rules
import RecordFormat.Schema.Evolution
import RecordFormat.Wire.Buffer
import RecordFormat.Wire.Operator
import RecordFormat.Wire.Registry
import RecordFormat.Text.Utf8
import RecordFormat.Record.Error
import RecordFormat.Record.IdMap
import RecordFormat.Record.Basic
import RecordFormat.Record.Reading
import RecordFormat.Record.Encoding
import RecordFormat.Record.Access
import RecordFormat.Record.Comparison
import RecordFormat.Record.Json
import RecordFormat.Record.Description
import RecordFormat.Tool.Files
import RecordFormat.Tool.Arguments
import RecordFormat.Tool.Commands
import RecordFormat.Main
import RecordFormat.Proofs.Registry.RoundTrip
import RecordFormat.Proofs.Registry.ValueCheck
import RecordFormat.Proofs.Evolution.Forward
import RecordFormat.Proofs.Buffer.Indexing
import RecordFormat.Proofs.Codec.Access
import RecordFormat.Proofs.Codec.Confinement
import RecordFormat.Proofs.Codec.Elements
import RecordFormat.Proofs.Record.Agreement
import RecordFormat.Proofs.Record.Required
import RecordFormat.Proofs.Evolution.Backward
import RecordFormat.Proofs.Codec.Twins
import RecordFormat.Proofs.Registry.Sharing
import RecordFormat.Proofs.Octets.Spans
import RecordFormat.Proofs.Codec.Rewriting
import RecordFormat.Proofs.Record.Rewriting
import RecordFormat.Proofs.Record.Canonical
import RecordFormat.Proofs.Record.Native
import RecordFormat.Proofs.Schema.Declared
import RecordFormat.Proofs.Schema.Builds
import RecordFormat.Proofs.Schema.Modes
import RecordFormat.Proofs.Registry.Encodable
import RecordFormat.Proofs.Floating.Widening
import RecordFormat.Proofs.Schema.Literals
import RecordFormat.Proofs.Schema.Reflection
import RecordFormat.Proofs.Evolution.Chain
import RecordFormat.Proofs.Codec.WireFormat
import RecordFormat.Proofs.Codec.Appending
import RecordFormat.Proofs.Record.Lengths
import RecordFormat.Proofs.Record.JsonObjects
import RecordFormat.Proofs.Record.JsonProjection
import RecordFormat.Proofs.Schema.References
import RecordFormat.Proofs.Evolution.Compatibility
import RecordFormat.Proofs.Evolution.SortKeys
import RecordFormat.Proofs.Floating.TotalOrder
import RecordFormat.Proofs.Schema.ScalarOrder
import RecordFormat.Proofs.Record.SortKeyOrder
import RecordFormat.Proofs.Evolution.Comparison
import RecordFormat.Proofs.Schema.ScalarForms
import RecordFormat.Proofs.Record.JsonForms
import RecordFormat.Proofs.Schema.TableNames
import RecordFormat.Proofs.Registry.Slots
import RecordFormat.Proofs.Schema.Interning
import RecordFormat.Proofs.Schema.Keywords
import RecordFormat.Proofs.Record.Computations

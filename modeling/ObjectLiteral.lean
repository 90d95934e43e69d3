import ObjectLiteral.Inspection
import ObjectLiteral.Sink
import ObjectLiteral.Proofs.Rendering.InlineLimit
import ObjectLiteral.Proofs.Rendering.Cycles
import ObjectLiteral.Proofs.Rendering.Hiding
import ObjectLiteral.Proofs.Rendering.Pads
import ObjectLiteral.Proofs.Notation.RoundTrip
import ObjectLiteral.Proofs.Number.FloatText
import ObjectLiteral.Proofs.Text.Delimited
import ObjectLiteral.Proofs.Rendering.Limits
import ObjectLiteral.Proofs.Sink.Interruption
import ObjectLiteral.Proofs.Conversion.FirstFailure
import ObjectLiteral.Proofs.Callable.Sources
import ObjectLiteral.Proofs.Rendering.Nested
import ObjectLiteral.Proofs.Calendar.Times
import ObjectLiteral.Proofs.Key.Index
import ObjectLiteral.Proofs.Key.Distinct
import ObjectLiteral.Proofs.Conversion.MapEntries
import ObjectLiteral.Proofs.Number.Value
import ObjectLiteral.Proofs.Number.Whole
import ObjectLiteral.Proofs.Number.Closest
import ObjectLiteral.Proofs.Number.WholeText
import ObjectLiteral.Proofs.Rendering.Methods
import ObjectLiteral.Proofs.Rendering.SmallLimits
import ObjectLiteral.Proofs.Text.Skipping
import ObjectLiteral.Proofs.Rendering.ActivePath
import ObjectLiteral.Proofs.Rendering.Congruence
import ObjectLiteral.Proofs.PropertyTable.Hashing
import ObjectLiteral.Proofs.Rendering.Growth

import EmbeddedExpr.Main
import EmbeddedExpr.Proofs.Eval.DepthBound
import EmbeddedExpr.Proofs.Eval.Hygiene
import EmbeddedExpr.Proofs.Eval.IterationBound
import EmbeddedExpr.Proofs.Eval.Logic
import EmbeddedExpr.Proofs.Eval.Names
import EmbeddedExpr.Proofs.Eval.StepCount
import EmbeddedExpr.Proofs.Grammar.Layout
import EmbeddedExpr.Proofs.Grammar.Precedence
import EmbeddedExpr.Proofs.Grammar.Spans
import EmbeddedExpr.Proofs.Host.RoundTrip
import EmbeddedExpr.Proofs.Program.Excerpts
import EmbeddedExpr.Proofs.Program.RoundTrip
import EmbeddedExpr.Proofs.Program.Store
import EmbeddedExpr.Proofs.Syntax.Serialization
import EmbeddedExpr.Proofs.Value.ReadBack
import EmbeddedExpr.Proofs.Value.Symmetry
import EmbeddedExpr.Proofs.Text.Run
import EmbeddedExpr.Proofs.Time.Quantities
import EmbeddedExpr.Proofs.Time.Timestamp
import EmbeddedExpr.Proofs.Time.DurationText
import EmbeddedExpr.Proofs.Time.Fields
import EmbeddedExpr.Proofs.Time.Shifts
import EmbeddedExpr.Proofs.Time.TimestampText
import EmbeddedExpr.Proofs.Host.Members
import EmbeddedExpr.Proofs.Host.Normal
import EmbeddedExpr.Proofs.Host.Document
import EmbeddedExpr.Proofs.Time.Zone
import EmbeddedExpr.Proofs.Eval.Comprehensions
import EmbeddedExpr.Proofs.Grammar.Nested
import EmbeddedExpr.Proofs.Grammar.IntegerLiterals
import EmbeddedExpr.Proofs.Host.KeyTexts
import EmbeddedExpr.Proofs.Eval.Arithmetic
import EmbeddedExpr.Proofs.Value.Order
import EmbeddedExpr.Proofs.Builtin.Extrema
import EmbeddedExpr.Proofs.Text.Literals
import EmbeddedExpr.Proofs.Eval.MapLiterals
import EmbeddedExpr.Proofs.Report.Locations
import EmbeddedExpr.Proofs.Host.NumericTexts
import EmbeddedExpr.Proofs.Grammar.Turns
import EmbeddedExpr.Proofs.Time.Accessors

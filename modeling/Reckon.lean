import Reckon.Binary64
import Reckon.CommandLine.Command
import Reckon.CommandLine.Report
import Reckon.Digits
import Reckon.Event
import Reckon.Literal
import Reckon.Literal.Draft
import Reckon.Machine
import Reckon.Main
import Reckon.Numeral
import Reckon.Numeral.Shortest
import Reckon.Outcome
import Reckon.Pending
import Reckon.Proofs.Admissible
import Reckon.Proofs.Balance
import Reckon.Proofs.Bracket
import Reckon.Proofs.Carry
import Reckon.Proofs.Cause
import Reckon.Proofs.Ceiling
import Reckon.Proofs.Comparison
import Reckon.Proofs.Conclusion
import Reckon.Proofs.Exact
import Reckon.Proofs.ExactRounding
import Reckon.Proofs.Filling
import Reckon.Proofs.FixedPoint
import Reckon.Proofs.Group
import Reckon.Proofs.Instalment
import Reckon.Proofs.IntegerExpression
import Reckon.Proofs.Layout
import Reckon.Proofs.Leniency
import Reckon.Proofs.Limit
import Reckon.Proofs.Lines
import Reckon.Proofs.Lockstep
import Reckon.Proofs.Nearest
import Reckon.Proofs.NormalNumeral
import Reckon.Proofs.Objection
import Reckon.Proofs.Pattern
import Reckon.Proofs.Phrase
import Reckon.Proofs.Piece
import Reckon.Proofs.PlainLiteral
import Reckon.Proofs.Postfix
import Reckon.Proofs.Precedence
import Reckon.Proofs.Reached
import Reckon.Proofs.Regrouping
import Reckon.Proofs.RenderedText
import Reckon.Proofs.Replay
import Reckon.Proofs.Report
import Reckon.Proofs.Residue
import Reckon.Proofs.Rounded
import Reckon.Proofs.RoundingOrder
import Reckon.Proofs.RowSearch
import Reckon.Proofs.Segment
import Reckon.Proofs.Session
import Reckon.Proofs.Shape
import Reckon.Proofs.Shortest
import Reckon.Proofs.Spacing
import Reckon.Proofs.Token
import Reckon.Proofs.Triangle
import Reckon.Proofs.Unpacked
import Reckon.Pyramid
import Reckon.Rejection
import Reckon.Rendering
import Reckon.Settings
import Reckon.Statement
import Reckon.Statement.Value
import Reckon.Symbol
import Reckon.Text.Blank
import Reckon.Text.Lines

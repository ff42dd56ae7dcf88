import FormulaTable.Calendar.Clock
import FormulaTable.Calendar.DateStyle
import FormulaTable.Calendar.Day
import FormulaTable.Calendar.DayText
import FormulaTable.Calendar.Instant
import FormulaTable.Calendar.TimeStyle
import FormulaTable.Cell.Basic
import FormulaTable.Cell.Coercion
import FormulaTable.Cell.Text
import FormulaTable.Column
import FormulaTable.Decimal.Basic
import FormulaTable.Decimal.Layout
import FormulaTable.Decimal.Reading
import FormulaTable.Diagnostic
import FormulaTable.Double.Canonical
import FormulaTable.Double.Exact
import FormulaTable.Double.Nearest
import FormulaTable.Double.Scientific
import FormulaTable.Double.Shortest
import FormulaTable.Double.Text
import FormulaTable.Formula.CompileError
import FormulaTable.Formula.Compiled
import FormulaTable.Formula.Evaluation
import FormulaTable.Formula.FaultKind
import FormulaTable.Formula.Operand
import FormulaTable.Formula.Postfix
import FormulaTable.Formula.Scan
import FormulaTable.Formula.Token
import FormulaTable.Journal.ConsoleLine
import FormulaTable.Journal.Filling
import FormulaTable.Journal.JsonLine
import FormulaTable.Journal.Notice
import FormulaTable.Journal.Record
import FormulaTable.Journal.Setup
import FormulaTable.Journal.Template
import FormulaTable.Keyed
import FormulaTable.NumberFormat
import FormulaTable.Options
import FormulaTable.Proofs.Formula.Lexeme
import FormulaTable.Proofs.Formula.Meaning
import FormulaTable.Proofs.Formula.Mention
import FormulaTable.Proofs.Formula.Tree
import FormulaTable.Proofs.Text.Trim
import FormulaTable.Rounding
import FormulaTable.Schema.Problem
import FormulaTable.Schema.Whole
import FormulaTable.Schema.Word
import FormulaTable.Settings
import FormulaTable.Table.Compute
import FormulaTable.Table.Pass
import FormulaTable.Table.Prepare
import FormulaTable.Table.State
import FormulaTable.Text.Blank
import FormulaTable.Text.DecimalDigit
import FormulaTable.Text.Letter
import FormulaTable.Text.Printable
import FormulaTable.Text.Quoted
import FormulaTable.Proofs.Formula.Rendering
import FormulaTable.Proofs.Formula.Reading
import FormulaTable.Proofs.Table.History
import FormulaTable.Proofs.Table.Recompute
import FormulaTable.Proofs.Table.ColumnOrder
import FormulaTable.Proofs.Table.Story
import FormulaTable.Proofs.Double.Word
import FormulaTable.Proofs.Double.Rounding
import FormulaTable.Proofs.Double.Shortest
import FormulaTable.Proofs.Decimal.Numeral
import FormulaTable.Proofs.Format.Count
import FormulaTable.Proofs.Format.Figure
import FormulaTable.Proofs.Formula.Asking
import FormulaTable.Proofs.Formula.Coherence
import FormulaTable.Proofs.Formula.Grammar
import FormulaTable.Proofs.Formula.Steps
import FormulaTable.Proofs.Formula.Rejection
import FormulaTable.Proofs.Table.SelfReference
import FormulaTable.Proofs.Table.Consistency
import FormulaTable.Proofs.Table.LimitNotice
import FormulaTable.Proofs.Table.Refusal
import FormulaTable.Proofs.Table.Reporting
import FormulaTable.Proofs.Table.Ownership
import FormulaTable.Proofs.Formula.Sentence
import FormulaTable.Proofs.Formula.Supply
import FormulaTable.Proofs.Table.Rowwise
import FormulaTable.Proofs.Formula.Balance
import FormulaTable.Proofs.Formula.Sign
import FormulaTable.Proofs.Double.Whole
import FormulaTable.Proofs.Formula.Kind
import FormulaTable.Proofs.Formula.LoneToken
import FormulaTable.Proofs.Formula.Acceptance
import FormulaTable.Proofs.Formula.Conservation
import FormulaTable.Proofs.Formula.Unreadable
import FormulaTable.Proofs.Decimal.Significant
import FormulaTable.Proofs.Double.Choice
import FormulaTable.Proofs.Double.Fewest
import FormulaTable.Proofs.Decimal.Written
import FormulaTable.Proofs.Format.Agreement
import FormulaTable.Proofs.Double.Canonical
import FormulaTable.Proofs.Format.Monotone
import FormulaTable.Proofs.Double.Shape
import FormulaTable.Proofs.Double.Reread
import FormulaTable.Proofs.Table.Relay
import FormulaTable.Proofs.Format.MinusZero
import FormulaTable.Proofs.Formula.Overflow
import FormulaTable.Proofs.Text.Digit
import FormulaTable.Proofs.Text.Restating
import FormulaTable.Proofs.Calendar.Gregorian
import FormulaTable.Proofs.Calendar.DayText
import FormulaTable.Proofs.Calendar.ClockText
import FormulaTable.Proofs.Double.Kept
import FormulaTable.Proofs.Cell.Stored
import FormulaTable.Proofs.Table.Copy
import FormulaTable.Proofs.Calendar.Stamp
import FormulaTable.Proofs.Journal.JsonText
import FormulaTable.Proofs.Journal.JsonReading
import FormulaTable.Proofs.Journal.JsonNumber
import FormulaTable.Proofs.Journal.JsonValue
import FormulaTable.Proofs.Journal.JsonWriter
import FormulaTable.Proofs.Journal.JsonLine
import FormulaTable.Proofs.Journal.ConsoleLine

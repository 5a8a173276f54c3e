import Millwork.Files.Edit
import Millwork.Repository.Memory
import Millwork.Main
import Millwork.Proofs.Selection
import Millwork.Proofs.Formula.Grammar
import Millwork.Proofs.Formula.Reading
import Millwork.Proofs.Formula.Fields
import Millwork.Proofs.Formula.FirstError
import Millwork.Proofs.Formula.Words
import Millwork.Proofs.Formula.Missing
import Millwork.Proofs.Formula.Coercion
import Millwork.Proofs.FieldsRead
import Millwork.Proofs.Decimal.Range
import Millwork.Proofs.Decimal.Spelling
import Millwork.Proofs.Decimal.Front
import Millwork.Proofs.Json.Scalar
import Millwork.Proofs.Json.Text
import Millwork.Proofs.Json.Record
import Millwork.Proofs.OrderText
import Millwork.Proofs.RuleText
import Millwork.Proofs.Text.Lower
import Millwork.Proofs.Files
import Millwork.Proofs.Repository.Documents
import Millwork.Proofs.Repository.Remembering
import Millwork.Proofs.Repository.Refreshing
import Millwork.Proofs.Note.Lines
import Millwork.Proofs.Note.Joining
import Millwork.Proofs.Note.Style
import Millwork.Proofs.Repository.Strategies
import Millwork.Proofs.Repository.Containment
import Millwork.Proofs.CommandLine.Outcome
import Millwork.Proofs.Report
import Millwork.Proofs.QuantityText
import Millwork.Proofs.Measurement.Outcome
import Millwork.Proofs.Measurement.Sum
import Millwork.Proofs.Decimal.RoundTrip
import Millwork.Proofs.Formula.Rounding
import Millwork.Proofs.Decimal.Overflow
import Millwork.Proofs.Measurement.Magnitude
import Millwork.Proofs.Measurement.Fractions
import Millwork.Proofs.Measurement.Units
import Millwork.Proofs.Measurement.Spellings
import Millwork.Proofs.Text.Lower.Letters
import Millwork.Proofs.Note.Links
import Millwork.Proofs.Note.Labels
import Millwork.Proofs.StyleKey
import Millwork.Proofs.CommandLine.Joined
import Millwork.Proofs.Repository.Insertions
import Millwork.Proofs.RuleMembers
import Millwork.Proofs.OrderMembers
import Millwork.Proofs.OddValues
import Millwork.Proofs.Formula.Size
import Millwork.Proofs.Handover

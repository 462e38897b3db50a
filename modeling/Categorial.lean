import Categorial.Category.Basic
import Categorial.Category.Printer
import Categorial.Category.Reader
import Categorial.Change
import Categorial.Chart.Basic
import Categorial.Chart.Exhaustive
import Categorial.Chart.Greedy
import Categorial.Command.Arguments
import Categorial.Command.Options
import Categorial.Command.Run
import Categorial.Decimal.Binary
import Categorial.Decimal.Fixed
import Categorial.Decimal.Reading
import Categorial.Decimal.Shortest
import Categorial.Derivation.Basic
import Categorial.Derivation.Parents
import Categorial.Event
import Categorial.Export.Auto
import Categorial.Export.Bracketed
import Categorial.Export.Diagram
import Categorial.Export.Markup
import Categorial.Export.Record
import Categorial.Export.Report
import Categorial.Grammar.Cache
import Categorial.Grammar.Combination
import Categorial.Grammar.Raising
import Categorial.Grammar.Rule
import Categorial.Json.Reader
import Categorial.Json.Token
import Categorial.Json.Value
import Categorial.Json.Writer
import Categorial.Lexicon.Basic
import Categorial.Lexicon.File
import Categorial.Main
import Categorial.Ordered.Map
import Categorial.Ordered.Set
import Categorial.Search.Agenda
import Categorial.Search.BestFirst
import Categorial.Search.Grouped
import Categorial.Search.Outside
import Categorial.Search.Scores
import Categorial.Text.Align
import Categorial.Text.Blank
import Categorial.Text.Digit
import Categorial.Text.Encoding
import Categorial.Text.Lines
import Categorial.Text.Pieces
import Categorial.Text.Printable
import Categorial.Text.Quoted
import Categorial.Xml.Element
import Categorial.Proofs.Derivation.Licence
import Categorial.Proofs.Derivation.Conservation
import Categorial.Proofs.Derivation.Modalities
import Categorial.Proofs.Derivation.Raising
import Categorial.Proofs.Grammar.Cache
import Categorial.Proofs.Grammar.Schema
import Categorial.Proofs.Grammar.Absorption
import Categorial.Proofs.Grammar.Overlap
import Categorial.Proofs.Grammar.Composition
import Categorial.Proofs.Grammar.Sharing
import Categorial.Proofs.Grammar.Substitution
import Categorial.Proofs.Grammar.Symmetry
import Categorial.Proofs.Chart.Cuts
import Categorial.Proofs.Chart.Filling
import Categorial.Proofs.Chart.Exhaustive
import Categorial.Proofs.Chart.Recursion
import Categorial.Proofs.Chart.Greedy
import Categorial.Proofs.Chart.Operations
import Categorial.Proofs.Category.Notation
import Categorial.Proofs.Category.Reading
import Categorial.Proofs.Category.RoundTrip
import Categorial.Proofs.Category.Viability
import Categorial.Proofs.Search.HeapOrder
import Categorial.Proofs.Search.History
import Categorial.Proofs.Search.Placement
import Categorial.Proofs.Search.Saturation
import Categorial.Proofs.Search.Results
import Categorial.Proofs.Search.Agreement
import Categorial.Proofs.Search.Estimate
import Categorial.Proofs.Search.Optimality
import Categorial.Proofs.Search.Operations
import Categorial.Proofs.Search.Moments
import Categorial.Proofs.Search.Steps
import Categorial.Proofs.Search.Consistency
import Categorial.Proofs.Derivation.Lookalike
import Categorial.Proofs.Export.Texts
import Categorial.Proofs.Export.Record
import Categorial.Proofs.Export.Markup
import Categorial.Proofs.Category.Alphabet
import Categorial.Proofs.Text.Fields
import Categorial.Proofs.Text.Lines
import Categorial.Proofs.Export.Columns
import Categorial.Proofs.Lexicon.Pairs
import Categorial.Proofs.Lexicon.Operations
import Categorial.Proofs.Chart.Repetition
import Categorial.Proofs.Lexicon.Lines
import Categorial.Proofs.Json.Refusal
import Categorial.Proofs.Lexicon.ReadBack
import Categorial.Proofs.Json.RoundTrip
import Categorial.Proofs.Decimal.Spelling
import Categorial.Proofs.Decimal.Rounding
import Categorial.Proofs.Decimal.Value
import Categorial.Proofs.Json.Numeral
import Categorial.Proofs.Command.Report
import Categorial.Proofs.Json.Characters
import Categorial.Proofs.Export.Report

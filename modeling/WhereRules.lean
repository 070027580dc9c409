import WhereRules.Context.Basic
import WhereRules.Context.Reading
import WhereRules.Dialect
import WhereRules.Double.Basic
import WhereRules.Double.Rounding
import WhereRules.Double.Shortest
import WhereRules.Double.Text
import WhereRules.Expr.Basic
import WhereRules.Expr.Cursor
import WhereRules.Expr.Parser
import WhereRules.Field
import WhereRules.FrontEnd
import WhereRules.Json.Basic
import WhereRules.Json.Reader
import WhereRules.Json.Record
import WhereRules.Json.Text
import WhereRules.Keyed
import WhereRules.Log
import WhereRules.Pattern.Basic
import WhereRules.Pattern.Bytes
import WhereRules.Pattern.Digits
import WhereRules.Pattern.Like
import WhereRules.Pattern.Limits
import WhereRules.Pattern.Ranges
import WhereRules.Pattern.Reader
import WhereRules.Pattern.Regex
import WhereRules.Pattern.Shape
import WhereRules.Pattern.Size
import WhereRules.Pattern.Words
import WhereRules.Predicate.Basic
import WhereRules.Predicate.Compile
import WhereRules.Predicate.Evaluation
import WhereRules.Predicate.Listing
import WhereRules.Predicate.Written
import WhereRules.Proofs.Answers
import WhereRules.Proofs.Comparing.Coherence
import WhereRules.Proofs.Comparing.Places
import WhereRules.Proofs.Comparing.Rounding
import WhereRules.Proofs.Compilation.Chains
import WhereRules.Proofs.Compilation.Collected
import WhereRules.Proofs.Compilation.Fields
import WhereRules.Proofs.Compilation.Inside
import WhereRules.Proofs.Compilation.Limit
import WhereRules.Proofs.Compilation.Malformed
import WhereRules.Proofs.Compilation.Meaning
import WhereRules.Proofs.Compilation.Opening
import WhereRules.Proofs.Compilation.Outcome
import WhereRules.Proofs.Compilation.Parsed
import WhereRules.Proofs.Compilation.Preservation
import WhereRules.Proofs.Compilation.Room
import WhereRules.Proofs.Compilation.Screening
import WhereRules.Proofs.Compilation.Steps
import WhereRules.Proofs.Composition.Rules
import WhereRules.Proofs.Composition.Seams
import WhereRules.Proofs.Cutting.Layout
import WhereRules.Proofs.Cutting.Lexemes
import WhereRules.Proofs.Cutting.Tiling
import WhereRules.Proofs.Documents.Numbers
import WhereRules.Proofs.Documents.Reread
import WhereRules.Proofs.Documents.Strings
import WhereRules.Proofs.Documents.Values
import WhereRules.Proofs.Grammar.Brackets
import WhereRules.Proofs.Grammar.Completeness
import WhereRules.Proofs.Grammar.Continuations
import WhereRules.Proofs.Grammar.Counts
import WhereRules.Proofs.Grammar.Derivation
import WhereRules.Proofs.Grammar.Faults
import WhereRules.Proofs.Grammar.Levels
import WhereRules.Proofs.Grammar.Limits
import WhereRules.Proofs.Grammar.Lookahead
import WhereRules.Proofs.Grammar.Phrases
import WhereRules.Proofs.Grammar.Places
import WhereRules.Proofs.Grammar.Positions
import WhereRules.Proofs.Grammar.Readers
import WhereRules.Proofs.Grammar.Roomy
import WhereRules.Proofs.Grammar.Soundness
import WhereRules.Proofs.Grammar.Trees
import WhereRules.Proofs.Operands.Lists
import WhereRules.Proofs.Operands.Loose
import WhereRules.Proofs.Operands.Written
import WhereRules.Proofs.Reading.Again
import WhereRules.Proofs.Reading.Course
import WhereRules.Proofs.Reading.Declared
import WhereRules.Proofs.Reading.Expansions
import WhereRules.Proofs.Reading.Get
import WhereRules.Proofs.Reading.Inquiry
import WhereRules.Proofs.Reading.Memory
import WhereRules.Proofs.Reading.Sessions
import WhereRules.Proofs.Reading.Settled
import WhereRules.Proofs.RoundTrip.Compiled
import WhereRules.Proofs.RoundTrip.Nesting
import WhereRules.Proofs.RoundTrip.Reread
import WhereRules.Proofs.RoundTrip.Spelled
import WhereRules.Proofs.RoundTrip.Text
import WhereRules.Proofs.Serving.Cursors
import WhereRules.Proofs.Serving.Following
import WhereRules.Proofs.Serving.History
import WhereRules.Proofs.Serving.Raised
import WhereRules.Proofs.Serving.Safety
import WhereRules.Proofs.Serving.Scanning
import WhereRules.Proofs.Serving.Sessions
import WhereRules.Proofs.Serving.Trails
import WhereRules.Proofs.Spelling.Double
import WhereRules.Proofs.Spelling.Leaves
import WhereRules.Proofs.Spelling.Tokens
import WhereRules.Proofs.Success
import WhereRules.Proofs.Walking.Height
import WhereRules.Proofs.Wildcard.Blindness
import WhereRules.Proofs.Wildcard.Faithful
import WhereRules.Proofs.Wildcard.Inversion
import WhereRules.Proofs.Wildcard.Language
import WhereRules.Proofs.Wildcard.Matching
import WhereRules.Proofs.Wildcard.Pieces
import WhereRules.Proofs.Wildcard.Rows
import WhereRules.Proofs.Wildcard.Size
import WhereRules.Proofs.Writing.Accepted
import WhereRules.Proofs.Writing.Depth
import WhereRules.Proofs.Writing.NullTests
import WhereRules.Proofs.Writing.Refusals
import WhereRules.Proofs.Writing.Room
import WhereRules.Proofs.Writing.Steps
import WhereRules.Proofs.Writing.Writable
import WhereRules.Report
import WhereRules.Rule
import WhereRules.Session
import WhereRules.Settings
import WhereRules.Text.Quoted
import WhereRules.Text.Unprintable
import WhereRules.Token.Basic
import WhereRules.Token.Lexer
import WhereRules.Token.Scanner
import WhereRules.Value.Basic
import WhereRules.Value.Json
import WhereRules.Value.Order
import WhereRules.Value.Text

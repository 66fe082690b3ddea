import ChartAdvisor.Choice
import ChartAdvisor.CommandLine
import ChartAdvisor.Config.Basic
import ChartAdvisor.Config.Coded
import ChartAdvisor.Document.Basic
import ChartAdvisor.Document.Readable
import ChartAdvisor.Draft.Basic
import ChartAdvisor.Encoding.Basic
import ChartAdvisor.Encoding.Field
import ChartAdvisor.Encoding.Fill
import ChartAdvisor.Encoding.Open
import ChartAdvisor.Encoding.Scale
import ChartAdvisor.Encoding.Settings
import ChartAdvisor.Error.Basic
import ChartAdvisor.Error.Report
import ChartAdvisor.Event
import ChartAdvisor.Files
import ChartAdvisor.Grouping.Key
import ChartAdvisor.Grouping.Tree
import ChartAdvisor.Json.Basic
import ChartAdvisor.Json.Coded
import ChartAdvisor.Json.Printer
import ChartAdvisor.Json.Reader
import ChartAdvisor.Main
import ChartAdvisor.Number.Binary64
import ChartAdvisor.Number.Decimal
import ChartAdvisor.Number.Scientific
import ChartAdvisor.Proofs.Adorning
import ChartAdvisor.Proofs.Charting
import ChartAdvisor.Proofs.Draft.AgreeOff
import ChartAdvisor.Proofs.Draft.Coherence
import ChartAdvisor.Proofs.Draft.Commuting
import ChartAdvisor.Proofs.Draft.Counting
import ChartAdvisor.Proofs.Draft.Indexing
import ChartAdvisor.Proofs.Draft.Outline
import ChartAdvisor.Proofs.Draft.Progress
import ChartAdvisor.Proofs.Draft.Recording
import ChartAdvisor.Proofs.Draft.Refusing
import ChartAdvisor.Proofs.Draft.Resolving
import ChartAdvisor.Proofs.Draft.Sources
import ChartAdvisor.Proofs.Draft.Undoing
import ChartAdvisor.Proofs.Encoding.Change
import ChartAdvisor.Proofs.Encoding.Choosing
import ChartAdvisor.Proofs.Encoding.Coding
import ChartAdvisor.Proofs.Encoding.Commuting
import ChartAdvisor.Proofs.Encoding.Filling
import ChartAdvisor.Proofs.Encoding.Fitting
import ChartAdvisor.Proofs.Encoding.Inference
import ChartAdvisor.Proofs.Encoding.Listing
import ChartAdvisor.Proofs.Encoding.Nulls
import ChartAdvisor.Proofs.Encoding.Offering
import ChartAdvisor.Proofs.Encoding.Progress
import ChartAdvisor.Proofs.Encoding.Recoding
import ChartAdvisor.Proofs.Encoding.Standing
import ChartAdvisor.Proofs.Grouping.Arrangement
import ChartAdvisor.Proofs.Grouping.Folding
import ChartAdvisor.Proofs.Grouping.Keys
import ChartAdvisor.Proofs.Grouping.Partition
import ChartAdvisor.Proofs.Grouping.Regrouping
import ChartAdvisor.Proofs.Json.Numerals
import ChartAdvisor.Proofs.Json.Ordering
import ChartAdvisor.Proofs.Json.Reading
import ChartAdvisor.Proofs.Json.Remainder
import ChartAdvisor.Proofs.Number.Exactness
import ChartAdvisor.Proofs.Number.Rounding
import ChartAdvisor.Proofs.Ornaments
import ChartAdvisor.Proofs.Outcome
import ChartAdvisor.Proofs.Pointwise
import ChartAdvisor.Proofs.Query.Charts
import ChartAdvisor.Proofs.Query.Definitions
import ChartAdvisor.Proofs.Query.DisabledCounts
import ChartAdvisor.Proofs.Query.Offering
import ChartAdvisor.Proofs.Query.Recoding
import ChartAdvisor.Proofs.Query.Relabelling
import ChartAdvisor.Proofs.Query.Reordering
import ChartAdvisor.Proofs.Ranking.FieldOrder
import ChartAdvisor.Proofs.Ranking.Order
import ChartAdvisor.Proofs.Ranking.Reordering
import ChartAdvisor.Proofs.Ranking.Rounding
import ChartAdvisor.Proofs.Ranking.Sharing
import ChartAdvisor.Proofs.Ranking.Styling
import ChartAdvisor.Proofs.Recommendation
import ChartAdvisor.Proofs.Rules.Agreement
import ChartAdvisor.Proofs.Rules.ChartForesight
import ChartAdvisor.Proofs.Rules.Dependence
import ChartAdvisor.Proofs.Rules.EncodingForesight
import ChartAdvisor.Proofs.Rules.Errors
import ChartAdvisor.Proofs.Rules.Footprint
import ChartAdvisor.Proofs.Rules.Persistence
import ChartAdvisor.Proofs.Rules.Relaxing
import ChartAdvisor.Proofs.Rules.Styling
import ChartAdvisor.Proofs.Rules.Transposition
import ChartAdvisor.Proofs.Rules.Verdict
import ChartAdvisor.Proofs.Search.Abreast
import ChartAdvisor.Proofs.Search.Blame
import ChartAdvisor.Proofs.Search.ChartTexts
import ChartAdvisor.Proofs.Search.Completeness
import ChartAdvisor.Proofs.Search.Copying
import ChartAdvisor.Proofs.Search.Course
import ChartAdvisor.Proofs.Search.Distinct
import ChartAdvisor.Proofs.Search.Exploring
import ChartAdvisor.Proofs.Search.Failure
import ChartAdvisor.Proofs.Search.Finality
import ChartAdvisor.Proofs.Search.InPlace
import ChartAdvisor.Proofs.Search.Interchange
import ChartAdvisor.Proofs.Search.Lasting
import ChartAdvisor.Proofs.Search.Legibility
import ChartAdvisor.Proofs.Search.Narrowing
import ChartAdvisor.Proofs.Search.Neglect
import ChartAdvisor.Proofs.Search.Oversight
import ChartAdvisor.Proofs.Search.Pending
import ChartAdvisor.Proofs.Search.Placing
import ChartAdvisor.Proofs.Search.Precedence
import ChartAdvisor.Proofs.Search.Relaxing
import ChartAdvisor.Proofs.Search.Reordering
import ChartAdvisor.Proofs.Search.Replaying
import ChartAdvisor.Proofs.Search.Resolution
import ChartAdvisor.Proofs.Search.Settling
import ChartAdvisor.Proofs.Search.Soundness
import ChartAdvisor.Proofs.Search.Violations
import ChartAdvisor.Proofs.Shorthand.Canonical
import ChartAdvisor.Proofs.Shorthand.Charts
import ChartAdvisor.Proofs.Shorthand.Cutting
import ChartAdvisor.Proofs.Shorthand.Definitions
import ChartAdvisor.Proofs.Shorthand.Enclosure
import ChartAdvisor.Proofs.Shorthand.Fields
import ChartAdvisor.Proofs.Shorthand.Legible
import ChartAdvisor.Proofs.Shorthand.OpenSlots
import ChartAdvisor.Proofs.Shorthand.Parameters
import ChartAdvisor.Proofs.Shorthand.QuotedValues
import ChartAdvisor.Proofs.Shorthand.Reading
import ChartAdvisor.Proofs.Shorthand.Recoding
import ChartAdvisor.Proofs.Shorthand.Recoverable
import ChartAdvisor.Proofs.Shorthand.Resolved
import ChartAdvisor.Proofs.Shorthand.Rewriting
import ChartAdvisor.Proofs.Shorthand.RoundTrip
import ChartAdvisor.Proofs.Shorthand.Scanning
import ChartAdvisor.Proofs.Shorthand.Shown
import ChartAdvisor.Proofs.Shorthand.Transparent
import ChartAdvisor.Proofs.Sorting
import ChartAdvisor.Proofs.Stacking
import ChartAdvisor.Proofs.Styling
import ChartAdvisor.Proofs.Table
import ChartAdvisor.Property
import ChartAdvisor.Query.Basic
import ChartAdvisor.Query.Chart
import ChartAdvisor.Ranking.Basic
import ChartAdvisor.Ranking.Effectiveness
import ChartAdvisor.Ranking.Score
import ChartAdvisor.Recommendation
import ChartAdvisor.Rules.Basic
import ChartAdvisor.Rules.OnCharts
import ChartAdvisor.Rules.OnEncodings
import ChartAdvisor.Schema.Basic
import ChartAdvisor.Search.Generate
import ChartAdvisor.Search.Walk
import ChartAdvisor.Shorthand.Parser
import ChartAdvisor.Shorthand.Printer
import ChartAdvisor.Shorthand.Scanner
import ChartAdvisor.Slot
import ChartAdvisor.Style
import ChartAdvisor.Table
import ChartAdvisor.Text
import ChartAdvisor.Text.Escaped
import ChartAdvisor.Vocabulary.Basic
import ChartAdvisor.Vocabulary.Traits
import ChartAdvisor.Vocabulary.Words
import ChartAdvisor.Yaml.Reader
import ChartAdvisor.Yaml.Scalar

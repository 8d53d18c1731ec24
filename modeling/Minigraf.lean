import Minigraf.Browser.Buffer
import Minigraf.Browser.FailedFlush
import Minigraf.Browser.Flush
import Minigraf.Db.Atomicity
import Minigraf.Db.Calls
import Minigraf.Db.Counter
import Minigraf.Db.Handle
import Minigraf.Db.Invariant
import Minigraf.Db.Ledgers
import Minigraf.Db.Numbering
import Minigraf.Db.QueryReads
import Minigraf.Db.ReadYourWrites
import Minigraf.Db.Recovery
import Minigraf.Db.World
import Minigraf.Db.WriteTransaction
import Minigraf.Error
import Minigraf.Graph.FactStorage
import Minigraf.Graph.Lookups
import Minigraf.Graph.NetView
import Minigraf.Graph.Pending
import Minigraf.Graph.Ranges
import Minigraf.Graph.Temporal
import Minigraf.Graph.Types
import Minigraf.Graph.Visible
import Minigraf.Lib.BigEndian
import Minigraf.Lib.Binary64
import Minigraf.Lib.BreadthFirst
import Minigraf.Lib.Bytes
import Minigraf.Lib.Codec
import Minigraf.Lib.Comparison
import Minigraf.Lib.Digraph
import Minigraf.Lib.FiniteFloats
import Minigraf.Lib.Frame
import Minigraf.Lib.Greedy
import Minigraf.Lib.Grouping
import Minigraf.Lib.Ledger
import Minigraf.Lib.Readers
import Minigraf.Lib.Results
import Minigraf.Lib.Rounding
import Minigraf.Lib.Saturation
import Minigraf.Lib.Serial
import Minigraf.Lib.Slots
import Minigraf.Lib.Sorted
import Minigraf.Lib.Sorting
import Minigraf.Lib.Walk
import Minigraf.Lib.WordOrder
import Minigraf.Lib.Wp
import Minigraf.Query.AggregateLaws
import Minigraf.Query.AggregateValues
import Minigraf.Query.Aggregates
import Minigraf.Query.Aggregation
import Minigraf.Query.Commands
import Minigraf.Query.Correlation
import Minigraf.Query.Demand
import Minigraf.Query.Disjunction
import Minigraf.Query.Edn
import Minigraf.Query.Evaluation
import Minigraf.Query.Exclusion
import Minigraf.Query.Executor
import Minigraf.Query.Expr
import Minigraf.Query.FactFetch
import Minigraf.Query.Fixpoint
import Minigraf.Query.FloatBits
import Minigraf.Query.Footprint
import Minigraf.Query.Growth
import Minigraf.Query.HashJoin
import Minigraf.Query.Joining
import Minigraf.Query.LeastModel
import Minigraf.Query.Lexemes
import Minigraf.Query.LexicalLimits
import Minigraf.Query.Literals
import Minigraf.Query.MagicSets
import Minigraf.Query.Matcher
import Minigraf.Query.Matching
import Minigraf.Query.Negation
import Minigraf.Query.Optimizer
import Minigraf.Query.OrderBy
import Minigraf.Query.Outputs
import Minigraf.Query.Parser
import Minigraf.Query.PerfectModel
import Minigraf.Query.Placement
import Minigraf.Query.Prepared
import Minigraf.Query.PreparedMeaning
import Minigraf.Query.QueryText
import Minigraf.Query.Reading
import Minigraf.Query.Recursion
import Minigraf.Query.Repl
import Minigraf.Query.ReplCommands
import Minigraf.Query.ReplDocuments
import Minigraf.Query.ReplLayout
import Minigraf.Query.ReplLexemes
import Minigraf.Query.ReplLines
import Minigraf.Query.ReplNesting
import Minigraf.Query.ReplRun
import Minigraf.Query.ReplStrings
import Minigraf.Query.RuleSafety
import Minigraf.Query.Rules
import Minigraf.Query.Safety
import Minigraf.Query.SlotFilling
import Minigraf.Query.Slots
import Minigraf.Query.Solutions
import Minigraf.Query.Strata
import Minigraf.Query.Stratification
import Minigraf.Query.Stratified
import Minigraf.Query.Substitution
import Minigraf.Query.Tokens
import Minigraf.Query.Truncation
import Minigraf.Query.Types
import Minigraf.Query.ValueHash
import Minigraf.Query.ValueOrder
import Minigraf.Query.WindowColumns
import Minigraf.Query.WindowCorrectness
import Minigraf.Query.WindowOps
import Minigraf.Query.WindowOrder
import Minigraf.Query.WindowPartitions
import Minigraf.Query.WindowRanks
import Minigraf.Query.WindowSums
import Minigraf.Query.Windows
import Minigraf.Storage.Answers
import Minigraf.Storage.Bounds
import Minigraf.Storage.Btree.Build
import Minigraf.Storage.Btree.Cycles
import Minigraf.Storage.Btree.Gap
import Minigraf.Storage.Btree.Handed
import Minigraf.Storage.Btree.Levels
import Minigraf.Storage.Btree.Merge
import Minigraf.Storage.Btree.Pages
import Minigraf.Storage.Btree.Ranges
import Minigraf.Storage.Btree.Rebuild
import Minigraf.Storage.Btree.Scan
import Minigraf.Storage.Btree.Tree
import Minigraf.Storage.Device
import Minigraf.Storage.ExactLookups
import Minigraf.Storage.Frame
import Minigraf.Storage.Header
import Minigraf.Storage.HeaderBytes
import Minigraf.Storage.Image
import Minigraf.Storage.Index
import Minigraf.Storage.IndexPages
import Minigraf.Storage.LegacyCrash
import Minigraf.Storage.LegacyFacts
import Minigraf.Storage.LegacyFile
import Minigraf.Storage.LegacyLoad
import Minigraf.Storage.LegacyOpen
import Minigraf.Storage.LegacyTorn
import Minigraf.Storage.Load
import Minigraf.Storage.MigratedIndexes
import Minigraf.Storage.Migration
import Minigraf.Storage.PackedPages
import Minigraf.Storage.PackedRoundTrip
import Minigraf.Storage.PageCache
import Minigraf.Storage.PersistentFacts
import Minigraf.Storage.Postcard
import Minigraf.Storage.Restore
import Minigraf.Storage.Rounds
import Minigraf.Storage.Save
import Minigraf.Storage.Separators
import Minigraf.Storage.SmallFacts
import Minigraf.Storage.Sound
import Minigraf.Storage.Transparency
import Minigraf.Storage.ValueEncoding
import Minigraf.Storage.Writes
import Minigraf.Wal.Format
import Minigraf.Wal.Run
import Minigraf.Wal.Truncation

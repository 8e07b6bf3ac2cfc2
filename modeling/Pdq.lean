import Pdq.Theory.SharedStamp
import Pdq.Theory.FiniteMap
import Pdq.Theory.SqlText
import Pdq.Theory.SharedFiles
import Pdq.Theory.Simulation
import Pdq.Theory.Tally
import Pdq.Theory.Xorshift
import Pdq.Theory.Labels
import Pdq.KeyFormat
import Pdq.FileTree
import Pdq.Index.Metadata
import Pdq.Index.FileHash
import Pdq.Index.Indexer
import Pdq.Index.Crash
import Pdq.Index.Incremental
import Pdq.Index.Overlap
import Pdq.Index.Convergence
import Pdq.Index.Prune
import Pdq.Index.Walk
import Pdq.Index.Maintenance
import Pdq.Index.OneColumn
import Pdq.Index.Processes
import Pdq.Query.ReadBack
import Pdq.Query.ExactSearch
import Pdq.Query.PrefixSearch
import Pdq.Query.RangeSearch
import Pdq.Query.CliRange
import Pdq.Query.Batch
import Pdq.Query.Unextracted
import Pdq.Query.SharedCache
import Pdq.Query.SearchRequest
import Pdq.Query.Handle
import Pdq.Query.Beside
import Pdq.Query.Maintained
import Pdq.Query.Forced
import Pdq.Provider.BruteForce
import Pdq.Provider.SharedFst
import Pdq.Provider.Execute
import Pdq.Provider.Unanswered
import Pdq.Provider.Intersection
import Pdq.Provider.FilterOrder
import Pdq.Provider.AccessPlan
import Pdq.Provider.Duplicates
import Pdq.Provider.LongLived
import Pdq.Provider.MetadataCache
import Pdq.Provider.SingleParse
import Pdq.Provider.MetadataTraffic
import Pdq.Provider.Table
import Pdq.Provider.Coverage
import Pdq.Provider.Pruning
import Pdq.Provider.Settled
import Pdq.Provider.Handle
import Pdq.Shootout.Corpus
import Pdq.Shootout.Manifest
import Pdq.Shootout.ReverseDomain
import Pdq.Shootout.BloomProbe
import Pdq.Cli.QueryText
import Pdq.Cli.System
import Pdq.Cli.Query
import Pdq.Python.Session

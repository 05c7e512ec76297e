import BitcoinIndexer.Core.Interleaving
import BitcoinIndexer.Core.Stages
import BitcoinIndexer.Core.Finishing
import BitcoinIndexer.Core.OrderedMap
import BitcoinIndexer.Core.KeyedTable
import BitcoinIndexer.Core.CancelingLog
import BitcoinIndexer.Core.InsertedMap
import BitcoinIndexer.Core.Joins
import BitcoinIndexer.Core.FairRuns
import BitcoinIndexer.Core.Observed
import BitcoinIndexer.Core.StepRelations
import BitcoinIndexer.Core.Polling
import BitcoinIndexer.Core.SqlText
import BitcoinIndexer.Types
import BitcoinIndexer.Db.Tables
import BitcoinIndexer.Db.Formatter
import BitcoinIndexer.Db.UtxoSetCache
import BitcoinIndexer.Db.HashParts
import BitcoinIndexer.Db.StatementSize
import BitcoinIndexer.Db.Rows
import BitcoinIndexer.Db.QueryText
import BitcoinIndexer.Db.QueryTables
import BitcoinIndexer.Db.ReadBack
import BitcoinIndexer.Db.Execution
import BitcoinIndexer.Db.Worker
import BitcoinIndexer.Db.IndexerStore
import BitcoinIndexer.Pipeline.Transition
import BitcoinIndexer.Pipeline.Invariant
import BitcoinIndexer.Pipeline.Accesses
import BitcoinIndexer.Pipeline.Programs
import BitcoinIndexer.Pipeline.Order
import BitcoinIndexer.Pipeline.RateReport
import BitcoinIndexer.Pipeline.Ending
import BitcoinIndexer.Pipeline.CallsEnd
import BitcoinIndexer.Pipeline.Draining
import BitcoinIndexer.Chain.Representation
import BitcoinIndexer.Chain.BlockTree
import BitcoinIndexer.Chain.Grounded
import BitcoinIndexer.Chain.Following
import BitcoinIndexer.Chain.Replacement
import BitcoinIndexer.Chain.Reorg
import BitcoinIndexer.Chain.Calls
import BitcoinIndexer.Chain.Opening
import BitcoinIndexer.Chain.Schedules
import BitcoinIndexer.Chain.Guarantees
import BitcoinIndexer.Chain.HashByHeight
import BitcoinIndexer.Chain.MinedTransactions
import BitcoinIndexer.Chain.CurrentHeight
import BitcoinIndexer.Chain.UniqueKeys
import BitcoinIndexer.Chain.FailedReorg
import BitcoinIndexer.Chain.EventLog
import BitcoinIndexer.Modes.Keeping
import BitcoinIndexer.Modes.ChainHead
import BitcoinIndexer.Modes.RunningMode
import BitcoinIndexer.Modes.PersistedMode
import BitcoinIndexer.Fees.SpentOutputs
import BitcoinIndexer.Chain.StoredTables
import BitcoinIndexer.Fees.Cache
import BitcoinIndexer.Fees.StoredOutputs
import BitcoinIndexer.Fees.Batches
import BitcoinIndexer.Fees.Independence
import BitcoinIndexer.Fees.AlongChain
import BitcoinIndexer.Node.Prefetcher
import BitcoinIndexer.Node.Transition
import BitcoinIndexer.Node.YieldedChain
import BitcoinIndexer.Node.Answers
import BitcoinIndexer.Node.Workers
import BitcoinIndexer.Node.Generation
import BitcoinIndexer.Node.BackOff
import BitcoinIndexer.Node.Window
import BitcoinIndexer.Node.Progress
import BitcoinIndexer.Node.Convergence
import BitcoinIndexer.Node.Liveness
import BitcoinIndexer.Node.Fetcher
import BitcoinIndexer.Node.ChainEnd
import BitcoinIndexer.Node.HeadReached
import BitcoinIndexer.Node.EndHeight
import BitcoinIndexer.Node.Severed
import BitcoinIndexer.Mempool.Store
import BitcoinIndexer.Mempool.Done
import BitcoinIndexer.Mempool.Partial
import BitcoinIndexer.Mempool.Variants
import BitcoinIndexer.Mempool.FirstWriter
import BitcoinIndexer.Views.MempoolIds
import BitcoinIndexer.Views.Balances
import BitcoinIndexer.Views.Replay
import BitcoinIndexer.Views.ChainBalances
import BitcoinIndexer.Views.EventSource
import BitcoinIndexer.Views.Follower
import BitcoinIndexer.Modes.BatchCounter
import BitcoinIndexer.Modes.AtHead
import BitcoinIndexer.Modes.Quiescent
import BitcoinIndexer.Process.Indexer
import BitcoinIndexer.Process.Refinement
import BitcoinIndexer.Process.Safety
import BitcoinIndexer.Process.Calls
import BitcoinIndexer.Process.CallsEnd
import BitcoinIndexer.Process.Reaching
import BitcoinIndexer.Process.Arrival
import BitcoinIndexer.Process.Committed
import BitcoinIndexer.Process.Balances
import BitcoinIndexer.Process.Subscribed
import BitcoinIndexer.Process.Stranded

import ChainGraph.Foundation.Table
import ChainGraph.Foundation.Lru
import ChainGraph.Foundation.Prog
import ChainGraph.Foundation.Session
import ChainGraph.Foundation.Runs
import ChainGraph.Foundation.Words
import ChainGraph.Foundation.Bytes
import ChainGraph.Parser.Block
import ChainGraph.Parser.Address
import ChainGraph.Parser.BlockIndex
import ChainGraph.Parser.SingleBlockLoader
import ChainGraph.Domain.Models
import ChainGraph.Domain.Utxo
import ChainGraph.Domain.Snapshot
import ChainGraph.Domain.Ingestion
import ChainGraph.Writer.Error
import ChainGraph.Writer.Graph
import ChainGraph.Writer.Queries
import ChainGraph.Writer.Neo4j
import ChainGraph.Main.Streaming
import ChainGraph.Main.Process
import ChainGraph.Main.Live
import ChainGraph.Laws.Writer
import ChainGraph.Laws.Effects
import ChainGraph.Laws.Blocks
import ChainGraph.Laws.Lookup
import ChainGraph.Laws.Chunk
import ChainGraph.Laws.Block
import ChainGraph.Laws.Growth
import ChainGraph.Laws.Coins
import ChainGraph.Laws.Batch
import ChainGraph.Laws.Recovery
import ChainGraph.Laws.Transparency
import ChainGraph.Laws.Errors
import ChainGraph.Laws.Linkage
import ChainGraph.Laws.Live
import ChainGraph.Laws.Forks
import ChainGraph.Laws.Checkpoint
import ChainGraph.Laws.Behind
import ChainGraph.Laws.Values
import ChainGraph.Laws.Sound
import ChainGraph.Laws.Tally
import ChainGraph.Laws.Grown
import ChainGraph.Laws.Ready
import ChainGraph.Laws.Pending
import ChainGraph.Laws.Image
import ChainGraph.Laws.Retry
import ChainGraph.Laws.Reorg
import ChainGraph.Laws.Varint
import ChainGraph.Laws.Index
import ChainGraph.Laws.Snapshot
import ChainGraph.Writer.Traits
import ChainGraph.Writer.Mock
import ChainGraph.Laws.Resume
import ChainGraph.Laws.Shards
import ChainGraph.Laws.Address
import ChainGraph.Parser.Prewarm
import ChainGraph.Laws.Prewarm
import ChainGraph.Foundation.Segments
import ChainGraph.Laws.Chunking
import ChainGraph.Parser.BlockFile
import ChainGraph.Laws.BlockFile
import ChainGraph.Laws.Records
import ChainGraph.Laws.Idempotence
import ChainGraph.Laws.Uniqueness
import ChainGraph.Laws.Synced
import ChainGraph.Laws.Detour
import ChainGraph.Foundation.Crashes
import ChainGraph.Laws.Sent
import ChainGraph.Laws.Torn
import ChainGraph.Laws.Repair
import ChainGraph.Foundation.History
import ChainGraph.Laws.Retention
import ChainGraph.Laws.Regroup
import ChainGraph.Foundation.Pool
import ChainGraph.Parser.RpcProvider
import ChainGraph.Laws.RpcProvider
import ChainGraph.Main.Config
import ChainGraph.Laws.Config
import ChainGraph.Laws.Buckets
import ChainGraph.Foundation.Hex
import ChainGraph.Domain.Text
import ChainGraph.Laws.Text
import ChainGraph.Laws.Targeted
import ChainGraph.Laws.Resumed
import ChainGraph.Laws.Interrupted
import ChainGraph.Laws.Locks
import ChainGraph.Laws.Counters
import ChainGraph.Foundation.Outcomes
import ChainGraph.Foundation.Crew
import ChainGraph.Foundation.Orderly
import ChainGraph.Laws.Confined
import ChainGraph.Laws.Escape
import ChainGraph.Foundation.Serial
import ChainGraph.Laws.Atomic
import ChainGraph.Foundation.Refine
import ChainGraph.Laws.Truthful
import ChainGraph.Laws.Mirror
import ChainGraph.Laws.Ledger
import ChainGraph.Foundation.Delivery
import ChainGraph.Laws.Delivery
import ChainGraph.Laws.AtLeastOnce
import ChainGraph.Laws.RolledBack
import ChainGraph.Foundation.Summaries
import ChainGraph.Laws.Books
import ChainGraph.Parser.ZmqListener
import ChainGraph.Laws.ZmqListener
import ChainGraph.Laws.Loader
import ChainGraph.Foundation.Alike
import ChainGraph.Main.Files
import ChainGraph.Laws.Files
import ChainGraph.Laws.Entries
import ChainGraph.Laws.Directory
import ChainGraph.Laws.Streamed
import ChainGraph.Laws.Following
import ChainGraph.Laws.Sources
import ChainGraph.Laws.OneByOne
import ChainGraph.Laws.Losses
import ChainGraph.Laws.Agreement

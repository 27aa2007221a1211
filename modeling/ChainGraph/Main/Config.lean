import ChainGraph.Domain.Ingestion
import ChainGraph.Foundation.Words

/-!
# The configuration

What is read from the configuration file, its validation, and what the process derives from it: the
capacity of the cache, the memory budget of a transaction and the writer. A `usize` has 64 bits, and
an overflow is the panic it is in a checked build; elsewhere the product wraps.
-/

namespace ChainGraph

open Foundation

/-! ## Batched calls -/

/-- A slice and the method of the writer that is called with it. -/
structure BatchedCall where
  {Item : Type}
  items : List Item
  method : Neo4jWriter → List Item → Io Unit
  idle : ∀ w, method w [] = pure ()

def BatchedCall.made (call : BatchedCall) (w : Neo4jWriter) : Io Unit := call.method w call.items

/-- The batched calls for a block or a chunk, phase by phase. -/
structure BatchedCalls where
  blocks : BatchedCall
  outputs : BatchedCall
  transactions : BatchedCall
  hasOutputs : BatchedCall
  inputs : BatchedCall
  performs : List BatchedCall
  benefits : List BatchedCall

def BatchedCalls.all (calls : BatchedCalls) : List BatchedCall :=
  [calls.blocks, calls.outputs, calls.transactions, calls.hasOutputs, calls.inputs] ++
    calls.performs ++ calls.benefits

namespace IngestionOrchestrator

variable (o : IngestionOrchestrator)

def performsCall (performs : List PerformsData) : BatchedCall :=
  ⟨performs, Neo4jWriter.writePerforms, fun _ => rfl⟩

def benefitsCall (benefits : List BenefitsToData) : BatchedCall :=
  ⟨benefits, Neo4jWriter.writeBenefitsTo, fun _ => rfl⟩

/-- As `ingest_block` makes them. -/
def blockCalls (block : Block) (height : ℕ) (allOutputs : Found) : BatchedCalls where
  blocks := ⟨[.fromBlock block height], Neo4jWriter.writeBlocks, fun _ => rfl⟩
  outputs := ⟨block.txdata.flatMap o.outputsOf, Neo4jWriter.writeOutputs, fun _ => rfl⟩
  transactions :=
    ⟨block.txdata.map (priceTransactionInBlock allOutputs block height),
      Neo4jWriter.writeTransactions, fun _ => rfl⟩
  hasOutputs :=
    ⟨block.txdata.flatMap o.outputsOf, Neo4jWriter.writeHasOutputRelationships, fun _ => rfl⟩
  inputs := ⟨block.txdata.flatMap (inputsOf height), Neo4jWriter.writeInputs, fun _ => rfl⟩
  performs := [performsCall (block.txdata.flatMap (performsOf allOutputs))]
  benefits := [benefitsCall (block.txdata.flatMap o.benefitsOf)]

/-- As `process_batch_chunk` makes them: with a block at a BIP30 height, three of the methods are
those that merge. -/
def chunkCalls (chunk : List LocatedBlock) (allOutputs : Found) : BatchedCalls :=
  let hasBip30 := chunk.any fun b => bip30DuplicateHeights.contains b.height
  let txs := chunk.flatMap (·.block.txdata)
  let outputData := txs.flatMap o.outputsOf
  let transactionData := chunk.flatMap fun b =>
    b.block.txdata.map (priceTransaction allOutputs b.block b.height)
  let inputData := chunk.flatMap fun b => b.block.txdata.flatMap (inputsOf b.height)
  { blocks :=
      ⟨chunk.map fun b => .fromBlock b.block b.height, Neo4jWriter.writeBlocksFast, fun _ => rfl⟩
    outputs :=
      if hasBip30 then ⟨outputData, Neo4jWriter.writeOutputs, fun _ => rfl⟩
      else ⟨outputData, Neo4jWriter.writeOutputsFast, fun _ => rfl⟩
    transactions :=
      if hasBip30 then ⟨transactionData, Neo4jWriter.writeTransactions, fun _ => rfl⟩
      else ⟨transactionData, Neo4jWriter.writeTransactionsFast, fun _ => rfl⟩
    hasOutputs := ⟨outputData, Neo4jWriter.writeHasOutputRelationshipsFast, fun _ => rfl⟩
    inputs :=
      if hasBip30 then ⟨inputData, Neo4jWriter.writeInputs, fun _ => rfl⟩
      else ⟨inputData, Neo4jWriter.writeInputsFast, fun _ => rfl⟩
    performs :=
      (partitionPerformsByAddress o.stringHash (txs.flatMap (performsOf allOutputs))
        numBuckets).map performsCall
    benefits :=
      (partitionBenefitsByAddress o.stringHash (txs.flatMap o.benefitsOf) numBuckets).map
        benefitsCall }

end IngestionOrchestrator

namespace Configuration

/-- The connection and the writer. -/
structure Neo4jConfig where
  uri : String
  maxConnections : UInt64
  minConnections : UInt64
  maxRetries : UInt64
  writeBatchSize : UInt64
  queryTimeoutSecs : UInt64

structure IngestionConfig where
  maxTransactionMemoryMb : UInt64

structure PerformanceConfig where
  utxoCacheMemoryMb : UInt64
  parallelBatches : UInt64

structure Config where
  neo4j : Neo4jConfig
  ingestion : IngestionConfig
  performance : PerformanceConfig

/-- `Config::default`. -/
def Config.default : Config where
  neo4j :=
    { uri := "bolt://localhost:7687"
      maxConnections := 20
      minConnections := 2
      maxRetries := 3
      writeBatchSize := 5000
      queryTimeoutSecs := 120 }
  ingestion := { maxTransactionMemoryMb := 600 }
  performance := { utxoCacheMemoryMb := 140, parallelBatches := 4 }

/-! ## Validation -/

inductive ConfigError where
  | ValidationError (message : String)
deriving DecidableEq, Repr

/-- Refuse a value. -/
def refuseIf (bad : Bool) (message : String) : Except ConfigError Unit :=
  if bad then .error (.ValidationError message) else .ok ()

/-- Validate configuration values. -/
def Config.validate (c : Config) : Except ConfigError Unit := do
  refuseIf (c.neo4j.uri = "") "Neo4j URI cannot be empty"
  refuseIf (c.neo4j.maxConnections = 0) "max_connections must be > 0"
  refuseIf (c.neo4j.minConnections > c.neo4j.maxConnections)
    "min_connections cannot exceed max_connections"
  refuseIf (c.ingestion.maxTransactionMemoryMb = 0) "max_transaction_memory_mb must be > 0"
  refuseIf (c.performance.utxoCacheMemoryMb = 0) "utxo_cache_memory_mb must be > 0"
  refuseIf (c.performance.parallelBatches = 0) "parallel_batches must be > 0"

/-! ## What is derived -/

/-- Convert memory budget to cache entry count. -/
def PerformanceConfig.cacheCapacity (c : PerformanceConfig) : Checked Empty UInt64 := do
  let bytes ← Checked.mul c.utxoCacheMemoryMb 1000000
  pure (bytes / 72)

/-- `with_max_transaction_memory_mb`: the budget in bytes. -/
def withMaxTransactionMemoryMb (mb : UInt64) : Checked Empty UInt64 := do
  let kilobytes ← Checked.mul mb 1024
  Checked.mul kilobytes 1024

namespace Neo4jConfig

variable (c : Neo4jConfig)

/-- The writer, if it can split a slice. -/
def writer (able : 0 < c.writeBatchSize.toNat) : Neo4jWriter where
  batchSize := c.writeBatchSize.toNat
  batchSize_pos := able
  maxRetries := c.maxRetries.toNat
  queryTimeoutSecs := c.queryTimeoutSecs.toNat

/-- A batched method divides the length of its slice by the batch size and splits the slice by it,
unless the slice is empty. -/
def batched (call : BatchedCall) : Checked Empty (Io Unit) :=
  if call.items.isEmpty then .ok (pure ())
  else if able : 0 < c.writeBatchSize.toNat then .ok (call.made (c.writer able))
  else .error (.panicked .divideByZero)

end Neo4jConfig

end Configuration

end ChainGraph

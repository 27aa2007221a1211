import ChainGraph.Writer.Neo4j

/-!
# The ingestion orchestrator

Blocks become graph writes in phases: blocks, outputs (with the cache filled beside the write),
transactions priced from the cache, `HAS_OUTPUT`, inputs, the simplified layer, cache cleanup,
checkpoint. `ingest_block` does this for one block with direct statements; `ingest_blocks_batch`
splits its list by estimated memory and does it for each chunk inside a transaction.

Concurrent parts of the source appear as follows. The output write and the cache inserts beside it
touch different state, so they are written one after the other, the inserts made whether or not
the write succeeds. The bucket tasks of the simplified layer are forked, and what orders they can
run in is left to the reading of the program. A hash map is listed in the order its keys were
first seen; no result depends on that order.
-/

namespace ChainGraph

open Foundation

/-- Programs of the orchestrator: a session with the graph, the cache, and forked tasks. -/
abbrev Ingest : Type → Type := Prog (Client neo4j UtxoCache WriterError) WriterError

/-- A writer method called by the orchestrator. -/
def io {α : Type} (p : Io α) : Ingest α := p.lift (World.ofSession neo4j UtxoCache WriterError)

def getCache : Ingest UtxoCache :=
  Prog.perform (I := Client neo4j UtxoCache WriterError) .get

def setCache (c : UtxoCache) : Ingest Unit :=
  Prog.perform (I := Client neo4j UtxoCache WriterError) (.set c)

def modifyCache (f : UtxoCache → UtxoCache) : Ingest Unit := do
  let c ← getCache
  setCache (f c)

/-- Spawn the tasks, then wait for them in order; the first failure ends the wait. -/
def spawnAll (tasks : List (Io Unit)) : Ingest Unit := do
  let outcome ← Prog.perform (I := Client neo4j UtxoCache WriterError) (.fork tasks)
  Prog.ofExcept outcome

structure IngestionOrchestrator where
  writer : Neo4jWriter
  network : Network
  crate : AddressCrate
  /-- `DefaultHasher`, which assigns addresses to buckets. -/
  stringHash : String → UInt64
  maxTransactionMemoryBytes : ℕ

structure BatchStats where
  transactions : ℕ
  outputs : ℕ
  inputs : ℕ
  chunks : ℕ
deriving DecidableEq, Repr

/-! ## Memory estimates and chunks -/

def bytesPerBlock : ℕ := 3500

def bytesPerTx : ℕ := 3000

def bytesPerOutput : ℕ := 3500

def bytesPerInput : ℕ := 2500

/-- Estimated heap cost of a block in a database transaction. -/
def estimateBlockMemory (block : Block) : ℕ :=
  let txCount := block.txdata.length
  let outputCount := (block.txdata.map (·.output.length)).sum
  let inputCount := (block.txdata.map (·.input.length)).sum
  bytesPerBlock + txCount * bytesPerTx + outputCount * bytesPerOutput + inputCount * bytesPerInput

/-- The variables of the chunking loop; a range is its first index and the one past its last. -/
structure ChunkState where
  chunks : List (ℕ × ℕ)
  chunkStart : ℕ
  chunkMemory : ℕ
deriving DecidableEq, Repr

/-- One block of the chunking loop. -/
def chunkStep (maxMemoryBytes : ℕ) (s : ChunkState) (block : ℕ × ℕ) : ChunkState :=
  let (mem, i) := block
  let s :=
    if s.chunkMemory + mem > maxMemoryBytes ∧ i > s.chunkStart then
      ⟨s.chunks ++ [(s.chunkStart, i)], i, 0⟩
    else s
  let s := { s with chunkMemory := s.chunkMemory + mem }
  if mem > maxMemoryBytes ∧ i = s.chunkStart then
    ⟨s.chunks ++ [(s.chunkStart, i + 1)], i + 1, 0⟩
  else s

/-- Ranges of blocks that fit the budget; a block over the budget stands alone. -/
def computeAdaptiveChunks (blockMemories : List ℕ) (maxMemoryBytes : ℕ) : List (ℕ × ℕ) :=
  if blockMemories.isEmpty then []
  else
    let s := blockMemories.zipIdx.foldl (chunkStep maxMemoryBytes) ⟨[], 0, 0⟩
    if s.chunkStart < blockMemories.length then
      s.chunks ++ [(s.chunkStart, blockMemories.length)]
    else s.chunks

/-- The elements of a range. -/
def slice {α : Type} (l : List α) (range : ℕ × ℕ) : List α :=
  (l.drop range.1).take (range.2 - range.1)

/-! ## Data accumulated from blocks -/

def bip30DuplicateHeights : List ℕ := [91842, 91880]

def collectInputKeys (blocks : List LocatedBlock) : List UtxoKey :=
  (((blocks.flatMap (·.block.txdata)).filter (! ·.isCoinbase)).flatMap (·.input)).map
    fun input => .fromOutpoint input.previousOutput

/-- The keys of a transaction's previous outputs; a coinbase has none. -/
def Transaction.inputKeys (tx : Transaction) : List UtxoKey :=
  if tx.isCoinbase then [] else tx.input.map fun input => .fromOutpoint input.previousOutput

/-- The entry of an address, counted once more and its amount added. -/
def bumpEntry (address : Address) (amount : UInt64) :
    List (Address × UInt32 × UInt64) → List (Address × UInt32 × UInt64)
  | [] => [(address, 1, amount)]
  | (a, count, sum) :: rest =>
    if a = address then (a, count + 1, sum + amount) :: rest
    else (a, count, sum) :: bumpEntry address amount rest

/-- Number and total of the amounts of each address. -/
def tally (amounts : List (Address × UInt64)) : List (Address × UInt32 × UInt64) :=
  amounts.foldl (fun entries x => bumpEntry x.1 x.2 entries) []

def saturatingSub (a b : UInt64) : UInt64 := if b ≤ a then a - b else 0

/-- `sum()` of amounts. -/
def sumAmounts (amounts : List UInt64) : UInt64 := amounts.foldl (· + ·) 0

def Transaction.totalOutput (tx : Transaction) : UInt64 := sumAmounts (tx.output.map (·.value))

/-- Keys that were found add their amount; a key that was not is passed over. -/
def resolvedInputs (allOutputs : Found) (tx : Transaction) : List CachedOutput :=
  tx.inputKeys.filterMap allOutputs

/-- What each address spends in a transaction. -/
def performsOf (allOutputs : Found) (tx : Transaction) : List PerformsData :=
  (tally ((resolvedInputs allOutputs tx).filterMap fun output =>
      output.address.map fun address => (address, output.amount))).map
    fun (address, inputCount, amountSpent) =>
      { fromAddress := address, toTxid := tx.txid, inputCount, amountSpent }

/-- The transaction's record with its amounts, as the batch path computes them. -/
def priceTransaction (allOutputs : Found) (block : Block) (height : ℕ) (tx : Transaction) :
    TransactionData :=
  let totalInput := sumAmounts ((resolvedInputs allOutputs tx).map (·.amount))
  { TransactionData.fromTransaction tx height block.blockHash block.header.time with
    totalInput := some totalInput
    totalOutput := some tx.totalOutput
    fee := some (saturatingSub totalInput tx.totalOutput) }

/-- The same in the single-block path, which sets the fee of a coinbase on its own. -/
def priceTransactionInBlock (allOutputs : Found) (block : Block) (height : ℕ)
    (tx : Transaction) : TransactionData :=
  let totalInput := sumAmounts ((resolvedInputs allOutputs tx).map (·.amount))
  { TransactionData.fromTransaction tx height block.blockHash block.header.time with
    totalInput := some totalInput
    totalOutput := some tx.totalOutput
    fee := some (if tx.isCoinbase then 0 else saturatingSub totalInput tx.totalOutput) }

theorem saturatingSub_zero (b : UInt64) : saturatingSub 0 b = 0 := by
  unfold saturatingSub
  split
  · rename_i le
    have none : b = 0 := by
      rw [UInt64.le_iff_toNat_le] at le
      exact UInt64.toNat_inj.mp (Nat.le_zero.mp le)
    rw [none]
    rfl
  · rfl

/-- A coinbase has no keys, so its fee is zero either way. -/
theorem priceTransactionInBlock_eq (allOutputs : Found) (block : Block) (height : ℕ)
    (tx : Transaction) :
    priceTransactionInBlock allOutputs block height tx =
      priceTransaction allOutputs block height tx := by
  unfold priceTransactionInBlock priceTransaction
  by_cases coinbase : tx.isCoinbase
  · simp only [coinbase, if_true, resolvedInputs, Transaction.inputKeys, List.filterMap_nil,
      List.map_nil, sumAmounts, List.foldl_nil, saturatingSub_zero]
  · simp only [coinbase, if_false, Bool.false_eq_true]

def inputsOf (height : ℕ) (tx : Transaction) : List InputData :=
  tx.input.zipIdx.map fun (input, i) => .fromInput input tx.txid (asU32 i) height

/-- Put every output into the cache. -/
def populateCache (outputs : List OutputData) (c : UtxoCache) : UtxoCache :=
  outputs.foldl (fun c output =>
    match UtxoKey.fromHexTxid output.txid output.outputIndex with
    | some key => c.insert key (.ofOutput output)
    | none => c) c

/-! ## Lookups with fallback -/

/-- A map from output ids to rows, collected from the rows: the last one under an id stays. -/
def resultMap (results : List OutputLookupResult) (id : OutputId) : Option OutputLookupResult :=
  (results.filter (·.outputId = id)).getLast?

/-- One missed key: its row goes into the cache and the map, or it stays missing. -/
def absorbStep (results : List OutputLookupResult) (acc : UtxoCache × Found × List UtxoKey)
    (key : UtxoKey) : UtxoCache × Found × List UtxoKey :=
  match resultMap results key.toOutputId with
  | some lookup =>
    (acc.1.insert key (.ofLookup lookup),
      Function.update acc.2.1 key (some (.ofLookup lookup)), acc.2.2)
  | none => (acc.1, acc.2.1, acc.2.2 ++ [key])

/-- Take the rows found for the missed keys into the cache and the map; the others remain. -/
def absorbResults (results : List OutputLookupResult) (c : UtxoCache) (found : Found)
    (misses : List UtxoKey) : UtxoCache × Found × List UtxoKey :=
  misses.foldl (absorbStep results) (c, found, [])

/-- One key: if it is not in the map yet, add what a quiet lookup finds. -/
def supplementStep (acc : UtxoCache × Found) (key : UtxoKey) : UtxoCache × Found :=
  if (acc.2 key).isSome then acc
  else
    match acc.1.getQuiet key with
    | (.ok output, c) => (c, Function.update acc.2 key (some output))
    | (.error _, c) => (c, acc.2)

/-- Add what a quiet lookup finds for the keys that are not in the map yet. -/
def supplement (keys : List UtxoKey) (found : Found) (c : UtxoCache) : UtxoCache × Found :=
  keys.foldl supplementStep (c, found)

/-! ## Buckets -/

def numBuckets : ℕ := 8

def bucketIndex (hash : String → UInt64) (numBuckets : ℕ) (address : Address) : ℕ :=
  (hash address).toNat % numBuckets

/-- Push every item to the bucket of its address. -/
def partitionByAddress {α : Type} (hash : String → UInt64) (addressOf : α → Address)
    (items : List α) (numBuckets : ℕ) : List (List α) :=
  items.foldl (fun buckets item =>
    buckets.modify (bucketIndex hash numBuckets (addressOf item)) (· ++ [item]))
    (List.replicate numBuckets [])

def partitionPerformsByAddress (hash : String → UInt64) (performs : List PerformsData)
    (numBuckets : ℕ) : List (List PerformsData) :=
  partitionByAddress hash (·.fromAddress) performs numBuckets

def partitionBenefitsByAddress (hash : String → UInt64) (benefits : List BenefitsToData)
    (numBuckets : ℕ) : List (List BenefitsToData) :=
  partitionByAddress hash (·.toAddress) benefits numBuckets

/-! ## Checkpoint recovery and reorganization -/

namespace IngestionOrchestrator

variable (o : IngestionOrchestrator)

def initSchema : Io Unit := do
  match ← o.writer.getCheckpoint with
  | none => Neo4jWriter.createCheckpoint
  | some _ => pure ()

/-- The height after the checkpoint, or 0 at the initial checkpoint and without one. -/
def getResumeHeight : Io ℕ := do
  match ← o.writer.getCheckpoint with
  | some checkpoint =>
    if checkpoint.lastProcessedHeight < 0 then pure 0
    else pure ((checkpoint.lastProcessedHeight + 1) % 2 ^ 32).toNat
  | none => pure 0

/-- Walk down the heights to the first complete block, rolling back the others. -/
def findComplete (checkpointHeight : ℤ) : List ℕ → Io ℤ
  | [] => pure checkpointHeight
  | height :: rest => do
    let (expected, actual) ← Neo4jWriter.checkBlockComplete height
    if expected = actual ∧ actual > 0 then pure (asI32 height)
    else do
      Neo4jWriter.rollbackBlock height
      findComplete checkpointHeight rest

/-- The heights from `first` to `last`, from the last down. -/
def heightsDown (first last : ℕ) : List ℕ := (List.range' first (last + 1 - first)).reverse

/-- Store the checkpoint of a block found complete above the old checkpoint. -/
def saveRecovered (checkpoint : Option CheckpointData) (highestComplete : ℤ) : Io Unit := do
  let blockHash ← o.writer.lookupBlockHash (highestComplete % 2 ^ 32).toNat
  Neo4jWriter.updateCheckpoint
    { lastProcessedHeight := highestComplete
      lastProcessedHash := blockHash
      lastProcessedFile := (checkpoint.map (·.lastProcessedFile)).getD "recovered"
      lastProcessedFileOffset := none
      status := "in_progress" }

def syncCheckpointWithDb : Io ℕ := do
  let checkpoint ← o.writer.getCheckpoint
  let checkpointHeight := (checkpoint.map (·.lastProcessedHeight)).getD (-1)
  let maxDbHeight ← Neo4jWriter.getMaxBlockHeight
  match maxDbHeight with
  | none => o.getResumeHeight
  | some dbHeight =>
    if asI32 dbHeight > checkpointHeight then do
      -- `checkpoint_height as u32 + 1`: from -1 the sum wraps to 0
      let first := asU32 ((checkpointHeight % 2 ^ 32).toNat + 1)
      let highestComplete ← findComplete checkpointHeight (heightsDown first dbHeight)
      (if highestComplete > checkpointHeight then o.saveRecovered checkpoint highestComplete
        else pure ())
      pure ((highestComplete + 1) % 2 ^ 32).toNat
    else o.getResumeHeight

/-- The stored hash one below must be the block's previous hash, if there is one. -/
def validateParentHash (block : Block) (height : ℕ) : Io Unit :=
  if height = 0 then pure ()
  else do
    match ← o.writer.lookupBlockHash (height - 1) with
    | some hash =>
      if hash = block.header.prevBlockhash then pure ()
      else throw (.ReorgDetected height block.header.prevBlockhash hash)
    | none => pure ()

/-- Move the checkpoint to the fork point, if its block is stored. -/
def moveCheckpoint (forkPoint : ℕ) : Io Unit := do
  match ← o.writer.lookupBlockHash forkPoint with
  | some hash =>
    Neo4jWriter.updateCheckpoint
      { lastProcessedHeight := asI32 forkPoint
        lastProcessedHash := some hash
        lastProcessedFile := "rpc"
        lastProcessedFileOffset := none
        status := "in_progress" }
  | none => pure ()

/-- Roll back from the tip to just above the fork point, then move the checkpoint. -/
def rollbackToHeight (currentTip forkPoint : ℕ) : Io ℕ :=
  if forkPoint ≥ currentTip then pure 0
  else do
    (heightsDown (forkPoint + 1) currentTip).forM Neo4jWriter.rollbackBlock
    o.moveCheckpoint forkPoint
    pure (currentTip - forkPoint)

/-! ## One block -/

/-- The outputs of a transaction. -/
def outputsOf (tx : Transaction) : List OutputData :=
  tx.output.zipIdx.map fun (output, i) =>
    .fromOutput o.crate output tx.txid (asU32 i) o.network

/-- What each address receives in a transaction. -/
def benefitsOf (tx : Transaction) : List BenefitsToData :=
  (tally ((o.outputsOf tx).filterMap fun output =>
      output.address.map fun address => (address, output.amount))).map
    fun (address, outputCount, amountReceived) =>
      { fromTxid := tx.txid, toAddress := address, outputCount, amountReceived }

def ingestBlockNode (block : Block) (height : ℕ) : Ingest Unit :=
  io (o.writer.writeBlocks [.fromBlock block height])

def ingestOutputsAndCache (block : Block) : Ingest (List OutputData) := do
  let allOutputs := block.txdata.flatMap o.outputsOf
  let writeResult ← (io (o.writer.writeOutputs allOutputs)).attempt
  modifyCache (populateCache allOutputs)
  Prog.ofExcept writeResult
  pure allOutputs

/-- The cached or stored output under every key, or an error if one has neither. -/
def getManyWithFallback (keys : List UtxoKey) : Ingest Found := do
  let cache ← getCache
  let (cache, found, misses) := cache.getMany keys
  setCache cache
  if misses.isEmpty then pure found
  else do
    let cache := cache.recordNeo4jFallback
    setCache cache
    let neo4jResults ← io (Neo4jWriter.lookupOutputsBatch (misses.map UtxoKey.toOutputId))
    let (cache, found, stillMissing) := absorbResults neo4jResults cache found misses
    setCache cache
    if stillMissing.isEmpty then pure found
    else
      let sampleIds := (stillMissing.take 5).map fun k => k.toOutputIdString.quote
      throw (.QueryFailed <|
        s!"Missing {stillMissing.length} of {keys.length} UTXOs after Neo4j " ++
        s!"fallback. Sample missing IDs: {sampleIds}")

def ingestTransactionsWithAmounts (block : Block) (height : ℕ) : Ingest (List PerformsData) := do
  let allInputKeys := block.txdata.flatMap Transaction.inputKeys
  let allOutputs ← getManyWithFallback allInputKeys
  io (o.writer.writeTransactions
    (block.txdata.map (priceTransactionInBlock allOutputs block height)))
  pure (block.txdata.flatMap (performsOf allOutputs))

def ingestInputs (block : Block) (height : ℕ) : Ingest Unit :=
  io (o.writer.writeInputs (block.txdata.flatMap (inputsOf height)))

def writePerformsIfAny (performs : List PerformsData) : Io Unit :=
  if performs.isEmpty then pure () else o.writer.writePerforms performs

def writeBenefitsToIfAny (benefits : List BenefitsToData) : Io Unit :=
  if benefits.isEmpty then pure () else o.writer.writeBenefitsTo benefits

def writeSimplifiedLayerRust (block : Block) (performsData : List PerformsData) :
    Ingest Unit := do
  let benefitsToData := block.txdata.flatMap o.benefitsOf
  io (o.writePerformsIfAny performsData)
  io (o.writeBenefitsToIfAny benefitsToData)

def removeSpentOutputsFromCache (block : Block) : Ingest Unit :=
  modifyCache fun c => c.removeMany (block.txdata.flatMap Transaction.inputKeys)

/-- Ingest a single block with direct statements. -/
def ingestBlock (block : Block) (height : ℕ) (fileName : String) (fileOffset : Option ℕ) :
    Ingest Unit := do
  io (o.validateParentHash block height)
  o.ingestBlockNode block height
  let outputData ← o.ingestOutputsAndCache block
  let performsData ← o.ingestTransactionsWithAmounts block height
  io (o.writer.writeHasOutputRelationships outputData)
  o.ingestInputs block height
  o.writeSimplifiedLayerRust block performsData
  removeSpentOutputsFromCache block
  io (Neo4jWriter.updateCheckpoint
    { lastProcessedHeight := asI32 height
      lastProcessedHash := some block.blockHash
      lastProcessedFile := fileName
      lastProcessedFileOffset := fileOffset
      status := "in_progress" })

/-! ## Batches -/

/-- Look up the inputs of a chunk before its transaction is opened: in the cache, and what is
missing there in the database. Keys in neither stay unresolved. -/
def prefetchUtxos (inputKeys : List UtxoKey) : Ingest Found :=
  if inputKeys.isEmpty then pure fun _ => none
  else do
    let cache ← getCache
    let (cache, found, misses) := cache.getMany inputKeys
    setCache cache
    if misses.isEmpty then pure found
    else do
      let neo4jResults ← io (Neo4jWriter.lookupOutputsBatch (misses.map UtxoKey.toOutputId))
      let (cache, found, _) := absorbResults neo4jResults cache found misses
      -- a wrapping subtraction of two `usize`
      let sameBlockDeferred :=
        UInt64.ofNat misses.length - UInt64.ofNat neo4jResults.length
      setCache (if sameBlockDeferred > 0 then cache.adjustMisses sameBlockDeferred else cache)
      pure found

/-- Write the PERFORMS of a bucket, then its BENEFITS_TO. -/
def bucketTask (performs : List PerformsData) (benefits : List BenefitsToData) : Io Unit := do
  o.writePerformsIfAny performs
  o.writeBenefitsToIfAny benefits

def bucketTasks (performs : List PerformsData) (benefits : List BenefitsToData) :
    List (Io Unit) :=
  List.zipWith o.bucketTask (partitionPerformsByAddress o.stringHash performs numBuckets)
    (partitionBenefitsByAddress o.stringHash benefits numBuckets)

/-- The checkpoint of the last block of a chunk. -/
def checkpointChunk (chunk : List LocatedBlock) : Io Unit :=
  match chunk.getLast? with
  | some last =>
    Neo4jWriter.updateCheckpoint
      { lastProcessedHeight := asI32 last.height
        lastProcessedHash := some last.block.blockHash
        lastProcessedFile := last.fileName
        lastProcessedFileOffset := none
        status := "in_progress" }
  | none => pure ()

/-- Process a single chunk through all phases; the caller opens and ends the transaction. -/
def processBatchChunk (chunk : List LocatedBlock) (prefetchedUtxos : Found) :
    Ingest (ℕ × ℕ × ℕ) := do
  let hasBip30 := chunk.any fun b => bip30DuplicateHeights.contains b.height
  let txs := chunk.flatMap (·.block.txdata)
  -- Phase 1
  io (o.writer.writeBlocksFast (chunk.map fun b => .fromBlock b.block b.height))
  -- Phase 2
  let outputData := txs.flatMap o.outputsOf
  let benefitsToData := txs.flatMap o.benefitsOf
  let writeResult ← (io (if hasBip30 then o.writer.writeOutputs outputData
    else o.writer.writeOutputsFast outputData)).attempt
  modifyCache (populateCache outputData)
  Prog.ofExcept writeResult
  -- Phase 3
  let cache ← getCache
  let (cache, allOutputs) := supplement (txs.flatMap Transaction.inputKeys) prefetchedUtxos cache
  setCache cache
  let performsData := txs.flatMap (performsOf allOutputs)
  let transactionData := chunk.flatMap fun b =>
    b.block.txdata.map (priceTransaction allOutputs b.block b.height)
  io (if hasBip30 then o.writer.writeTransactions transactionData
    else o.writer.writeTransactionsFast transactionData)
  -- Phase 3.5
  io (o.writer.writeHasOutputRelationshipsFast outputData)
  -- Phase 4
  let inputData := chunk.flatMap fun b => b.block.txdata.flatMap (inputsOf b.height)
  io (if hasBip30 then o.writer.writeInputs inputData else o.writer.writeInputsFast inputData)
  -- Phase 6
  spawnAll (o.bucketTasks performsData benefitsToData)
  -- Phase 7
  modifyCache fun c => c.removeMany (txs.flatMap Transaction.inputKeys)
  io (checkpointChunk chunk)
  pure (txs.length, outputData.length, inputData.length)

/-- Validate the parent of the first block of a chunk. -/
def validateFirst (chunk : List LocatedBlock) : Io Unit :=
  match chunk.head? with
  | some first => o.validateParentHash first.block first.height
  | none => pure ()

/-- End the transaction of a chunk: commit what was processed, or roll back and pass the error on;
a failure of the rollback itself is only logged. -/
def endChunk : Except WriterError (ℕ × ℕ × ℕ) → Ingest (ℕ × ℕ × ℕ)
  | .ok counts => do
    io Neo4jWriter.commitTransaction
    pure counts
  | .error e => do
    let _ ← (io Neo4jWriter.rollbackTransaction).attempt
    throw e

/-- One chunk: validate its first block, prefetch, and process it in a transaction. -/
def ingestChunk (chunk : List LocatedBlock) : Ingest (ℕ × ℕ × ℕ) := do
  io (o.validateFirst chunk)
  let prefetchedUtxos ← prefetchUtxos (collectInputKeys chunk)
  io Neo4jWriter.beginTransaction
  let chunkResult ← (o.processBatchChunk chunk prefetchedUtxos).attempt
  endChunk chunkResult

/-- The chunks in order, each committed before the next begins. -/
def ingestChunks : BatchStats → List (List LocatedBlock) → Ingest BatchStats
  | stats, [] => pure stats
  | stats, chunk :: rest => do
    let (txs, outputs, inputs) ← o.ingestChunk chunk
    ingestChunks { stats with
      transactions := stats.transactions + txs
      outputs := stats.outputs + outputs
      inputs := stats.inputs + inputs } rest

/-- The chunks a list of blocks is split into. -/
def adaptiveChunks (blocks : List LocatedBlock) : List (List LocatedBlock) :=
  (computeAdaptiveChunks (blocks.map fun b => estimateBlockMemory b.block)
    o.maxTransactionMemoryBytes).map (slice blocks)

/-- Ingest multiple blocks, chunk by chunk. -/
def ingestBlocksBatch (blocks : List LocatedBlock) : Ingest BatchStats :=
  o.ingestChunks ⟨0, 0, 0, (o.adaptiveChunks blocks).length⟩ (o.adaptiveChunks blocks)

end IngestionOrchestrator

end ChainGraph

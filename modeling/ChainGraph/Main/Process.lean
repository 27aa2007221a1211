import ChainGraph.Domain.Snapshot
import ChainGraph.Foundation.Runs
import ChainGraph.Main.Streaming

/-!
# The process

What a run of the binary consists of: calls of the orchestrator, which act on the database and the
cache, calls that load and save the cache file, and calls that ask the block files, the node and the
operating system. The last are answered by what stands outside, which may answer differently at
every moment.

`ingest_blocks_batch` is taken apart here into its chunks, because it saves the cache after each of
them. The commands `ingest` and `resume` are the streaming loop with its calls read this way.
-/

namespace ChainGraph

open Foundation

namespace Process

/-- The places that save the cache. -/
inductive SaveSite where
  /-- `try_save_snapshot`, after a committed chunk. -/
  | chunk
  /-- The end of `run_streaming_ingestion`. -/
  | completion
  /-- The end of `run_live_ingestion`. -/
  | shutdown
deriving DecidableEq, Repr

/-- How a wait for a notification of the node ends. -/
inductive Event where
  | shutdown
  | received
  | failed
deriving DecidableEq, Repr

/-- The calls of a run. -/
inductive Op where
  | getCheckpoint
  | initSchema
  | getResumeHeight
  | syncCheckpointWithDb
  | ingestChunk (chunk : List LocatedBlock)
  | lookupBlockHash (height : ℕ)
  | rollbackToHeight (currentTip forkPoint : ℕ)
  | loadFromFile
  | saveToFile (site : SaveSite) (height : ℕ)
  | prewarmCache (startHeight : ℕ)
  | preloadFullRange (startHeight maxHeight : ℕ)
  | loadBlock (height : ℕ)
  | verifyConnection
  | getTipHeight
  /-- Concurrent calls of `get_block`. -/
  | getBlocks (heights : List ℕ)
  | getBlock (height : ℕ)
  | getBlockHash (height : ℕ)
  | isCancelled
  | connectZmq
  | recvBlockHash
  /-- The pause after a failed wait, and whether a shutdown ended it. -/
  | backoff
deriving DecidableEq, Repr

@[reducible] def Reply : Op → Type
  | .getCheckpoint => Except WriterError (Option CheckpointData)
  | .initSchema => Except WriterError Unit
  | .getResumeHeight => Except WriterError ℕ
  | .syncCheckpointWithDb => Except WriterError ℕ
  | .ingestChunk _ => Except WriterError (ℕ × ℕ × ℕ)
  | .lookupBlockHash _ => Except WriterError (Option BlockHash)
  | .rollbackToHeight _ _ => Except WriterError ℕ
  | .loadFromFile => Except IoError ℕ
  | .saveToFile _ _ => Except String Unit
  | .prewarmCache _ => Except String Unit
  | .preloadFullRange _ _ => Except String Unit
  | .loadBlock _ => Except String (Option LocatedBlock)
  | .verifyConnection => Except String ℕ
  | .getTipHeight => Except String ℕ
  | .getBlocks _ => List (ℕ × Except String (Option Block))
  | .getBlock _ => Except String (Option Block)
  | .getBlockHash _ => Except String BlockHash
  | .isCancelled => Bool
  | .connectZmq => Except String Unit
  | .recvBlockHash => Event
  | .backoff => Bool

abbrev Calls : Interface := ⟨Op, Reply⟩

/-- Programs of the binary. An error is its outermost context. -/
abbrev Proc : Type → Type := Prog Calls String

def perform (o : Op) : Proc (Reply o) := Prog.perform (I := Calls) o

/-- The value, or an error with the context. -/
def orFail {ε α : Type} (context : String) : Except ε α → Proc α
  | .ok a => pure a
  | .error _ => throw context

/-- The program, its error replaced by the context. -/
def withContext {α : Type} (context : String) (p : Proc α) : Proc α := do
  let outcome ← p.attempt
  orFail context outcome

/-- The configuration a run reads. -/
structure Config extends Streaming.StreamConfig where
  rpcBatchSize : ℕ
  zmqMaxConsecutiveFailures : ℕ
  maxHeight : ℕ

variable (o : IngestionOrchestrator) (config : Config)

/-! ## Batches with their snapshots -/

/-- The last height of a chunk. -/
def endHeight (chunk : List LocatedBlock) : ℕ := (chunk.getLast?.map (·.height)).getD 0

/-- A failure is only logged. -/
def trySaveSnapshot (height : ℕ) : Proc Unit :=
  if config.cacheFile ≠ "" then do
    let _ ← perform (.saveToFile .chunk height)
    pure ()
  else pure ()

def ingestChunks : List (List LocatedBlock) → Proc (Except WriterError Unit)
  | [] => pure (.ok ())
  | chunk :: rest => do
    match ← perform (.ingestChunk chunk) with
    | .error e => pure (.error e)
    | .ok _ => do
      trySaveSnapshot config (endHeight chunk)
      ingestChunks rest

def ingestBlocksBatch (blocks : List LocatedBlock) : Proc (Except WriterError Unit) :=
  ingestChunks config (o.adaptiveChunks blocks)

/-! ## The streaming commands -/

/-- The cache file, if one is configured, is loaded; a failure is only logged. -/
def restoreCache : Proc Unit :=
  if config.cacheFile ≠ "" then do
    let _ ← perform .loadFromFile
    pure ()
  else pure ()

/-- The calls of the streaming loop. -/
def streamingCall : (c : Streaming.Op) → Proc (Streaming.Reply c)
  | .prewarmCache startHeight => perform (.prewarmCache startHeight)
  | .preloadFullRange startHeight maxHeight => perform (.preloadFullRange startHeight maxHeight)
  | .loadBlock height => perform (.loadBlock height)
  | .ingestBlocksBatch batch => ingestBlocksBatch o config batch
  | .saveToFile height => perform (.saveToFile .completion height)

def runStreamingIngestion (startHeight : ℕ) (enablePrewarm : Bool) : Proc Unit := do
  restoreCache config
  (Streaming.runStreamingIngestion config.toStreamConfig startHeight config.maxHeight
    enablePrewarm).interpret (streamingCall o config)

/-- Make sure there is a checkpoint. -/
def ensureSchema : Proc Unit := do
  let checkpoint ← orFail "Failed to check checkpoint" (← perform .getCheckpoint)
  if checkpoint.isNone then orFail "Failed to initialize schema" (← perform .initSchema)
  else pure ()

/-- `ingest`: from the first block, if nothing has been ingested yet. -/
def ingest : Proc Unit := do
  ensureSchema
  let resumeHeight ← orFail "Failed to get resume height" (← perform .getResumeHeight)
  if resumeHeight > 0 then pure ()
  else runStreamingIngestion o config 0 false

/-- `resume`: from the height after the recovered checkpoint. -/
def resume : Proc Unit := do
  let checkpoint ← orFail "Failed to get checkpoint" (← perform .getCheckpoint)
  match checkpoint with
  | none => throw "No checkpoint found. Run 'init-schema' first."
  | some checkpoint =>
    if checkpoint.status = "completed" then pure ()
    else do
      let resumeHeight ← orFail "Failed to sync checkpoint with database"
        (← perform .syncCheckpointWithDb)
      if resumeHeight ≥ config.maxHeight ∧ config.maxHeight ≠ Streaming.unbounded then pure ()
      else runStreamingIngestion o config resumeHeight true

/-! ## Running -/

/-- What stands outside. What can change while the process runs depends on the moment, counted in
calls. -/
structure Outside where
  tip : ℕ → Except String ℕ
  block : ℕ → ℕ → Except String (Option Block)
  hash : ℕ → ℕ → Except String BlockHash
  cancelled : ℕ → Bool
  connect : ℕ → Except String Unit
  event : ℕ → Event
  backoff : ℕ → Bool
  /-- Whether the cache file can be written. -/
  writable : ℕ → Bool
  load : ℕ → Except String (Option (Block × String))
  preload : Except String Unit
  /-- What pre-warming makes of the cache. -/
  prewarm : ℕ → UtxoCache → Except String UtxoCache

/-- The state of a run: the database session and the cache, the cache file, the moment, and whether
blocks have been rolled back since the last committed chunk. -/
structure State where
  world : World neo4j UtxoCache
  file : Option (List UInt8)
  clock : ℕ
  rolledBack : Bool

namespace State

/-- The committed graph. -/
def graph (s : State) : Graph := s.world.store.committed

/-- Run a program of the orchestrator. -/
def orchestrate {α : Type} (s : State) (p : Ingest α) : Except WriterError α × State :=
  ((p.run World.handle s.world).1, { s with world := (p.run World.handle s.world).2 })

end State

variable (crc32 : List UInt8 → UInt32) (out : Outside)

/-- What a call does, apart from taking time. -/
def act : (c : Op) → State → Reply c × State
  | .getCheckpoint, s => s.orchestrate (io o.writer.getCheckpoint)
  | .initSchema, s => s.orchestrate (io o.initSchema)
  | .getResumeHeight, s => s.orchestrate (io o.getResumeHeight)
  | .syncCheckpointWithDb, s => s.orchestrate (io o.syncCheckpointWithDb)
  | .ingestChunk chunk, s =>
    let (answer, s) := s.orchestrate (o.ingestChunk chunk)
    (answer, { s with rolledBack := s.rolledBack && ! answer.isOk })
  | .lookupBlockHash height, s => s.orchestrate (io (o.writer.lookupBlockHash height))
  | .rollbackToHeight currentTip forkPoint, s =>
    let (answer, s) := s.orchestrate (io (o.rollbackToHeight currentTip forkPoint))
    (answer, { s with rolledBack := s.rolledBack || forkPoint < currentTip })
  | .loadFromFile, s =>
    let (answer, cache) := s.world.memory.loadFromFile crc32 s.file
    (answer, { s with world := { s.world with memory := cache } })
  | .saveToFile _ height, s =>
    if out.writable s.clock then
      (.ok (), { s with file := some (s.world.memory.saveToFile crc32 height).1 })
    else (.error "cache file cannot be written", s)
  | .prewarmCache startHeight, s =>
    match out.prewarm startHeight s.world.memory with
    | .ok cache => (.ok (), { s with world := { s.world with memory := cache } })
    | .error e => (.error e, s)
  | .preloadFullRange _ _, s => (out.preload, s)
  | .loadBlock height, s =>
    ((out.load height).map (Option.map fun found => ⟨height, found.1, found.2⟩), s)
  | .verifyConnection, s => ((out.tip s.clock).map asU32, s)
  | .getTipHeight, s => ((out.tip s.clock).map asU32, s)
  | .getBlocks heights, s => (heights.map fun height => (height, out.block s.clock height), s)
  | .getBlock height, s => (out.block s.clock height, s)
  | .getBlockHash height, s => (out.hash s.clock height, s)
  | .isCancelled, s => (out.cancelled s.clock, s)
  | .connectZmq, s => (out.connect s.clock, s)
  | .recvBlockHash, s => (out.event s.clock, s)
  | .backoff, s => (out.backoff s.clock, s)

/-- Every call takes a moment. -/
def handle : Prog.Handler Calls State := fun c s =>
  ((act o crc32 out c s).1, { (act o crc32 out c s).2 with clock := s.clock + 1 })

end Process

end ChainGraph

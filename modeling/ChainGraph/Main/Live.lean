import ChainGraph.Main.Process
import ChainGraph.Parser.RpcProvider

/-!
# Live mode

`run_live_ingestion`: after the checkpoint has been recovered, batches are fetched from the node
until its tip is reached, and then the process waits for notifications and ingests what is new, one
block at a time. A reorganization found in the second phase is rolled back; in the first it ends the
run like any other error.

A loop is given by its iteration, so that a run of live mode is a number of iterations. What is left
out are the counters that are only logged. Heights wrap at the end of `u32`.
-/

namespace ChainGraph

open Foundation

namespace Live

open Process

/-- Where a run is. -/
inductive Phase where
  /-- Phase A, consuming blocks in batches. -/
  | catchUp
  /-- Phase C, waiting for notifications. -/
  | realTime
  | done
deriving DecidableEq, Repr

/-- The variables the loops share. The tracker holds the height of the last committed block. -/
structure Vars where
  phase : Phase
  currentHeight : ℕ
  tracker : Option ℕ
  consecutiveFailures : ℕ
deriving DecidableEq, Repr

variable (o : IngestionOrchestrator) (config : Config)

/-! ## Fetching -/

/-- The blocks among the answers, by height; an answer without a block is passed over. -/
def collectBatch : List (ℕ × Except String (Option Block)) → Except String (List LocatedBlock)
  | [] => .ok []
  | (_, .error e) :: _ => .error e
  | (_, .ok none) :: rest => collectBatch rest
  | (height, .ok (some block)) :: rest => (collectBatch rest).map (⟨height, block, "rpc"⟩ :: ·)

/-- `get_block_batch`. -/
def getBlockBatch (startHeight count : ℕ) : Proc (Except String (List LocatedBlock)) := do
  let answers ← perform (.getBlocks (List.range' startHeight count))
  pure (collectBatch answers)

/-! ## Phase A -/

/-- After the catch-up loop: done if the last wanted height has been reached. -/
def leaveCatchUp (v : Vars) : Proc Vars :=
  if config.maxHeight ≠ Streaming.unbounded ∧ v.currentHeight > config.maxHeight then
    pure { v with phase := .done }
  else do
    orFail "Failed to establish ZMQ connection" (← perform .connectZmq)
    pure { v with phase := .realTime }

/-- Ingest a fetched batch and go on after its last block, unless the run is to end. -/
def ingestFetched (v : Vars) (blocks : List LocatedBlock) (batchEnd : ℕ) : Proc Vars := do
  match ← ingestBlocksBatch o config blocks with
  | .error _ => throw s!"Failed to ingest batch {v.currentHeight}-{batchEnd}"
  | .ok () => do
    let v := { v with tracker := some batchEnd }
    if ← perform .isCancelled then leaveCatchUp config v
    else pure { v with currentHeight := asU32 (batchEnd + 1) }

/-- One iteration of the catch-up loop. -/
def catchUp (v : Vars) : Proc Vars := do
  if ← perform .isCancelled then leaveCatchUp config v
  else do
    let tip ← orFail "Failed to get chain tip during catchup" (← perform .getTipHeight)
    let target := min tip config.maxHeight
    if v.currentHeight > target then leaveCatchUp config v
    else do
      let remaining := asU32 (target - v.currentHeight + 1)
      let fetchCount := min remaining config.rpcBatchSize
      let blocks ← orFail s!"Failed to fetch RPC batch at height {v.currentHeight}"
        (← getBlockBatch v.currentHeight fetchCount)
      match blocks.getLast? with
      | none => leaveCatchUp config v
      | some last => do
        if ← perform .isCancelled then leaveCatchUp config v
        else ingestFetched o config v blocks last.height

/-! ## Phase C -/

/-- The highest of some heights, listed from the top, where the stored hash is the node's. -/
def walkBack : List ℕ → Proc ℕ
  | [] => throw ("Fork point not found — stored and canonical chains diverge all the way to " ++
      "genesis. This likely means the database was built against a different Bitcoin network.")
  | height :: rest => do
    let ourHash ← orFail s!"Failed to lookup stored block hash at height {height}"
      (← perform (.lookupBlockHash height))
    let canonicalHash ← orFail s!"Failed to get canonical block hash at height {height}"
      (← perform (.getBlockHash height))
    if ourHash = some canonicalHash then pure height else walkBack rest

def findForkPoint (startHeight : ℕ) : Proc ℕ :=
  walkBack (IngestionOrchestrator.heightsDown 0 startHeight)

/-- Roll back below a block whose parent is not the stored one. The answer is the next height. -/
def handleReorg (reorgHeight : ℕ) : Proc ℕ := do
  let forkPoint ← withContext "Failed to find fork point during reorg"
    (findForkPoint (reorgHeight - 1))
  let _ ← orFail "Rollback failed during reorg handling"
    (← perform (.rollbackToHeight (reorgHeight - 1) forkPoint))
  pure (asU32 (forkPoint + 1))

/-- The loop over the new heights, `remaining` of them from `height`. The answer is the next height
and the tracker. Behind a tip of `u32::MAX` the height wraps, and the loop of the source, which only
ends at a height above the tip, begins again; here the next notification does. -/
def ingestNew : ℕ → ℕ → Option ℕ → Proc (ℕ × Option ℕ)
  | 0, height, tracker => pure (height, tracker)
  | remaining + 1, height, tracker => do
    let found ← orFail s!"Failed to fetch block {height} via RPC" (← perform (.getBlock height))
    match found with
    | none => ingestNew remaining (asU32 (height + 1)) tracker
    | some block => do
      match ← ingestBlocksBatch o config [⟨height, block, "rpc"⟩] with
      | .ok () => ingestNew remaining (asU32 (height + 1)) (some height)
      | .error (.ReorgDetected reorgHeight _ _) => do
        let next ← handleReorg reorgHeight
        pure (next, tracker)
      | .error _ => throw s!"Failed to ingest block {height}"

/-- The end of a run: the cache is saved with the height of the last committed block. -/
def finish (v : Vars) : Proc Vars := do
  match v.tracker with
  | some height =>
    if config.cacheFile ≠ "" then do
      let _ ← perform (.saveToFile .shutdown height)
      pure { v with phase := .done }
    else pure { v with phase := .done }
  | none => pure { v with phase := .done }

/-- A notification has come: ingest up to the tip. -/
def notified (v : Vars) : Proc Vars := do
  let tip ← orFail "Failed to get chain tip after ZMQ notification" (← perform .getTipHeight)
  let effectiveTip := min tip config.maxHeight
  let (height, tracker) ← ingestNew o config (effectiveTip + 1 - v.currentHeight) v.currentHeight
    v.tracker
  let v := { v with currentHeight := height, tracker := tracker, consecutiveFailures := 0 }
  if config.maxHeight ≠ Streaming.unbounded ∧ v.currentHeight > config.maxHeight then
    finish config v
  else pure v

/-- One iteration of the real-time loop. -/
def realTime (v : Vars) : Proc Vars := do
  match ← perform .recvBlockHash with
  | .shutdown => finish config v
  | .received => notified o config v
  | .failed => do
    let failures := asU32 (v.consecutiveFailures + 1)
    if failures ≥ config.zmqMaxConsecutiveFailures then
      throw s!"ZMQ listener failed {failures} consecutive times, giving up"
    else do
      if ← perform .backoff then finish config { v with consecutiveFailures := failures }
      else pure { v with consecutiveFailures := failures }

/-! ## A run -/

/-- One iteration of the loop the run is in. -/
def iterate (v : Vars) : Proc Vars :=
  match v.phase with
  | .catchUp => catchUp o config v
  | .realTime => realTime o config v
  | .done => pure v

def iterations : ℕ → Vars → Proc Vars
  | 0, v => pure v
  | n + 1, v => do
    let v ← iterate o config v
    iterations n v

/-- Everything before the loops. -/
def begin : Proc Vars := do
  restoreCache config
  ensureSchema
  let resumeHeight ← orFail "Failed to sync checkpoint with database"
    (← perform .syncCheckpointWithDb)
  let _ ← orFail ("Failed to connect to Bitcoin Core RPC - check url, credentials, " ++
    "and that bitcoind is running") (← perform .verifyConnection)
  pure ⟨.catchUp, resumeHeight, none, 0⟩

/-- Live mode for so many iterations. -/
def runLiveIngestion (n : ℕ) : Proc Vars := do
  let v ← begin config
  iterations o config n v

/-! ## The provider -/

/-- The replies to the requests of one call: to the first, the second and so on. -/
abbrev Replies : Type := ℕ → RpcRequest → Except String HttpResponse

/-- Requests answered one after the other. -/
def replying (replies : Replies) : Prog.Handler rpcCalls ℕ := fun request n =>
  (replies n request, n + 1)

/-- What `get_block` of a provider ends with. -/
def fetched (p : RpcBlockProvider) (replies : Replies) (height : ℕ) :
    Except String (Option Block) :=
  match ((p.getBlock height).run (replying replies) 0).1 with
  | .ok found => .ok (found.map (·.block))
  | .error e => .error e.display

/-- The outside of a process that asks a provider for blocks, with the replies to the requests for a
height at a moment. -/
def withProvider (p : RpcBlockProvider) (rpc : ℕ → ℕ → Replies) (out : Outside) : Outside :=
  { out with block := fun clock height => fetched p (rpc clock height) height }

/-! ## Lives of the process -/

/-- The commands that ingest. -/
inductive Command where
  | ingest
  | resume
  /-- Live mode for so many iterations. -/
  | live (n : ℕ)
deriving DecidableEq, Repr

def Command.run : Command → Proc Unit
  | .ingest => Process.ingest o config
  | .resume => Process.resume o config
  | .live n => do
    let _ ← runLiveIngestion o config n
    pure ()

/-- A new process finds the database and the cache file. -/
def restarted (capacity : ℕ) (s : State) : State :=
  { s with world := ⟨⟨s.graph, none⟩, UtxoCache.new capacity⟩, rolledBack := false }

variable (crc32 : List UInt8 → UInt32) (out : Outside) (capacity : ℕ)

/-- Commands one after the other, each cut off after a number of calls. A command that makes no
more calls than that has ended by itself. -/
def afterLives : List (Command × ℕ) → State → State
  | [], s => s
  | (command, n) :: rest, s =>
    afterLives rest (restarted capacity ((command.run o config).crash (handle o crc32 out) n s))

end Live

end ChainGraph

import ChainGraph.Foundation.Session
import ChainGraph.Writer.Queries

/-!
# The Neo4j writer

The writer's methods as programs over a database session. A method either asks once whether a
transaction is active and then sends every sub-batch the same way, or goes to the database
directly; which of the two is the method's own choice, and `write_outputs` and `rollback_block`
are the methods that go directly.

Direct statements of the batched methods are retried; statements in a transaction are not.
-/

namespace ChainGraph

open Foundation

/-- The graph with its queries. -/
abbrev neo4j : Engine where
  Db := Graph
  Stmt := Query
  Fault := DbFault
  exec := Query.exec

/-- A program over a session with the graph. -/
abbrev Io : Type → Type := Prog (Session neo4j) WriterError

/-- One call on the session. -/
def call (o : Session.Op neo4j) : Io (Session.Reply neo4j o) :=
  Prog.perform (I := Session neo4j) o

/-- `slice::chunks`: consecutive parts of `n` elements, the last possibly shorter. -/
def chunksFrom {α : Type} (n : ℕ) : ℕ → List α → List (List α)
  | fuel + 1, a :: l => (a :: l).take n :: chunksFrom n fuel ((a :: l).drop n)
  | _, _ => []

def chunks {α : Type} (n : ℕ) (l : List α) : List (List α) := chunksFrom n l.length l

/-- The writer's configuration. -/
structure Neo4jWriter where
  batchSize : ℕ
  batchSize_pos : 0 < batchSize
  maxRetries : ℕ
  queryTimeoutSecs : ℕ

/-- Do something with each part of a list, counting from `batchNum`. -/
def eachBatch {α : Type} (body : ℕ → List α → Io Unit) : ℕ → List (List α) → Io Unit
  | _, [] => pure ()
  | batchNum, chunk :: rest => do
    body batchNum chunk
    eachBatch body (batchNum + 1) rest

/-- Outputs that have an address. -/
def filterOutputsWithAddress (outputs : List OutputData) : List OutputData :=
  outputs.filter (·.address.isSome)

namespace Neo4jWriter

variable (w : Neo4jWriter)

/-- The error of a direct statement that failed for good. -/
def queryError (operationName : String) (batchNum totalBatches recordCount : ℕ) :
    DbFault → WriterError
  | .elapsed => .QueryFailed <| s!"{operationName} timed out after {w.queryTimeoutSecs}s (batch " ++
      s!"{batchNum}/{totalBatches}, {recordCount} records) - possible dead connection"
  | e => .QueryFailed <| s!"{operationName} failed (batch {batchNum}/{totalBatches}, " ++
      s!"{recordCount} records): {e}"

/-- A direct statement, tried again after a retryable error as long as retries are left. -/
def runWithRetry (operationName : String) (q : Query) (batchNum totalBatches recordCount : ℕ) :
    ℕ → Io Unit
  | 0 => do
    match ← call (.autoRun q) with
    | .ok () => pure ()
    | .error e => throw (w.queryError operationName batchNum totalBatches recordCount e)
  | retries + 1 => do
    match ← call (.autoRun q) with
    | .ok () => pure ()
    | .error e =>
      let err := w.queryError operationName batchNum totalBatches recordCount e
      if err.isRetryable then
        runWithRetry operationName q batchNum totalBatches recordCount retries
      else throw err

/-- A statement in the active transaction. The slot is read again here. -/
def runInTxn (operationName : String) (q : Query) (batchNum totalBatches : ℕ) : Io Unit := do
  match ← call (.txnRun q) with
  | .ok true => pure ()
  | .ok false => throw (.TransactionFailed "transaction was unexpectedly closed")
  | .error e => throw (.TransactionFailed <| s!"{operationName} failed in transaction " ++
      s!"(batch {batchNum}/{totalBatches}): {e}")

/-- Rows in sub-batches of the configured size. Whether a transaction is active is asked once,
before the first. -/
def executeBatched {α : Type} (items : List α) (query : List α → Query)
    (operationName : String) : Io Unit :=
  if items.isEmpty then pure ()
  else do
    let useTxn : Bool ← call .inTxn
    let batches := chunks w.batchSize items
    eachBatch (fun batchNum chunk =>
      if useTxn then runInTxn operationName (query chunk) batchNum batches.length
      else w.runWithRetry operationName (query chunk) batchNum batches.length chunk.length
        w.maxRetries) 1 batches

/-- A single query, in the active transaction if there is one. -/
def runQuerySingle (q : Query) (operationName : String) : Io Unit := do
  match ← call (.txnRun q) with
  | .ok true => pure ()
  | .error e => throw (.TransactionFailed s!"{operationName} failed in transaction: {e}")
  | .ok false =>
    match ← call (.autoRun q) with
    | .ok () => pure ()
    | .error e => throw (.QueryFailed s!"{operationName} failed: {e}")

/-! ## Writes with CREATE -/

def writeBlocksFast (blocks : List BlockData) : Io Unit :=
  w.executeBatched blocks .createBlocksFast "write_blocks_fast"

def writeTransactionsFast (transactions : List TransactionData) : Io Unit :=
  w.executeBatched transactions .createTransactionsFast "write_transactions_fast"

def writeOutputsFast (outputs : List OutputData) : Io Unit :=
  w.executeBatched outputs .createOutputsWithLockedToFast "write_outputs_fast"

def writeHasOutputRelationshipsFast (outputs : List OutputData) : Io Unit :=
  w.executeBatched outputs .createHasOutputFast "write_has_output_relationships_fast"

def writeInputsFast (inputs : List InputData) : Io Unit :=
  w.executeBatched inputs .createInputsFast "write_inputs_fast"

/-! ## Writes with MERGE -/

def writeBlocks (blocks : List BlockData) : Io Unit :=
  w.executeBatched blocks .createBlocks "write_blocks"

def writeTransactions (transactions : List TransactionData) : Io Unit :=
  w.executeBatched transactions .createTransactions "write_transactions"

/-- Two queries for each sub-batch, both sent to the database directly. -/
def writeOutputs (outputs : List OutputData) : Io Unit :=
  let batches := chunks w.batchSize outputs
  eachBatch (fun batchNum chunk => do
    w.runWithRetry "write_outputs" (.createOutputs chunk) batchNum batches.length chunk.length
      w.maxRetries
    let outputsWithAddress := filterOutputsWithAddress chunk
    if outputsWithAddress.isEmpty then pure ()
    else
      w.runWithRetry "write_outputs:locked_to" (.createLockedTo outputsWithAddress) batchNum
        batches.length outputsWithAddress.length w.maxRetries) 1 batches

def writeHasOutputRelationships (outputs : List OutputData) : Io Unit :=
  w.executeBatched outputs .createHasOutput "write_has_output_relationships"

def writeInputs (inputs : List InputData) : Io Unit :=
  w.executeBatched inputs .createInputs "write_inputs"

def writePerforms (performs : List PerformsData) : Io Unit :=
  w.executeBatched performs .createPerformsBulk "write_performs"

def writeBenefitsTo (benefitsTo : List BenefitsToData) : Io Unit :=
  w.executeBatched benefitsTo .createBenefitsToBulk "write_benefits_to"

/-! ## Reads -/

/-- The committed graph, or the error a failed read is reported as. -/
def readGraph (failed : DbFault → WriterError) : Io Graph := do
  match ← call .read with
  | .ok g => pure g
  | .error e => throw (failed e)

/-- The error of a failed read, with the text of a timeout where it differs. -/
def readError (timedOut failed : String) : DbFault → WriterError
  | .elapsed => .QueryFailed timedOut
  | e => .QueryFailed s!"{failed}: {e}"

def lookupBlockHash (height : ℕ) : Io (Option BlockHash) := do
  let g ← readGraph (readError
    s!"lookup_block_hash timed out after {w.queryTimeoutSecs}s (height {height})"
    s!"lookup_block_hash failed (height {height})")
  pure (g.lookupBlockHash height)

def lookupOutputsBatch (outputIds : List OutputId) : Io (List OutputLookupResult) :=
  if outputIds.isEmpty then pure []
  else do
    let g ← readGraph (readError "lookup_outputs_batch timed out" "lookup_outputs_batch failed")
    pure (g.lookupOutputsBatch outputIds)

def getMaxBlockHeight : Io (Option ℕ) := do
  let g ← readGraph (readError "get_max_block_height timed out" "get_max_block_height failed")
  pure g.getMaxBlockHeight

def checkBlockComplete (height : ℕ) : Io (ℕ × ℕ) := do
  let g ← readGraph (readError "check_block_complete timed out" "check_block_complete failed")
  Prog.ofExcept (g.checkBlockComplete height)

def getCheckpoint : Io (Option CheckpointData) := do
  let g ← readGraph fun
    | .elapsed => .CheckpointError s!"get_checkpoint timed out after {w.queryTimeoutSecs}s"
    | e => .CheckpointError s!"get_checkpoint failed: {e}"
  pure g.getCheckpoint

/-! ## Checkpoint and rollback -/

/-- A direct statement whose failure is reported as `failed`. -/
def runDirect (q : Query) (failed : DbFault → WriterError) : Io Unit := do
  match ← call (.autoRun q) with
  | .ok () => pure ()
  | .error e => throw (failed e)

def createCheckpoint : Io Unit := do
  runDirect .deleteCheckpoint fun e => .CheckpointError s!"delete failed: {e}"
  runDirect .createCheckpoint fun e => .CheckpointError s!"create failed: {e}"

def updateCheckpoint (checkpoint : CheckpointData) : Io Unit :=
  runQuerySingle (.updateCheckpoint checkpoint) "update_checkpoint"

def markCheckpointComplete : Io Unit :=
  runDirect .markCheckpointComplete fun e =>
    .CheckpointError s!"mark_checkpoint_complete failed: {e}"

def setCheckpointStatus (status : String) : Io Unit :=
  runDirect (.setCheckpointStatus status) fun e =>
    .CheckpointError s!"set_checkpoint_status failed: {e}"

/-- The delete statements of a rollback, in order, with the step each error names. -/
def rollbackSteps (height : ℕ) : List (Query × String) :=
  [(.rollbackDeleteInputs height, "step 1 (delete inputs)"),
   (.rollbackDeleteOutputs height, "step 2 (delete outputs)"),
   (.rollbackDeleteTransactions height, "step 3 (delete transactions)"),
   (.rollbackDeleteBlock height, "step 4 (delete block)")]

/-- Four statements, each committed on its own. -/
def rollbackBlock (height : ℕ) : Io Unit :=
  (rollbackSteps height).forM fun step =>
    runDirect step.1 fun e =>
      .QueryFailed s!"rollback_block {step.2} failed at height {height}: {e}"

/-! ## Transactions -/

def beginTransaction : Io Unit := do
  match ← call .begin with
  | .ok true => pure ()
  | .ok false => throw (.TransactionFailed "transaction already active")
  | .error e => throw (.TransactionFailed s!"failed to begin transaction: {e}")

def commitTransaction : Io Unit := do
  match ← call .commit with
  | .ok true => pure ()
  | .ok false => throw (.TransactionFailed "no active transaction")
  | .error e => throw (.TransactionFailed s!"commit failed: {e}")

def rollbackTransaction : Io Unit := do
  match ← call .rollback with
  | .ok true => pure ()
  | .ok false => throw (.TransactionFailed "no active transaction")
  | .error e => throw (.TransactionFailed s!"rollback failed: {e}")

end Neo4jWriter

end ChainGraph

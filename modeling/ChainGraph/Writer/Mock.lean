import ChainGraph.Writer.Traits

/-!
# The mock writer

The in-memory writer of the tests, as far as checkpoints and transactions go: the checkpoint, the
flags of a transaction with the checkpoint saved when it began, and the failures a test configures
for a method. The stored nodes are left out; none of these methods reads them.

Every method holds the lock of the storage from its first line to its last.
-/

namespace ChainGraph

open Foundation

/-! ## A cell behind a lock -/

inductive Cell.Op (σ : Type) where
  | get
  | set (s : σ)

@[reducible] def Cell.Reply (σ : Type) : Cell.Op σ → Type
  | .get => σ
  | .set _ => Unit

abbrev Cell (σ : Type) : Interface := ⟨Cell.Op σ, Cell.Reply σ⟩

def Cell.handle {σ : Type} : Prog.Handler (Cell σ) σ
  | .get, s => (s, s)
  | .set s, _ => ((), s)

/-! ## Storage -/

/-- In-memory storage for mock writer. -/
structure MockStorage where
  checkpoint : Option CheckpointData
  schemaInitialized : Bool
  transactionCommitCount : ℕ
  inTransaction : Bool
  checkpointWrittenInTxn : Bool
  /-- The checkpoint saved at `begin_transaction`. -/
  snapshot : Option (Option CheckpointData)
  callLog : List String
  failures : String → Option WriterError
  /-- An error, and how many more calls meet it. -/
  transientFailures : String → Option (WriterError × ℕ)
  /-- How many calls succeed, how many were made, and the error of the others. -/
  failureAfterN : String → Option (ℕ × ℕ × WriterError)

namespace MockStorage

/-- `MockStorage::default`. -/
def empty : MockStorage where
  checkpoint := none
  schemaInitialized := false
  transactionCommitCount := 0
  inTransaction := false
  checkpointWrittenInTxn := false
  snapshot := none
  callLog := []
  failures _ := none
  transientFailures _ := none
  failureAfterN _ := none

/-- The third of the checks below. -/
def checkFailureAfterN (s : MockStorage) (method : String) : Option WriterError × MockStorage :=
  match s.failureAfterN method with
  | some (threshold, count, err) =>
    let failureAfterN := Function.update s.failureAfterN method (some (threshold, count + 1, err))
    (if count + 1 > threshold then some err else none, { s with failureAfterN })
  | none => (none, s)

/-- The error a method should fail with, if any, and the counters after asking. -/
def checkFailure (s : MockStorage) (method : String) : Option WriterError × MockStorage :=
  match s.failures method with
  | some err => (some err, s)
  | none =>
    match s.transientFailures method with
    | some (err, remaining) =>
      if remaining > 0 then
        let transientFailures :=
          Function.update s.transientFailures method (some (err, remaining - 1))
        (some err, { s with transientFailures })
      else s.checkFailureAfterN method
    | none => s.checkFailureAfterN method

/-- Put back what was saved when the transaction began. -/
def restore (s : MockStorage) : MockStorage :=
  match s.snapshot with
  | some saved => { s with checkpoint := saved, snapshot := none }
  | none => s

end MockStorage

/-! ## Methods -/

namespace MockWriter

/-- A program over the storage. -/
abbrev Locked : Type → Type := Prog (Cell MockStorage) WriterError

def storage : Locked MockStorage := Prog.perform (I := Cell MockStorage) .get

def store (s : MockStorage) : Locked Unit := Prog.perform (I := Cell MockStorage) (.set s)

/-- A method that a test can make fail: it fails as configured, after `undo`, or has its effect. -/
def failing (method : String) (undo effect : MockStorage → MockStorage) : Locked Unit := do
  let s ← storage
  let (failure, s) := s.checkFailure method
  match failure with
  | some err => do
    store (undo s)
    throw err
  | none => store (effect s)

def initSchema : Locked Unit := do
  let s ← storage
  store { s with schemaInitialized := true }

/-- "Initial checkpoint at height 0 (no blocks processed yet)", as its comment says. -/
def createCheckpoint : Locked Unit := do
  let s ← storage
  store { s with
    checkpoint := some
      { lastProcessedHeight := 0
        lastProcessedHash := some 0
        lastProcessedFile := "blk00000.dat"
        lastProcessedFileOffset := some 0
        status := "in_progress" } }

def updateCheckpoint (checkpoint : CheckpointData) : Locked Unit :=
  failing "update_checkpoint" id fun s =>
    { s with
      checkpoint := some checkpoint
      checkpointWrittenInTxn := s.checkpointWrittenInTxn || s.inTransaction }

def getCheckpoint : Locked (Option CheckpointData) := do
  let s ← storage
  pure s.checkpoint

def beginTransaction : Locked Unit :=
  failing "begin_transaction" id fun s =>
    { s with
      callLog := s.callLog ++ ["begin_transaction"]
      inTransaction := true
      snapshot := some s.checkpoint }

/-- A commit that fails rolls back. -/
def commitTransaction : Locked Unit := do
  let s ← storage
  store { s with callLog := s.callLog ++ ["commit_transaction"] }
  failing "commit_transaction" (fun s => { s.restore with inTransaction := false }) fun s =>
    { s with
      inTransaction := false
      snapshot := none
      transactionCommitCount := s.transactionCommitCount + 1 }

def rollbackTransaction : Locked Unit :=
  failing "rollback_transaction" id fun s => { s.restore with inTransaction := false }

/-- `impl GraphWriter for MockWriter`. -/
def graphWriter : GraphWriter where
  Calls := Cell MockStorage
  initSchema := initSchema
  createCheckpoint := createCheckpoint
  updateCheckpoint := updateCheckpoint
  getCheckpoint := getCheckpoint
  beginTransaction := beginTransaction
  commitTransaction := commitTransaction
  rollbackTransaction := rollbackTransaction

end MockWriter

end ChainGraph

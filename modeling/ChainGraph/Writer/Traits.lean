import ChainGraph.Writer.Neo4j

/-!
# The writer trait

The methods of `GraphWriter` that deal with the checkpoint and with transactions, over whatever
operations an implementation is made of, and the two methods of the orchestrator that use nothing
else. They are written once for every writer; at `Neo4jWriter` they are the orchestrator's own.
-/

namespace ChainGraph

open Foundation

/-- Graph database writer interface. -/
structure GraphWriter where
  Calls : Interface
  initSchema : Prog Calls WriterError Unit
  createCheckpoint : Prog Calls WriterError Unit
  updateCheckpoint : CheckpointData → Prog Calls WriterError Unit
  getCheckpoint : Prog Calls WriterError (Option CheckpointData)
  beginTransaction : Prog Calls WriterError Unit
  commitTransaction : Prog Calls WriterError Unit
  rollbackTransaction : Prog Calls WriterError Unit

/-- `impl GraphWriter for Neo4jWriter`. The constraints of the schema are part of the graph's type,
so making them changes nothing. -/
def Neo4jWriter.graphWriter (w : Neo4jWriter) : GraphWriter where
  Calls := Session neo4j
  initSchema := pure ()
  createCheckpoint := Neo4jWriter.createCheckpoint
  updateCheckpoint := Neo4jWriter.updateCheckpoint
  getCheckpoint := w.getCheckpoint
  beginTransaction := Neo4jWriter.beginTransaction
  commitTransaction := Neo4jWriter.commitTransaction
  rollbackTransaction := Neo4jWriter.rollbackTransaction

namespace GraphWriter

variable (writer : GraphWriter)

/-- `IngestionOrchestrator::init_schema`: a checkpoint is created where there is none. -/
def orchestratorInitSchema : Prog writer.Calls WriterError Unit := do
  writer.initSchema
  match ← writer.getCheckpoint with
  | none => writer.createCheckpoint
  | some _ => pure ()

/-- `IngestionOrchestrator::get_resume_height`. -/
def orchestratorGetResumeHeight : Prog writer.Calls WriterError ℕ := do
  match ← writer.getCheckpoint with
  | some checkpoint =>
    if checkpoint.lastProcessedHeight < 0 then pure 0
    else pure ((checkpoint.lastProcessedHeight + 1) % 2 ^ 32).toNat
  | none => pure 0

end GraphWriter

end ChainGraph

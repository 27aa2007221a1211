import ChainGraph.Laws.Confined
import ChainGraph.Laws.Locks
import ChainGraph.Laws.Sent

/-!
# Bucket tasks and their transaction

The bucket tasks of a chunk run beside each other and beside the main flow, over one writer whose
transaction is a slot that each of them reads again. The wait for them ends with the first failure,
and the chunk is rolled back while the others may still be at work. A task that comes late finds no
transaction and goes to the database directly, or finds the transaction of a later chunk.

A rollback that comes after every task keeps all statements of a chunk in its transaction, except
where a chunk of a duplicated coinbase writes its outputs beside it.
-/

namespace ChainGraph

open Foundation

/-- No chunk of the call writes outputs beside its transaction. -/
def Call.Inside (o : IngestionOrchestrator) : Call → Prop
  | .ingestBlocksBatch blocks => ∀ chunk ∈ o.adaptiveChunks blocks, ¬ o.WritesBeside chunk
  | _ => True

namespace IngestionOrchestrator

open Neo4jWriter

variable {o : IngestionOrchestrator}

/-! ## Calls without a transaction -/

/-- The writer method neither starts nor ends a transaction. -/
theorem plain_io {α : Type} {p : Io α} (sends : OnlySends (fun _ => True) p) :
    (io p).Always Client.Op.Plain :=
  Prog.always_lift sends

theorem plain_getManyWithFallback (keys : List UtxoKey) :
    (getManyWithFallback keys).Always Client.Op.Plain :=
  Prog.Always.mono (fun _ quiet => quiet.1) (quiet_getManyWithFallback keys)

theorem plain_writeOutputs (outputs : List OutputData) :
    (io (o.writer.writeOutputs outputs)).Always Client.Op.Plain := by
  refine plain_io (sends_eachBatch (fun i c _ => ?_) 1)
  refine (sends_runWithRetry trivial).bind fun _ => ?_
  dsimp only
  split
  · trivial
  · exact sends_runWithRetry trivial

theorem plain_executeBatched {α : Type} {items : List α} {query : List α → Query} {name : String} :
    (io (o.writer.executeBatched items query name)).Always Client.Op.Plain :=
  plain_io (sends_executeBatched fun _ _ => trivial)

theorem plain_modifyCache (f : UtxoCache → UtxoCache) :
    (modifyCache f).Always Client.Op.Plain :=
  ⟨trivial, fun _ => ⟨trivial, fun _ => trivial⟩⟩

/-- A block is ingested without a transaction and without tasks. -/
theorem plain_ingestBlock (b : LocatedBlock) (offset : Option ℕ) :
    (o.ingestBlock b.block b.height b.fileName offset).Always Client.Op.Plain := by
  have outputs : (o.ingestOutputsAndCache b.block).Always Client.Op.Plain := by
    unfold ingestOutputsAndCache
    refine (Prog.Always.attempt (plain_writeOutputs _)).bind fun written => ?_
    refine (plain_modifyCache _).bind fun _ => ?_
    exact (Prog.always_ofExcept written).bind fun _ => trivial
  have transactions :
      (o.ingestTransactionsWithAmounts b.block b.height).Always Client.Op.Plain := by
    unfold ingestTransactionsWithAmounts
    exact (plain_getManyWithFallback _).bind fun found =>
      plain_executeBatched.bind fun _ => trivial
  have layer : ∀ performs,
      (o.writeSimplifiedLayerRust b.block performs).Always Client.Op.Plain := by
    intro performs
    unfold writeSimplifiedLayerRust writePerformsIfAny writeBenefitsToIfAny
    refine Prog.Always.bind ?_ fun _ => ?_
    · split
      · trivial
      · exact plain_executeBatched
    · split
      · trivial
      · exact plain_executeBatched
  unfold ingestBlock
  refine (plain_io (sends_validateParentHash _ _)).bind fun _ => ?_
  refine Prog.Always.bind plain_executeBatched fun _ => ?_
  refine outputs.bind fun outputData => transactions.bind fun performs => ?_
  refine Prog.Always.bind plain_executeBatched fun _ => ?_
  refine Prog.Always.bind plain_executeBatched fun _ => ?_
  refine (layer performs).bind fun _ => (plain_modifyCache _).bind fun _ => ?_
  exact plain_io (sends_updateCheckpoint trivial)

/-! ## Calls one after the other -/

/-- The calls of a process; a call is made whether or not the one before it succeeded. -/
def runCalls (o : IngestionOrchestrator) : List Call → Ingest Unit
  | [] => pure ()
  | call :: rest => do
    let _ ← (call.program o).attempt
    runCalls o rest

/-- **Every call** is orderly, and leaves nothing open and no task running. -/
theorem orderly_call {call : Call} (inside : call.Inside o) :
    Orderly false (call.program o) .idle fun _ s => s = .idle := by
  have recovers : ∀ {α : Type} {p : Io α}, OnlySends Query.Recovers p →
      (io p).Always Client.Op.Plain := fun sends =>
    plain_io (Prog.Always.mono (fun o _ => by cases o <;> trivial) sends)
  cases call with
  | initSchema => exact Client.holds_of_plain (recovers sends_initSchema)
  | syncCheckpointWithDb =>
    exact Client.holds_of_plain ((recovers sends_syncCheckpointWithDb).bind fun _ => trivial)
  | ingestBlock b offset => exact Client.holds_of_plain (plain_ingestBlock b offset)
  | ingestBlocksBatch blocks =>
    exact (orderly_ingestChunks inside _).bind (fun _ s settled => settled.forgotten)
      fun _ s settled => settled.forgotten
  | rollbackToHeight currentTip forkPoint =>
    exact Client.holds_of_plain
      ((recovers (sends_rollbackToHeight currentTip forkPoint)).bind fun _ => trivial)

theorem orderly_runCalls {calls : List Call} (inside : ∀ call ∈ calls, call.Inside o) :
    Orderly false (o.runCalls calls) .idle fun _ _ => True := by
  induction calls with
  | nil => trivial
  | cons call rest ih =>
    have here : Orderly false (call.program o).attempt .idle fun _ s => s = .idle :=
      Prog.Holds.attempt (orderly_call (inside call List.mem_cons_self))
    refine here.bind (fun _ s same => ?_) fun _ _ _ => trivial
    subst same
    exact ih fun call mem => inside call (List.mem_cons_of_mem _ mem)

/-! ## Every schedule -/

/-- **No statement escapes.** If every task of a chunk has ended when the chunk is rolled back, and
no chunk writes outputs beside its transaction, then every statement of a chunk, its tasks' among
them, is executed in the chunk's transaction, and none after its end. -/
theorem contained_tasks (o : IngestionOrchestrator) (calls : List Call) (g : Graph) (c : UtxoCache)
    (inside : ∀ call ∈ calls, call.Inside o) (turns : List (Turn neo4j))
    (careful : (Crew.start (o.runCalls calls) g c).CarefulRun turns) :
    Contained ((Crew.start (o.runCalls calls) g c).run turns).log :=
  ((Crew.Contains.start (orderly_runCalls inside)).run careful).log

end IngestionOrchestrator

/-! ## Two schedules of one chunk

The chunk writes to the buckets of two addresses, and the first of the two writes fails. -/

namespace Sample

/-- The main flow up to its wait for the buckets, and the failing write of the first of them. -/
def failingBucket : List (Turn neo4j) :=
  List.replicate 30 (.main none) ++ [.task 2 none, .task 2 (some .elapsed)]

/-- The other bucket goes on after the rollback. -/
def lateBucket : List (Turn neo4j) :=
  failingBucket ++ List.replicate 6 (.main none) ++ List.replicate 2 (.task 3 none)

/-- The other bucket ends before the rollback. -/
def joinedBucket : List (Turn neo4j) :=
  failingBucket ++ List.replicate 2 (.task 3 none) ++ List.replicate 6 (.main none)

def oneBatch : Crew neo4j UtxoCache WriterError Unit :=
  .start ((orchestrator 1000000).runCalls [.ingestBlocksBatch [second]]) .empty (.new 1000)

end Sample

/-- The statement of a bucket that comes after the rollback goes to the database directly. -/
theorem bucket_escapes : ¬ ∀ (o : IngestionOrchestrator) (calls : List Call) (g : Graph)
    (c : UtxoCache) (turns : List (Turn neo4j)),
      Contained ((Crew.start (o.runCalls calls) g c).run turns).log := by
  intro always
  have contained := (always (Sample.orchestrator 1000000) [.ingestBlocksBatch [Sample.second]]
    .empty (.new 1000) Sample.lateBucket).not_escaped
  have escaped : (Sample.oneBatch.run Sample.lateBucket).log.any Event.escaped = true := by
    decide +kernel
  rw [Sample.oneBatch, contained] at escaped
  cases escaped

theorem contained_tasks_sample : (Sample.oneBatch.run Sample.joinedBucket).log.length = 8 ∧
    Contained (Sample.oneBatch.run Sample.joinedBucket).log := by
  refine ⟨by decide +kernel, ?_⟩
  refine IngestionOrchestrator.contained_tasks (Sample.orchestrator 1000000)
    [.ingestBlocksBatch [Sample.second]] .empty (.new 1000) ?_ Sample.joinedBucket ?_
  · intro call mem
    cases List.mem_singleton.mp mem
    rintro chunk among ⟨⟨b, inChunk, special⟩, _⟩
    have one : b ∈ [Sample.second] :=
      (Sample.orchestrator 1000000).mem_of_mem_adaptiveChunks among inChunk
    cases List.mem_singleton.mp one
    exact absurd special (by decide)
  · show Sample.oneBatch.CarefulRun Sample.joinedBucket
    decide +kernel

end ChainGraph

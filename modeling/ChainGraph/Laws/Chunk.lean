import ChainGraph.Laws.Effects
import ChainGraph.Laws.Lookup

/-!
# One chunk of a batch

A chunk that is processed sends a fixed list of queries inside its transaction, determined by the
chunk and by what the inputs of its transactions resolve to. Processing succeeds iff the database
accepts them all, and the transaction's view is then their effect. In a chunk with a BIP30 height
the output queries are also sent beside the transaction, and take effect there at once.
-/

namespace ChainGraph

open Foundation Foundation.Store

/-! ## The rows of a chunk -/

def txsOf (chunk : List LocatedBlock) : List Transaction := chunk.flatMap (·.block.txdata)

def blockRows (chunk : List LocatedBlock) : List BlockData :=
  chunk.map fun b => .fromBlock b.block b.height

def transactionRows (res : Found) (chunk : List LocatedBlock) : List TransactionData :=
  chunk.flatMap fun b => b.block.txdata.map (priceTransaction res b.block b.height)

def inputRows (chunk : List LocatedBlock) : List InputData :=
  chunk.flatMap fun b => b.block.txdata.flatMap (inputsOf b.height)

def performsRows (res : Found) (chunk : List LocatedBlock) : List PerformsData :=
  (txsOf chunk).flatMap (performsOf res)

/-- The keys of all previous outputs of a chunk. -/
def spentKeys (chunk : List LocatedBlock) : List UtxoKey :=
  (txsOf chunk).flatMap Transaction.inputKeys

/-- Whether a chunk contains a height with a duplicate coinbase. -/
def hasBip30 (chunk : List LocatedBlock) : Bool :=
  chunk.any fun b => bip30DuplicateHeights.contains b.height

/-- The checkpoint a chunk leaves. -/
def chunkCheckpoint (last : LocatedBlock) : CheckpointData where
  lastProcessedHeight := asI32 last.height
  lastProcessedHash := some last.block.blockHash
  lastProcessedFile := last.fileName
  lastProcessedFileOffset := none
  status := "in_progress"

/-- The prefetch asks for the keys the chunk spends. -/
theorem collectInputKeys_eq (chunk : List LocatedBlock) :
    collectInputKeys chunk = spentKeys chunk := by
  unfold collectInputKeys spentKeys txsOf
  induction chunk.flatMap (·.block.txdata) with
  | nil => rfl
  | cons tx txs ih =>
    rw [List.flatMap_cons, ← ih, List.filter_cons]
    unfold Transaction.inputKeys
    cases tx.isCoinbase with
    | true => rfl
    | false =>
      simp only [Bool.not_false, if_true, List.flatMap_cons, List.map_append]
      rfl

namespace IngestionOrchestrator

variable (o : IngestionOrchestrator)

def outputRows (chunk : List LocatedBlock) : List OutputData :=
  (txsOf chunk).flatMap o.outputsOf

def benefitsRows (chunk : List LocatedBlock) : List BenefitsToData :=
  (txsOf chunk).flatMap o.benefitsOf

/-! ## The queries of a chunk -/

open Neo4jWriter

def chunkOutputQueries (chunk : List LocatedBlock) : List Query :=
  if hasBip30 chunk then o.writer.outputQueries (o.outputRows chunk)
  else o.writer.batchQueries .createOutputsWithLockedToFast (o.outputRows chunk)

def chunkTransactionQueries (res : Found) (chunk : List LocatedBlock) : List Query :=
  if hasBip30 chunk then o.writer.batchQueries .createTransactions (transactionRows res chunk)
  else o.writer.batchQueries .createTransactionsFast (transactionRows res chunk)

def chunkInputQueries (chunk : List LocatedBlock) : List Query :=
  if hasBip30 chunk then o.writer.batchQueries .createInputs (inputRows chunk)
  else o.writer.batchQueries .createInputsFast (inputRows chunk)

/-- The queries of one bucket task. -/
def bucketTaskQueries (performs : List PerformsData) (benefits : List BenefitsToData) :
    List Query :=
  o.writer.batchQueries .createPerformsBulk performs ++
    o.writer.batchQueries .createBenefitsToBulk benefits

def bucketQueries (performs : List PerformsData) (benefits : List BenefitsToData) :
    List (List Query) :=
  List.zipWith o.bucketTaskQueries (partitionPerformsByAddress o.stringHash performs numBuckets)
    (partitionBenefitsByAddress o.stringHash benefits numBuckets)

def checkpointQueries (chunk : List LocatedBlock) : List Query :=
  match chunk.getLast? with
  | some last => [.updateCheckpoint (chunkCheckpoint last)]
  | none => []

/-- Everything a chunk sends in its transaction, where `res` is what its inputs resolve to. -/
def chunkQueries (res : Found) (chunk : List LocatedBlock) : List Query :=
  o.writer.batchQueries .createBlocksFast (blockRows chunk) ++
    (o.chunkOutputQueries chunk ++
      (o.chunkTransactionQueries res chunk ++
        (o.writer.batchQueries .createHasOutputFast (o.outputRows chunk) ++
          (o.chunkInputQueries chunk ++
            ((o.bucketQueries (performsRows res chunk) (o.benefitsRows chunk)).flatten ++
              checkpointQueries chunk)))))

/-! ## Running them -/

variable {o} {g v v' : Graph} {c : UtxoCache} {α : Type}

/-- A writer method in a transaction, followed by the rest of the program. -/
theorem run_io_within {p : Io Unit} {qs : List Query} (sent : Within p qs) {f : Unit → Ingest α}
    (ok : execAll neo4j qs v = .ok v') :
    (io p >>= f).run World.handle ⟨⟨g, some v⟩, c⟩ = (f ()).run World.handle ⟨⟨g, some v'⟩, c⟩ :=
  Prog.run_bind_ok (run_io_eq (sent.ok ok))

theorem run_io_within_error {p : Io Unit} {qs : List Query} (sent : Within p qs)
    {f : Unit → Ingest α} {e : DbFault} (refused : execAll neo4j qs v = .error e) :
    ∃ err v', (io p >>= f).run World.handle ⟨⟨g, some v⟩, c⟩ =
      (.error err, ⟨⟨g, some v'⟩, c⟩) := by
  obtain ⟨err, v', ran⟩ := sent.error (d := g) refused
  exact ⟨err, v', Prog.run_bind_error (run_io_eq ran)⟩

theorem within_writePerformsIfAny (performs : List PerformsData) :
    Within (o.writePerformsIfAny performs)
      (o.writer.batchQueries .createPerformsBulk performs) := by
  unfold writePerformsIfAny
  by_cases empty : performs.isEmpty
  · rw [if_pos empty, List.isEmpty_iff.mp empty]
    exact .done
  · rw [if_neg empty]
    exact within_executeBatched

theorem within_writeBenefitsToIfAny (benefits : List BenefitsToData) :
    Within (o.writeBenefitsToIfAny benefits)
      (o.writer.batchQueries .createBenefitsToBulk benefits) := by
  unfold writeBenefitsToIfAny
  by_cases empty : benefits.isEmpty
  · rw [if_pos empty, List.isEmpty_iff.mp empty]
    exact .done
  · rw [if_neg empty]
    exact within_executeBatched

theorem within_bucketTask (performs : List PerformsData) (benefits : List BenefitsToData) :
    Within (o.bucketTask performs benefits) (o.bucketTaskQueries performs benefits) :=
  (within_writePerformsIfAny performs).seq (within_writeBenefitsToIfAny benefits)

theorem within_bucketTasks (performs : List PerformsData) (benefits : List BenefitsToData) :
    List.Forall₂ Within (o.bucketTasks performs benefits) (o.bucketQueries performs benefits) := by
  unfold bucketTasks bucketQueries
  generalize partitionPerformsByAddress o.stringHash performs numBuckets = ps
  generalize partitionBenefitsByAddress o.stringHash benefits numBuckets = bs
  induction ps generalizing bs with
  | nil => exact .nil
  | cons p ps ih =>
    cases bs with
    | nil => exact .nil
    | cons b bs => exact .cons (within_bucketTask p b) (ih bs)

theorem within_checkpointChunk (chunk : List LocatedBlock) :
    Within (checkpointChunk chunk) (checkpointQueries chunk) := by
  unfold checkpointChunk checkpointQueries
  cases chunk.getLast? with
  | none => exact .done
  | some last => exact within_updateCheckpoint

/-- What the output queries of a BIP30 chunk do to the committed graph beside the transaction. -/
def besideChunk (o : IngestionOrchestrator) (chunk : List LocatedBlock) (g : Graph) : Graph :=
  if hasBip30 chunk then (o.outputRows chunk).foldl (Graph.putOutput mergeLink) g else g

/-- The cache after the outputs of a chunk have been inserted, and what its inputs resolve to. -/
def resolvedChunk (o : IngestionOrchestrator) (chunk : List LocatedBlock) (found : Found)
    (c : UtxoCache) : UtxoCache × Found :=
  supplement (spentKeys chunk) found (populateCache (o.outputRows chunk) c)

variable {chunk : List LocatedBlock} {found : Found} {res : Found}

/-- The output write of a chunk: merging and direct in a BIP30 chunk, else creating. -/
def chunkOutputWrite (o : IngestionOrchestrator) (chunk : List LocatedBlock) : Io Unit :=
  if hasBip30 chunk then o.writer.writeOutputs (o.outputRows chunk)
  else o.writer.writeOutputsFast (o.outputRows chunk)

def chunkTransactionWrite (o : IngestionOrchestrator) (res : Found) (chunk : List LocatedBlock) :
    Io Unit :=
  if hasBip30 chunk then o.writer.writeTransactions (transactionRows res chunk)
  else o.writer.writeTransactionsFast (transactionRows res chunk)

def chunkInputWrite (o : IngestionOrchestrator) (chunk : List LocatedBlock) : Io Unit :=
  if hasBip30 chunk then o.writer.writeInputs (inputRows chunk)
  else o.writer.writeInputsFast (inputRows chunk)

/-- The numbers a chunk reports. -/
def chunkCounts (o : IngestionOrchestrator) (chunk : List LocatedBlock) : ℕ × ℕ × ℕ :=
  ((txsOf chunk).length, (o.outputRows chunk).length, (inputRows chunk).length)

/-- The phases after the inputs of a chunk have been resolved. -/
def writeResolved (o : IngestionOrchestrator) (res : Found) (chunk : List LocatedBlock) :
    Ingest (ℕ × ℕ × ℕ) := do
  io (o.chunkTransactionWrite res chunk)
  io (o.writer.writeHasOutputRelationshipsFast (o.outputRows chunk))
  io (o.chunkInputWrite chunk)
  spawnAll (o.bucketTasks (performsRows res chunk) (o.benefitsRows chunk))
  modifyCache fun c => c.removeMany (spentKeys chunk)
  io (checkpointChunk chunk)
  pure (o.chunkCounts chunk)

/-- Processing a chunk, with its rows named. -/
theorem processBatchChunk_eq (o : IngestionOrchestrator) (chunk : List LocatedBlock)
    (found : Found) :
    o.processBatchChunk chunk found = (do
      io (o.writer.writeBlocksFast (blockRows chunk))
      let writeResult ← (io (o.chunkOutputWrite chunk)).attempt
      modifyCache (populateCache (o.outputRows chunk))
      Prog.ofExcept writeResult
      let cache ← getCache
      setCache (supplement (spentKeys chunk) found cache).1
      o.writeResolved (supplement (spentKeys chunk) found cache).2 chunk) := rfl

theorem within_chunkTransactionWrite :
    Within (o.chunkTransactionWrite res chunk) (o.chunkTransactionQueries res chunk) := by
  unfold chunkTransactionWrite chunkTransactionQueries
  by_cases bip30 : hasBip30 chunk
  · rw [if_pos bip30, if_pos bip30]
    exact within_executeBatched
  · rw [if_neg bip30, if_neg bip30]
    exact within_executeBatched

theorem within_chunkInputWrite :
    Within (o.chunkInputWrite chunk) (o.chunkInputQueries chunk) := by
  unfold chunkInputWrite chunkInputQueries
  by_cases bip30 : hasBip30 chunk
  · rw [if_pos bip30, if_pos bip30]
    exact within_executeBatched
  · rw [if_neg bip30, if_neg bip30]
    exact within_executeBatched

/-- The output write succeeds if its queries are accepted. -/
theorem run_chunkOutputWrite (ok : execAll neo4j (o.chunkOutputQueries chunk) v = .ok v') :
    (o.chunkOutputWrite chunk).run handle ⟨g, some v⟩ =
      (.ok (), ⟨besideChunk o chunk g, some v'⟩) := by
  unfold chunkOutputQueries at ok
  unfold chunkOutputWrite besideChunk
  by_cases bip30 : hasBip30 chunk
  · rw [if_pos bip30] at ok ⊢
    rw [if_pos bip30]
    exact beside_writeOutputs.ok (execAll_outputQueries o.writer (o.outputRows chunk) g) ok
  · rw [if_neg bip30] at ok ⊢
    rw [if_neg bip30]
    exact within_executeBatched.ok ok

/-- It fails if one of them is refused, and then nothing has been written beside the
transaction. -/
theorem run_chunkOutputWrite_error {e : DbFault}
    (refused : execAll neo4j (o.chunkOutputQueries chunk) v = .error e) :
    ∃ err v', (o.chunkOutputWrite chunk).run handle ⟨g, some v⟩ = (.error err, ⟨g, some v'⟩) := by
  unfold chunkOutputQueries at refused
  unfold chunkOutputWrite
  by_cases bip30 : hasBip30 chunk
  · rw [if_pos bip30, execAll_outputQueries] at refused
    cases refused
  · rw [if_neg bip30] at refused ⊢
    exact within_executeBatched.error refused

theorem run_spawnAll {performs : List PerformsData} {benefits : List BenefitsToData}
    (ok : execAll neo4j (o.bucketQueries performs benefits).flatten v = .ok v') :
    (spawnAll (o.bucketTasks performs benefits)).run World.handle ⟨⟨g, some v⟩, c⟩ =
      (.ok (), ⟨⟨g, some v'⟩, c⟩) := by
  have ran := World.runTasks_within (within_bucketTasks performs benefits) (d := g) ok
  unfold spawnAll
  rw [Prog.run_bind, Prog.run_perform]
  simp only [World.handle, ran]
  exact Prog.run_ofExcept ..

/-- The queries a chunk sends once its inputs are resolved. -/
def resolvedQueries (o : IngestionOrchestrator) (res : Found) (chunk : List LocatedBlock) :
    List Query :=
  o.chunkTransactionQueries res chunk ++
    (o.writer.batchQueries .createHasOutputFast (o.outputRows chunk) ++
      (o.chunkInputQueries chunk ++
        ((o.bucketQueries (performsRows res chunk) (o.benefitsRows chunk)).flatten ++
          checkpointQueries chunk)))

theorem chunkQueries_eq :
    o.chunkQueries res chunk =
      o.writer.batchQueries .createBlocksFast (blockRows chunk) ++
        (o.chunkOutputQueries chunk ++ o.resolvedQueries res chunk) := rfl

theorem run_writeResolved (ok : execAll neo4j (o.resolvedQueries res chunk) v = .ok v') :
    (o.writeResolved res chunk).run World.handle ⟨⟨g, some v⟩, c⟩ =
      (.ok (o.chunkCounts chunk), ⟨⟨g, some v'⟩, c.removeMany (spentKeys chunk)⟩) := by
  unfold resolvedQueries at ok
  obtain ⟨v₁, transactions, ok⟩ := execAll_append_eq_ok.mp ok
  obtain ⟨v₂, hasOutput, ok⟩ := execAll_append_eq_ok.mp ok
  obtain ⟨v₃, inputs, ok⟩ := execAll_append_eq_ok.mp ok
  obtain ⟨v₄, simplified, checkpoint⟩ := execAll_append_eq_ok.mp ok
  unfold writeResolved
  rw [run_io_within within_chunkTransactionWrite transactions,
    writeHasOutputRelationshipsFast, run_io_within within_executeBatched hasOutput,
    run_io_within within_chunkInputWrite inputs,
    Prog.run_bind_ok (run_spawnAll simplified),
    Prog.run_bind_ok (run_modifyCache ..),
    run_io_within (within_checkpointChunk chunk) checkpoint]
  rfl

/-- The effect of one bucket task. -/
def bucketEffect (g : Graph) (bucket : List PerformsData × List BenefitsToData) : Graph :=
  bucket.2.foldl Graph.mergeBenefitsTo (bucket.1.foldl Graph.mergePerforms g)

/-- The buckets of a chunk, in order. -/
def buckets (o : IngestionOrchestrator) (performs : List PerformsData)
    (benefits : List BenefitsToData) : List (List PerformsData × List BenefitsToData) :=
  (partitionPerformsByAddress o.stringHash performs numBuckets).zip
    (partitionBenefitsByAddress o.stringHash benefits numBuckets)

theorem execAll_bucketTaskQueries (performs : List PerformsData) (benefits : List BenefitsToData)
    (g : Graph) :
    execAll neo4j (o.bucketTaskQueries performs benefits) g =
      .ok (bucketEffect g (performs, benefits)) := by
  unfold bucketTaskQueries
  rw [execAll_append_ok (execAll_batchQueries_total (fun _ _ => rfl) performs g),
    execAll_batchQueries_total (fun _ _ => rfl) benefits]
  rfl

/-- The simplified layer is never refused. -/
theorem execAll_bucketQueries (performs : List PerformsData) (benefits : List BenefitsToData)
    (g : Graph) :
    execAll neo4j (o.bucketQueries performs benefits).flatten g =
      .ok ((o.buckets performs benefits).foldl bucketEffect g) := by
  unfold bucketQueries buckets
  rw [List.zip_eq_zipWith]
  generalize partitionPerformsByAddress o.stringHash performs numBuckets = ps
  generalize partitionBenefitsByAddress o.stringHash benefits numBuckets = bs
  induction ps generalizing bs g with
  | nil => rfl
  | cons p ps ih =>
    cases bs with
    | nil => rfl
    | cons b bs =>
      rw [List.zipWith_cons_cons, List.flatten_cons,
        execAll_append_ok (execAll_bucketTaskQueries p b g), ih, List.zipWith_cons_cons,
        List.foldl_cons]

/-- The graph with the checkpoint of a chunk. -/
def withCheckpoint (chunk : List LocatedBlock) (g : Graph) : Graph :=
  match chunk.getLast? with
  | some last => { g with checkpoint := some (.ofData (chunkCheckpoint last)) }
  | none => g

theorem execAll_checkpointQueries (chunk : List LocatedBlock) (g : Graph) :
    execAll neo4j (checkpointQueries chunk) g = .ok (withCheckpoint chunk g) := by
  unfold checkpointQueries withCheckpoint
  cases chunk.getLast? <;> rfl

/-- If a statement is refused once the inputs are resolved, the program fails. -/
theorem run_writeResolved_error {e : DbFault}
    (refused : execAll neo4j (o.resolvedQueries res chunk) v = .error e) :
    ∃ err v' c', (o.writeResolved res chunk).run World.handle ⟨⟨g, some v⟩, c⟩ =
      (.error err, ⟨⟨g, some v'⟩, c'⟩) := by
  unfold resolvedQueries at refused
  unfold writeResolved
  cases transactions : execAll neo4j (o.chunkTransactionQueries res chunk) v with
  | error f =>
    obtain ⟨err, v', ran⟩ := run_io_within_error within_chunkTransactionWrite transactions
    exact ⟨err, v', c, ran⟩
  | ok v₁ =>
    rw [execAll_append_ok transactions] at refused
    rw [run_io_within within_chunkTransactionWrite transactions]
    cases hasOutput : execAll neo4j
        (o.writer.batchQueries .createHasOutputFast (o.outputRows chunk)) v₁ with
    | error f =>
      have sent : Within (o.writer.writeHasOutputRelationshipsFast (o.outputRows chunk))
          (o.writer.batchQueries .createHasOutputFast (o.outputRows chunk)) := within_executeBatched
      obtain ⟨err, v', ran⟩ := run_io_within_error sent hasOutput
      exact ⟨err, v', c, ran⟩
    | ok v₂ =>
      rw [execAll_append_ok hasOutput] at refused
      rw [writeHasOutputRelationshipsFast, run_io_within within_executeBatched hasOutput]
      cases inputs : execAll neo4j (o.chunkInputQueries chunk) v₂ with
      | error f =>
        obtain ⟨err, v', ran⟩ := run_io_within_error within_chunkInputWrite inputs
        exact ⟨err, v', c, ran⟩
      | ok v₃ =>
        -- the simplified layer and the checkpoint are never refused
        rw [execAll_append_ok inputs, execAll_append_ok (execAll_bucketQueries ..),
          execAll_checkpointQueries] at refused
        cases refused

/-- Processing a chunk whose queries are all accepted. -/
theorem run_processBatchChunk
    (ok : execAll neo4j (o.chunkQueries (resolvedChunk o chunk found c).2 chunk) v = .ok v') :
    (o.processBatchChunk chunk found).run World.handle ⟨⟨g, some v⟩, c⟩ =
      (.ok (o.chunkCounts chunk), ⟨⟨besideChunk o chunk g, some v'⟩,
        (resolvedChunk o chunk found c).1.removeMany (spentKeys chunk)⟩) := by
  rw [chunkQueries_eq] at ok
  obtain ⟨v₁, blocks, ok⟩ := execAll_append_eq_ok.mp ok
  obtain ⟨v₂, outputs, ok⟩ := execAll_append_eq_ok.mp ok
  have wrote : ((io (o.chunkOutputWrite chunk)).attempt).run World.handle ⟨⟨g, some v₁⟩, c⟩ =
      (.ok (.ok ()), ⟨⟨besideChunk o chunk g, some v₂⟩, c⟩) := by
    rw [Prog.run_attempt, run_io_eq (run_chunkOutputWrite outputs)]
  rw [processBatchChunk_eq, writeBlocksFast, run_io_within within_executeBatched blocks,
    Prog.run_bind_ok wrote, Prog.run_bind_ok (run_modifyCache ..),
    Prog.run_bind_ok (Prog.run_ofExcept ..), Prog.run_bind_ok (run_getCache _),
    Prog.run_bind_ok (run_setCache ..)]
  exact run_writeResolved ok

/-- Processing a chunk one of whose queries is refused. The transaction is still open; outside it
nothing has been written, except the outputs of a BIP30 chunk. -/
theorem run_processBatchChunk_error {e : DbFault}
    (refused : execAll neo4j (o.chunkQueries (resolvedChunk o chunk found c).2 chunk) v =
      .error e) :
    ∃ err g' v' c', (g' = g ∨ g' = besideChunk o chunk g) ∧
      (o.processBatchChunk chunk found).run World.handle ⟨⟨g, some v⟩, c⟩ =
        (.error err, ⟨⟨g', some v'⟩, c'⟩) := by
  rw [chunkQueries_eq] at refused
  rw [processBatchChunk_eq]
  cases blocks : execAll neo4j (o.writer.batchQueries .createBlocksFast (blockRows chunk)) v with
  | error f =>
    have sent : Within (o.writer.writeBlocksFast (blockRows chunk))
        (o.writer.batchQueries .createBlocksFast (blockRows chunk)) := within_executeBatched
    obtain ⟨err, v', ran⟩ := run_io_within_error sent blocks
    exact ⟨err, g, v', c, Or.inl rfl, ran⟩
  | ok v₁ =>
    rw [execAll_append_ok blocks] at refused
    rw [writeBlocksFast, run_io_within within_executeBatched blocks]
    cases outputs : execAll neo4j (o.chunkOutputQueries chunk) v₁ with
    | error f =>
      obtain ⟨err, v', ran⟩ := run_chunkOutputWrite_error (g := g) outputs
      have wrote : ((io (o.chunkOutputWrite chunk)).attempt).run World.handle
          ⟨⟨g, some v₁⟩, c⟩ = (.ok (.error err), ⟨⟨g, some v'⟩, c⟩) := by
        rw [Prog.run_attempt, run_io_eq ran]
      rw [Prog.run_bind_ok wrote, Prog.run_bind_ok (run_modifyCache ..)]
      exact ⟨err, g, v', _, Or.inl rfl, Prog.run_bind_error (Prog.run_ofExcept ..)⟩
    | ok v₂ =>
      rw [execAll_append_ok outputs] at refused
      have wrote : ((io (o.chunkOutputWrite chunk)).attempt).run World.handle
          ⟨⟨g, some v₁⟩, c⟩ = (.ok (.ok ()), ⟨⟨besideChunk o chunk g, some v₂⟩, c⟩) := by
        rw [Prog.run_attempt, run_io_eq (run_chunkOutputWrite outputs)]
      rw [Prog.run_bind_ok wrote, Prog.run_bind_ok (run_modifyCache ..),
        Prog.run_bind_ok (Prog.run_ofExcept ..), Prog.run_bind_ok (run_getCache _),
        Prog.run_bind_ok (run_setCache ..)]
      obtain ⟨err, v', c', ran⟩ := run_writeResolved_error (g := besideChunk o chunk g) refused
      exact ⟨err, _, v', c', Or.inr rfl, ran⟩

/-! ## Validation, prefetch, transaction -/

/-- The stored block below, if there is one, is the block's parent. -/
def ParentOk (g : Graph) (block : Block) (height : ℕ) : Prop :=
  height = 0 ∨ ∀ hash, g.lookupBlockHash (height - 1) = some hash →
    hash = block.header.prevBlockhash

theorem run_validateParentHash {block : Block} {height : ℕ} {s : Store neo4j}
    (parent : ParentOk s.committed block height) :
    (o.validateParentHash block height).run handle s = (.ok (), s) := by
  unfold validateParentHash
  by_cases genesis : height = 0
  · rw [if_pos genesis]
    rfl
  · rw [if_neg genesis, Prog.run_bind, run_lookupBlockHash]
    cases stored : s.committed.lookupBlockHash (height - 1) with
    | none => rfl
    | some hash =>
      have same := (parent.resolve_left genesis) hash stored
      simp only [if_pos same]
      rfl

theorem run_validateParentHash_error {block : Block} {height : ℕ} {s : Store neo4j}
    (orphan : ¬ ParentOk s.committed block height) :
    ∃ actual, s.committed.lookupBlockHash (height - 1) = some actual ∧
      (o.validateParentHash block height).run handle s =
        (.error (.ReorgDetected height block.header.prevBlockhash actual), s) := by
  unfold ParentOk at orphan
  push Not at orphan
  obtain ⟨genesis, actual, stored, other⟩ := orphan
  refine ⟨actual, stored, ?_⟩
  unfold validateParentHash
  rw [if_neg genesis, Prog.run_bind, run_lookupBlockHash, stored]
  simp only [if_neg other]
  rfl

/-- What validation of a chunk checks. -/
def FirstParentOk (g : Graph) (chunk : List LocatedBlock) : Prop :=
  ∀ first, chunk.head? = some first → ParentOk g first.block first.height

theorem run_validateFirst {s : Store neo4j} (parent : FirstParentOk s.committed chunk) :
    (o.validateFirst chunk).run handle s = (.ok (), s) := by
  unfold validateFirst
  cases head : chunk.head? with
  | none => rfl
  | some first => exact run_validateParentHash (parent first head)

theorem run_validateFirst_error {s : Store neo4j} (orphan : ¬ FirstParentOk s.committed chunk) :
    ∃ first actual, chunk.head? = some first ∧
      s.committed.lookupBlockHash (first.height - 1) = some actual ∧
      (o.validateFirst chunk).run handle s =
        (.error (.ReorgDetected first.height first.block.header.prevBlockhash actual), s) := by
  unfold FirstParentOk at orphan
  push Not at orphan
  obtain ⟨first, head, other⟩ := orphan
  obtain ⟨actual, stored, ran⟩ := run_validateParentHash_error (o := o) other
  refine ⟨first, actual, head, stored, ?_⟩
  unfold validateFirst
  rw [head]
  exact ran

/-- A chunk whose queries are accepted is committed: what they make of the graph is the new
graph. -/
theorem run_ingestChunk_ok {c₁ : UtxoCache} (parent : FirstParentOk g chunk)
    (fetched : (prefetchUtxos (spentKeys chunk)).run World.handle ⟨⟨g, none⟩, c⟩ =
      (.ok found, ⟨⟨g, none⟩, c₁⟩)) {g' : Graph}
    (ok : execAll neo4j (o.chunkQueries (resolvedChunk o chunk found c₁).2 chunk) g = .ok g') :
    (o.ingestChunk chunk).run World.handle ⟨⟨g, none⟩, c⟩ =
      (.ok (o.chunkCounts chunk),
        ⟨⟨g', none⟩, (resolvedChunk o chunk found c₁).1.removeMany (spentKeys chunk)⟩) := by
  have validated : (io (o.validateFirst chunk)).run World.handle ⟨⟨g, none⟩, c⟩ =
      (.ok (), ⟨⟨g, none⟩, c⟩) := run_io_eq (run_validateFirst parent)
  have opened : (io Neo4jWriter.beginTransaction).run World.handle ⟨⟨g, none⟩, c₁⟩ =
      (.ok (), ⟨⟨g, some g⟩, c₁⟩) := run_io_eq (run_beginTransaction g)
  have processed := run_processBatchChunk (g := g) ok
  rw [ingestChunk, collectInputKeys_eq, Prog.run_bind_ok validated, Prog.run_bind_ok fetched,
    Prog.run_bind_ok opened, Prog.run_bind_ok (Prog.run_attempt ..), processed]
  show (endChunk (.ok _)).run World.handle _ = _
  unfold endChunk
  rw [Prog.run_bind_ok (run_io_eq (run_commitTransaction ..))]
  rfl

/-- A chunk one of whose queries is refused is rolled back. -/
theorem run_ingestChunk_refused {c₁ : UtxoCache} (parent : FirstParentOk g chunk)
    (fetched : (prefetchUtxos (spentKeys chunk)).run World.handle ⟨⟨g, none⟩, c⟩ =
      (.ok found, ⟨⟨g, none⟩, c₁⟩)) {e : DbFault}
    (refused : execAll neo4j (o.chunkQueries (resolvedChunk o chunk found c₁).2 chunk) g =
      .error e) :
    ∃ err g' c', (g' = g ∨ g' = besideChunk o chunk g) ∧
      (o.ingestChunk chunk).run World.handle ⟨⟨g, none⟩, c⟩ =
        (.error err, ⟨⟨g', none⟩, c'⟩) := by
  have validated : (io (o.validateFirst chunk)).run World.handle ⟨⟨g, none⟩, c⟩ =
      (.ok (), ⟨⟨g, none⟩, c⟩) := run_io_eq (run_validateFirst parent)
  have opened : (io Neo4jWriter.beginTransaction).run World.handle ⟨⟨g, none⟩, c₁⟩ =
      (.ok (), ⟨⟨g, some g⟩, c₁⟩) := run_io_eq (run_beginTransaction g)
  obtain ⟨err, g', v', c', outside, processed⟩ := run_processBatchChunk_error (g := g) refused
  refine ⟨err, g', c', outside, ?_⟩
  rw [ingestChunk, collectInputKeys_eq, Prog.run_bind_ok validated, Prog.run_bind_ok fetched,
    Prog.run_bind_ok opened, Prog.run_bind_ok (Prog.run_attempt ..), processed]
  show (endChunk (.error _)).run World.handle _ = _
  unfold endChunk
  rw [Prog.run_bind_ok (Prog.run_attempt ..), run_io_eq (run_rollbackTransaction ..)]
  rfl

/-- **A chunk.** Every outcome of a chunk: its first block is an orphan and nothing happens, or a
query is refused and it is rolled back, or it is committed. -/
inductive ChunkOutcome (o : IngestionOrchestrator) (chunk : List LocatedBlock) (g : Graph)
    (found : Found) (c₁ : UtxoCache) (c : UtxoCache) :
    Except WriterError (ℕ × ℕ × ℕ) × World neo4j UtxoCache → Prop
  | orphan (err : WriterError) (unlinked : ¬ FirstParentOk g chunk) :
    ChunkOutcome o chunk g found c₁ c (.error err, ⟨⟨g, none⟩, c⟩)
  | refused (err : WriterError) (g' : Graph) (c' : UtxoCache) (parent : FirstParentOk g chunk)
      (outside : g' = g ∨ g' = besideChunk o chunk g) :
    ChunkOutcome o chunk g found c₁ c (.error err, ⟨⟨g', none⟩, c'⟩)
  | committed (g' : Graph) (parent : FirstParentOk g chunk)
      (sent : execAll neo4j (o.chunkQueries (resolvedChunk o chunk found c₁).2 chunk) g = .ok g') :
    ChunkOutcome o chunk g found c₁ c (.ok (o.chunkCounts chunk),
      ⟨⟨g', none⟩, (resolvedChunk o chunk found c₁).1.removeMany (spentKeys chunk)⟩)

theorem run_ingestChunk_outcome {c₁ : UtxoCache}
    (fetched : (prefetchUtxos (spentKeys chunk)).run World.handle ⟨⟨g, none⟩, c⟩ =
      (.ok found, ⟨⟨g, none⟩, c₁⟩)) :
    ChunkOutcome o chunk g found c₁ c ((o.ingestChunk chunk).run World.handle ⟨⟨g, none⟩, c⟩) := by
  by_cases parent : FirstParentOk g chunk
  · cases sent : execAll neo4j (o.chunkQueries (resolvedChunk o chunk found c₁).2 chunk) g with
    | ok g' =>
      rw [run_ingestChunk_ok parent fetched sent]
      exact .committed g' parent sent
    | error e =>
      obtain ⟨err, g', c', outside, ran⟩ := run_ingestChunk_refused parent fetched sent
      rw [ran]
      exact .refused err g' c' parent outside
  · have orphan : ¬ FirstParentOk (Store.committed (E := neo4j) ⟨g, none⟩) chunk := parent
    obtain ⟨first, actual, head, stored, ran⟩ := run_validateFirst_error (o := o) orphan
    have stopped : (o.ingestChunk chunk).run World.handle ⟨⟨g, none⟩, c⟩ =
        (.error _, ⟨⟨g, none⟩, c⟩) := Prog.run_bind_error (run_io_eq ran)
    rw [stopped]
    exact .orphan _ parent

/-- An orphaned first block stops the chunk before anything is written. -/
theorem run_ingestChunk_orphan {s : Store neo4j} (orphan : ¬ FirstParentOk s.committed chunk) :
    ∃ first actual, chunk.head? = some first ∧
      s.committed.lookupBlockHash (first.height - 1) = some actual ∧
      (o.ingestChunk chunk).run World.handle ⟨s, c⟩ =
        (.error (.ReorgDetected first.height first.block.header.prevBlockhash actual),
          ⟨s, c⟩) := by
  obtain ⟨first, actual, head, stored, ran⟩ := run_validateFirst_error (o := o) orphan
  exact ⟨first, actual, head, stored, Prog.run_bind_error (run_io_eq ran)⟩

end IngestionOrchestrator

end ChainGraph

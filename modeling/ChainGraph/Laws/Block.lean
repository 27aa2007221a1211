import ChainGraph.Laws.Chunk

/-!
# One block with direct statements

`ingest_block` commits every statement on its own, so a failure leaves what was written before it.
It can fail at three places: the block's parent is not the stored block below, another block has
its height, or an input spends an output that is neither cached nor stored. What it writes after
its inputs are resolved is never refused.
-/

namespace ChainGraph

open Foundation Foundation.Store

theorem chunks_singleton {α : Type} {n : ℕ} (pos : 0 < n) (a : α) : chunks n [a] = [[a]] := by
  obtain ⟨m, rfl⟩ : ∃ m, n = m + 1 := ⟨n - 1, by omega⟩
  simp [chunks, chunksFrom]

namespace IngestionOrchestrator

variable {o : IngestionOrchestrator} {b : LocatedBlock} {g g₁ : Graph}
  {c c₁ c' : UtxoCache} {res : Found} {α : Type}

theorem txsOf_singleton (b : LocatedBlock) : txsOf [b] = b.block.txdata := by
  simp [txsOf]

theorem outputRows_singleton (o : IngestionOrchestrator) (b : LocatedBlock) :
    o.outputRows [b] = b.block.txdata.flatMap o.outputsOf := by
  rw [outputRows, txsOf_singleton]

theorem transactionRows_singleton (res : Found) (b : LocatedBlock) :
    transactionRows res [b] =
      b.block.txdata.map (priceTransactionInBlock res b.block b.height) := by
  rw [show priceTransactionInBlock res b.block b.height = priceTransaction res b.block b.height
    from funext fun tx => priceTransactionInBlock_eq res b.block b.height tx]
  simp [transactionRows]

theorem inputRows_singleton (b : LocatedBlock) :
    inputRows [b] = b.block.txdata.flatMap (inputsOf b.height) := by
  simp [inputRows]

theorem spentKeys_singleton (b : LocatedBlock) :
    spentKeys [b] = b.block.txdata.flatMap Transaction.inputKeys := by
  rw [spentKeys, txsOf_singleton]

/-- The checkpoint a block leaves. -/
def blockCheckpoint (b : LocatedBlock) (offset : Option ℕ) : CheckpointData where
  lastProcessedHeight := asI32 b.height
  lastProcessedHash := some b.block.blockHash
  lastProcessedFile := b.fileName
  lastProcessedFileOffset := offset
  status := "in_progress"

/-- The graph with the outputs of a block. -/
def putOutputs (o : IngestionOrchestrator) (b : LocatedBlock) (g : Graph) : Graph :=
  (o.outputRows [b]).foldl (Graph.putOutput mergeLink) g

/-- What a block adds once its outputs are stored and its inputs are resolved. -/
def finishBlock (o : IngestionOrchestrator) (res : Found) (b : LocatedBlock) (offset : Option ℕ)
    (g : Graph) : Graph :=
  let g := (transactionRows res [b]).foldl (Graph.putTransaction mergeLink) g
  let g := (o.outputRows [b]).foldl (Graph.putHasOutput mergeLink) g
  let g := (inputRows [b]).foldl (Graph.putInput mergeLink mergeLink) g
  let g := (performsRows res [b]).foldl Graph.mergePerforms g
  let g := (o.benefitsRows [b]).foldl Graph.mergeBenefitsTo g
  { g with checkpoint := some (.ofData (blockCheckpoint b offset)) }

/-! ## Its parts -/

/-- A writer method without a transaction, followed by the rest of the program. -/
theorem run_io_direct {p : Io Unit} {qs : List Query} (sent : Direct p qs) {f : Unit → Ingest α}
    (ok : execAll neo4j qs g = .ok g₁) :
    (io p >>= f).run World.handle ⟨⟨g, none⟩, c⟩ =
      (f ()).run World.handle ⟨⟨g₁, none⟩, c⟩ :=
  Prog.run_bind_ok (run_io_eq (sent.ok ok))

theorem direct_writePerformsIfAny (performs : List PerformsData) :
    Direct (o.writePerformsIfAny performs)
      (o.writer.batchQueries .createPerformsBulk performs) := by
  unfold writePerformsIfAny
  by_cases empty : performs.isEmpty
  · rw [if_pos empty, List.isEmpty_iff.mp empty]
    exact .done
  · rw [if_neg empty]
    exact Neo4jWriter.direct_executeBatched

theorem direct_writeBenefitsToIfAny (benefits : List BenefitsToData) :
    Direct (o.writeBenefitsToIfAny benefits)
      (o.writer.batchQueries .createBenefitsToBulk benefits) := by
  unfold writeBenefitsToIfAny
  by_cases empty : benefits.isEmpty
  · rw [if_pos empty, List.isEmpty_iff.mp empty]
    exact .done
  · rw [if_neg empty]
    exact Neo4jWriter.direct_executeBatched

/-- The query for the block's node. -/
abbrev blockQuery (b : LocatedBlock) : Query := .createBlocks (blockRows [b])

theorem direct_writeBlock (b : LocatedBlock) :
    Direct (o.writer.writeBlocks [.fromBlock b.block b.height]) [blockQuery b] := by
  have sent : Direct (o.writer.writeBlocks [.fromBlock b.block b.height])
      (o.writer.batchQueries .createBlocks (blockRows [b])) := Neo4jWriter.direct_executeBatched
  have one : o.writer.batchQueries .createBlocks (blockRows [b]) = [blockQuery b] := by
    unfold Neo4jWriter.batchQueries
    rw [show blockRows [b] = [.fromBlock b.block b.height] from rfl,
      chunks_singleton o.writer.batchSize_pos]
    rfl
  rw [one] at sent
  exact sent

/-- A refused block leaves the graph as it is. -/
theorem run_writeBlock_refused {fault : DbFault} (refusal : (blockQuery b).exec g = .error fault) :
    ∃ err, (o.writer.writeBlocks [.fromBlock b.block b.height]).run handle ⟨g, none⟩ =
      (.error err, ⟨g, none⟩) := by
  obtain ⟨err, ran⟩ := Neo4jWriter.run_runWithRetry_error o.writer "write_blocks" 1 1 1
    o.writer.maxRetries (s := ⟨g, none⟩) refusal
  refine ⟨err, ?_⟩
  have asked : (call .inTxn).run handle ⟨g, none⟩ = (.ok false, ⟨g, none⟩) := rfl
  unfold Neo4jWriter.writeBlocks Neo4jWriter.executeBatched
  rw [chunks_singleton o.writer.batchSize_pos]
  simp only [List.isEmpty_cons, Bool.false_eq_true, if_false]
  rw [Prog.run_bind_ok asked]
  exact Prog.run_bind_error ran

theorem run_ingestOutputsAndCache (b : LocatedBlock) (g : Graph) (c : UtxoCache) :
    (o.ingestOutputsAndCache b.block).run World.handle ⟨⟨g, none⟩, c⟩ =
      (.ok (o.outputRows [b]),
        ⟨⟨o.putOutputs b g, none⟩, populateCache (o.outputRows [b]) c⟩) := by
  have sent := (Neo4jWriter.direct_writeOutputs (w := o.writer)).ok
    (Neo4jWriter.execAll_outputQueries o.writer (o.outputRows [b]) g)
  have wrote : ((io (o.writer.writeOutputs (o.outputRows [b]))).attempt).run World.handle
      ⟨⟨g, none⟩, c⟩ = (.ok (.ok ()), ⟨⟨o.putOutputs b g, none⟩, c⟩) := by
    rw [Prog.run_attempt, run_io_eq sent]
    rfl
  unfold ingestOutputsAndCache
  rw [← outputRows_singleton, Prog.run_bind_ok wrote, Prog.run_bind_ok (run_modifyCache ..),
    Prog.run_bind_ok (Prog.run_ofExcept ..)]
  rfl

variable {offset : Option ℕ}

theorem run_ingestTransactionsWithAmounts {g₀ : Graph}
    (looked : (getManyWithFallback (spentKeys [b])).run World.handle ⟨⟨g₀, none⟩, c⟩ =
      (.ok res, ⟨⟨g, none⟩, c'⟩)) :
    (o.ingestTransactionsWithAmounts b.block b.height).run World.handle ⟨⟨g₀, none⟩, c⟩ =
      (.ok (performsRows res [b]),
        ⟨⟨(transactionRows res [b]).foldl (Graph.putTransaction mergeLink) g, none⟩, c'⟩) := by
  have performs : b.block.txdata.flatMap (performsOf res) = performsRows res [b] := by
    rw [performsRows, txsOf_singleton]
  unfold ingestTransactionsWithAmounts
  rw [← spentKeys_singleton, Prog.run_bind_ok looked, ← transactionRows_singleton, performs,
    Neo4jWriter.writeTransactions, run_io_direct Neo4jWriter.direct_executeBatched
      (execAll_batchQueries_total (fun _ _ => rfl) ..)]
  rfl

theorem run_ingestTransactionsWithAmounts_error {e : WriterError} {s : World neo4j UtxoCache}
    {w : World neo4j UtxoCache}
    (missing : (getManyWithFallback (spentKeys [b])).run World.handle w = (.error e, s)) :
    (o.ingestTransactionsWithAmounts b.block b.height).run World.handle w = (.error e, s) := by
  unfold ingestTransactionsWithAmounts
  rw [← spentKeys_singleton, Prog.run_bind_error missing]

theorem run_ingestInputs (b : LocatedBlock) (g : Graph) (c : UtxoCache) :
    (o.ingestInputs b.block b.height).run World.handle ⟨⟨g, none⟩, c⟩ =
      (.ok (), ⟨⟨(inputRows [b]).foldl (Graph.putInput mergeLink mergeLink) g, none⟩, c⟩) := by
  unfold ingestInputs
  rw [← inputRows_singleton]
  exact run_io_eq (Neo4jWriter.direct_executeBatched.ok
    (execAll_batchQueries_total (fun _ _ => rfl) ..))

theorem run_writeSimplifiedLayerRust (b : LocatedBlock) (performs : List PerformsData)
    (g : Graph) (c : UtxoCache) :
    (o.writeSimplifiedLayerRust b.block performs).run World.handle ⟨⟨g, none⟩, c⟩ =
      (.ok (), ⟨⟨bucketEffect g (performs, o.benefitsRows [b]), none⟩, c⟩) := by
  have benefits : b.block.txdata.flatMap o.benefitsOf = o.benefitsRows [b] := by
    rw [benefitsRows, txsOf_singleton]
  unfold writeSimplifiedLayerRust
  rw [benefits]
  dsimp only
  rw [run_io_direct (direct_writePerformsIfAny performs)
      (execAll_batchQueries_total (fun _ _ => rfl) ..)]
  exact run_io_eq ((direct_writeBenefitsToIfAny _).ok
    (execAll_batchQueries_total (fun _ _ => rfl) ..))

/-! ## The whole -/

variable (offset) in
/-- A block whose parent is stored below it, whose height is free and whose inputs resolve. -/
theorem run_ingestBlock_ok (parent : ParentOk g b.block b.height)
    (created : (blockQuery b).exec g = .ok g₁)
    (looked : (getManyWithFallback (spentKeys [b])).run World.handle
        ⟨⟨o.putOutputs b g₁, none⟩, populateCache (o.outputRows [b]) c⟩ =
      (.ok res, ⟨⟨o.putOutputs b g₁, none⟩, c'⟩)) :
    (o.ingestBlock b.block b.height b.fileName offset).run World.handle ⟨⟨g, none⟩, c⟩ =
      (.ok (), ⟨⟨o.finishBlock res b offset (o.putOutputs b g₁), none⟩,
        c'.removeMany (spentKeys [b])⟩) := by
  have created' : execAll neo4j [blockQuery b] g = .ok g₁ := by
    rw [execAll_singleton]
    exact created
  have validated : (io (o.validateParentHash b.block b.height)).run World.handle
      ⟨⟨g, none⟩, c⟩ = (.ok (), ⟨⟨g, none⟩, c⟩) := run_io_eq (run_validateParentHash parent)
  have cleaned : ∀ (g : Graph) (c : UtxoCache),
      (removeSpentOutputsFromCache b.block).run World.handle ⟨⟨g, none⟩, c⟩ =
        (.ok (), ⟨⟨g, none⟩, c.removeMany (spentKeys [b])⟩) := fun g c => by
    rw [spentKeys_singleton]
    rfl
  unfold ingestBlock ingestBlockNode
  rw [Prog.run_bind_ok validated, run_io_direct (direct_writeBlock b) created',
    Prog.run_bind_ok (run_ingestOutputsAndCache b g₁ c),
    Prog.run_bind_ok (run_ingestTransactionsWithAmounts looked),
    Neo4jWriter.writeHasOutputRelationships,
    run_io_direct Neo4jWriter.direct_executeBatched
      (execAll_batchQueries_total (fun _ _ => rfl) ..),
    Prog.run_bind_ok (run_ingestInputs ..),
    Prog.run_bind_ok (run_writeSimplifiedLayerRust ..), Prog.run_bind_ok (cleaned ..)]
  have checkpointed : ∀ g : Graph, execAll neo4j [.updateCheckpoint (blockCheckpoint b offset)] g =
      .ok { g with checkpoint := some (.ofData (blockCheckpoint b offset)) } := fun _ => rfl
  exact run_io_eq (Neo4jWriter.direct_updateCheckpoint.ok (checkpointed _))

theorem run_validated (parent : ParentOk g b.block b.height) :
    (io (o.validateParentHash b.block b.height)).run World.handle ⟨⟨g, none⟩, c⟩ =
      (.ok (), ⟨⟨g, none⟩, c⟩) :=
  run_io_eq (run_validateParentHash parent)

variable (offset) in
/-- A block whose parent is not the stored block below it. -/
theorem run_ingestBlock_orphan (unlinked : ¬ ParentOk g b.block b.height) :
    ∃ err, (o.ingestBlock b.block b.height b.fileName offset).run World.handle ⟨⟨g, none⟩, c⟩ =
      (.error err, ⟨⟨g, none⟩, c⟩) := by
  obtain ⟨actual, _, ran⟩ := run_validateParentHash_error (o := o) (s := ⟨g, none⟩) unlinked
  exact ⟨_, Prog.run_bind_error (run_io_eq ran)⟩

variable (offset) in
/-- A block whose height is another block's. -/
theorem run_ingestBlock_refused {fault : DbFault} (parent : ParentOk g b.block b.height)
    (refusal : (blockQuery b).exec g = .error fault) :
    ∃ err, (o.ingestBlock b.block b.height b.fileName offset).run World.handle ⟨⟨g, none⟩, c⟩ =
      (.error err, ⟨⟨g, none⟩, c⟩) := by
  obtain ⟨err, ran⟩ := run_writeBlock_refused (o := o) refusal
  refine ⟨err, ?_⟩
  unfold ingestBlock ingestBlockNode
  rw [Prog.run_bind_ok (run_validated parent), Prog.run_bind_error (run_io_eq ran)]

/-- A block one of whose inputs is neither cached nor stored. -/
theorem run_ingestBlock_missing {err : WriterError} (parent : ParentOk g b.block b.height)
    (created : (blockQuery b).exec g = .ok g₁)
    (looked : (getManyWithFallback (spentKeys [b])).run World.handle
        ⟨⟨o.putOutputs b g₁, none⟩, populateCache (o.outputRows [b]) c⟩ =
      (.error err, ⟨⟨o.putOutputs b g₁, none⟩, c'⟩)) :
    (o.ingestBlock b.block b.height b.fileName offset).run World.handle ⟨⟨g, none⟩, c⟩ =
      (.error err, ⟨⟨o.putOutputs b g₁, none⟩, c'⟩) := by
  have created' : execAll neo4j [blockQuery b] g = .ok g₁ :=
    (execAll_singleton (E := neo4j) ..).trans created
  unfold ingestBlock ingestBlockNode
  rw [Prog.run_bind_ok (run_validated parent), run_io_direct (direct_writeBlock b) created',
    Prog.run_bind_ok (run_ingestOutputsAndCache b g₁ c),
    Prog.run_bind_error (run_ingestTransactionsWithAmounts_error looked)]

/-- **One block.** Every outcome of `ingest_block`: the block is an orphan and nothing happens;
or its height is another block's and nothing is stored; or an input is missing and only its node
and its outputs are stored; or all of it is. -/
inductive BlockOutcome (o : IngestionOrchestrator) (b : LocatedBlock) (offset : Option ℕ)
    (g : Graph) (c : UtxoCache) : Except WriterError Unit × World neo4j UtxoCache → Prop
  | orphan (err : WriterError) (unlinked : ¬ ParentOk g b.block b.height) :
    BlockOutcome o b offset g c (.error err, ⟨⟨g, none⟩, c⟩)
  | refused (err : WriterError) (fault : DbFault) (parent : ParentOk g b.block b.height)
      (refusal : (blockQuery b).exec g = .error fault) :
    BlockOutcome o b offset g c (.error err, ⟨⟨g, none⟩, c⟩)
  | missing (err : WriterError) (g₁ : Graph) (c' : UtxoCache)
      (parent : ParentOk g b.block b.height) (created : (blockQuery b).exec g = .ok g₁)
      (looked : (getManyWithFallback (spentKeys [b])).run World.handle
          ⟨⟨o.putOutputs b g₁, none⟩, populateCache (o.outputRows [b]) c⟩ =
        (.error err, ⟨⟨o.putOutputs b g₁, none⟩, c'⟩)) :
    BlockOutcome o b offset g c (.error err, ⟨⟨o.putOutputs b g₁, none⟩, c'⟩)
  | stored (g₁ : Graph) (res : Found) (c' : UtxoCache)
      (parent : ParentOk g b.block b.height) (created : (blockQuery b).exec g = .ok g₁)
      (looked : (getManyWithFallback (spentKeys [b])).run World.handle
          ⟨⟨o.putOutputs b g₁, none⟩, populateCache (o.outputRows [b]) c⟩ =
        (.ok res, ⟨⟨o.putOutputs b g₁, none⟩, c'⟩)) :
    BlockOutcome o b offset g c (.ok (),
      ⟨⟨o.finishBlock res b offset (o.putOutputs b g₁), none⟩, c'.removeMany (spentKeys [b])⟩)

theorem run_ingestBlock_outcome (o : IngestionOrchestrator) (b : LocatedBlock)
    (offset : Option ℕ) (g : Graph) (c : UtxoCache) :
    BlockOutcome o b offset g c
      ((o.ingestBlock b.block b.height b.fileName offset).run World.handle ⟨⟨g, none⟩, c⟩) := by
  by_cases parent : ParentOk g b.block b.height
  · cases created : (blockQuery b).exec g with
    | error fault =>
      obtain ⟨err, ran⟩ := run_ingestBlock_refused offset (o := o) (c := c) parent created
      rw [ran]
      exact .refused err fault parent created
    | ok g₁ =>
      obtain ⟨r, c', looked⟩ := run_getManyWithFallback_total (o.putOutputs b g₁) none
        (populateCache (o.outputRows [b]) c) (spentKeys [b])
      cases r with
      | ok res =>
        rw [run_ingestBlock_ok offset parent created looked]
        exact .stored g₁ res c' parent created looked
      | error err =>
        rw [run_ingestBlock_missing parent created looked]
        exact .missing err g₁ c' parent created looked
  · obtain ⟨err, ran⟩ := run_ingestBlock_orphan offset (o := o) (c := c) parent
    rw [ran]
    exact .orphan err parent

end IngestionOrchestrator

end ChainGraph

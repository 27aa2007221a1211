import ChainGraph.Foundation.Crashes
import ChainGraph.Laws.Ready
import ChainGraph.Laws.Recovery

/-!
# The statements of a block

Outside a transaction every statement of a writer method is committed on its own, so a crash in
`ingest_block` leaves the database after the first of its statements. They are the block's node, its
outputs, its transactions, and then what joins them; the checkpoint is the last.
-/

namespace ChainGraph

open Foundation Foundation.Store

namespace Neo4jWriter

variable {w : Neo4jWriter} {q : Query} {name : String} {i n r retries : ℕ}

/-- A statement that is accepted, and nothing after it. -/
theorem sends_autoRun {α : Type} {g g' : Graph} {f : Except DbFault Unit → Io α}
    (ok : execAll neo4j [q] g = .ok g') (rest : Sends (f (.ok ())) g' []) :
    Sends (call (.autoRun q) >>= f) g [q] := by
  rw [execAll_singleton] at ok
  have served := handle_autoRun_ok (E := neo4j) (s := ⟨g, none⟩) ok
  have asked : (call (.autoRun q)).run handle ⟨g, none⟩ = (.ok (.ok ()), ⟨g', none⟩) := by
    unfold call
    rw [Prog.run_perform, served]
    rfl
  have sent : Sends (call (.autoRun q)) g [q] := .perform trivial
  exact sent.bind asked rest

theorem posts_runWithRetry : Posts (w.runWithRetry name q i n r retries) [q] := by
  refine ⟨direct_runWithRetry, fun {g g'} ok => ?_⟩
  cases retries <;>
  · unfold runWithRetry
    exact sends_autoRun ok .pure

section Batches

variable {α : Type} {body : ℕ → List α → Io Unit} {qs : List α → List Query} {items : List α}
  {query : List α → Query}

theorem posts_eachBatch (each : ∀ i c, Posts (body i c) (qs c)) (i : ℕ) (cs : List (List α)) :
    Posts (eachBatch body i cs) (cs.flatMap qs) := by
  induction cs generalizing i with
  | nil => exact .done
  | cons c cs ih => exact (each i c).seq (ih (i + 1))

theorem posts_executeBatched :
    Posts (w.executeBatched items query name) (batchQueries w query items) := by
  refine ⟨direct_executeBatched, fun {g g'} ok => ?_⟩
  unfold executeBatched
  by_cases empty : items.isEmpty
  · rw [if_pos empty, List.isEmpty_iff.mp empty]
    exact .pure
  · rw [if_neg empty]
    have asked : (call .inTxn).run handle ⟨g, none⟩ = (.ok false, ⟨g, none⟩) := rfl
    have quiet : Sends (call .inTxn) g [] := .perform trivial
    have each : ∀ i (c : List α), Posts (w.runWithRetry name (query c) i
        (chunks w.batchSize items).length c.length w.maxRetries) [query c] :=
      fun i c => posts_runWithRetry
    exact quiet.bind asked ((posts_eachBatch each 1 (chunks w.batchSize items)).sends ok)

end Batches

variable {outputs : List OutputData} {checkpoint : CheckpointData}

theorem posts_writeOutputs : Posts (w.writeOutputs outputs) (w.outputQueries outputs) := by
  refine posts_eachBatch (fun i c => ?_) 1 _
  show Posts (_ : Io Unit) ([Query.createOutputs c] ++ lockedToQueries c)
  refine posts_runWithRetry.seq ?_
  unfold lockedToQueries
  by_cases none : (filterOutputsWithAddress c).isEmpty
  · simp only [none, if_true]
    exact .done
  · simp only [none]
    exact posts_runWithRetry

theorem posts_updateCheckpoint :
    Posts (updateCheckpoint checkpoint) [.updateCheckpoint checkpoint] := by
  refine ⟨direct_updateCheckpoint, fun {g g'} ok => ?_⟩
  have skipped : (call (.txnRun (.updateCheckpoint checkpoint))).run handle ⟨g, none⟩ =
      (.ok (.ok false), ⟨g, none⟩) := rfl
  have quiet : Sends (call (.txnRun (.updateCheckpoint checkpoint))) g [] := .perform trivial
  unfold updateCheckpoint runQuerySingle
  exact quiet.bind skipped (sends_autoRun ok .pure)

theorem posts_runDirect {failed : DbFault → WriterError} : Posts (runDirect q failed) [q] := by
  refine ⟨direct_runDirect, fun {g g'} ok => ?_⟩
  unfold runDirect
  exact sends_autoRun ok .pure

/-- The four deletes of a height. -/
def rollbackQueries (height : ℕ) : List Query := (rollbackSteps height).map Prod.fst

theorem posts_rollbackBlock (height : ℕ) :
    Posts (rollbackBlock height) (rollbackQueries height) := by
  have one : rollbackQueries height = (rollbackSteps height).flatMap fun step => [step.1] := rfl
  rw [one]
  exact Posts.forM (fun step => posts_runDirect) (rollbackSteps height)

end Neo4jWriter

namespace IngestionOrchestrator

open Neo4jWriter

variable {o : IngestionOrchestrator} {g g₁ g' : Graph} {c c' : UtxoCache} {b : LocatedBlock}
  {res : Found} {offset : Option ℕ}

/-! ## The statements of `ingest_block` -/

theorem posts_writeBlock (b : LocatedBlock) :
    Posts (o.writer.writeBlocks [.fromBlock b.block b.height]) [blockQuery b] := by
  have sent : Posts (o.writer.writeBlocks [.fromBlock b.block b.height])
      (o.writer.batchQueries .createBlocks (blockRows [b])) := posts_executeBatched
  have one : o.writer.batchQueries .createBlocks (blockRows [b]) = [blockQuery b] := by
    unfold Neo4jWriter.batchQueries
    rw [show blockRows [b] = [.fromBlock b.block b.height] from rfl,
      chunks_singleton o.writer.batchSize_pos]
    rfl
  rw [one] at sent
  exact sent

theorem posts_writePerformsIfAny (performs : List PerformsData) :
    Posts (o.writePerformsIfAny performs)
      (o.writer.batchQueries .createPerformsBulk performs) := by
  unfold writePerformsIfAny
  by_cases empty : performs.isEmpty
  · rw [if_pos empty, List.isEmpty_iff.mp empty]
    exact .done
  · rw [if_neg empty]
    exact posts_executeBatched

theorem posts_writeBenefitsToIfAny (benefits : List BenefitsToData) :
    Posts (o.writeBenefitsToIfAny benefits)
      (o.writer.batchQueries .createBenefitsToBulk benefits) := by
  unfold writeBenefitsToIfAny
  by_cases empty : benefits.isEmpty
  · rw [if_pos empty, List.isEmpty_iff.mp empty]
    exact .done
  · rw [if_neg empty]
    exact posts_executeBatched

/-- The statements for the transactions. -/
def transactionQueries (o : IngestionOrchestrator) (res : Found) (b : LocatedBlock) : List Query :=
  o.writer.batchQueries .createTransactions (transactionRows res [b])

/-- The statements for what joins inputs, outputs and addresses to the transactions. -/
def joinQueries (o : IngestionOrchestrator) (res : Found) (b : LocatedBlock) : List Query :=
  o.writer.batchQueries .createHasOutput (o.outputRows [b]) ++
    (o.writer.batchQueries .createInputs (inputRows [b]) ++
      (o.writer.batchQueries .createPerformsBulk (performsRows res [b]) ++
        o.writer.batchQueries .createBenefitsToBulk (o.benefitsRows [b])))

/-- All statements of a block. -/
def blockQueries (o : IngestionOrchestrator) (res : Found) (b : LocatedBlock)
    (offset : Option ℕ) : List Query :=
  [blockQuery b] ++ (o.writer.outputQueries (o.outputRows [b]) ++
    (o.transactionQueries res b ++ (o.joinQueries res b ++
      [.updateCheckpoint (blockCheckpoint b offset)])))

/-! ## Reading -/

/-- The program only reads, and uses the cache. -/
abbrev Quiet {α : Type} (p : Ingest α) : Prop :=
  p.Always fun o : Client.Op neo4j UtxoCache WriterError => o.Plain ∧ o.direct = []

theorem quiet_getCache : Quiet getCache := ⟨⟨trivial, rfl⟩, fun _ => trivial⟩

theorem quiet_setCache (c : UtxoCache) : Quiet (setCache c) := ⟨⟨trivial, rfl⟩, fun _ => trivial⟩

theorem quiet_modifyCache (f : UtxoCache → UtxoCache) : Quiet (modifyCache f) :=
  quiet_getCache.bind fun _ => quiet_setCache _

theorem quiet_io {α : Type} {p : Io α} (reads : OnlySends (fun _ => False) p) : Quiet (io p) := by
  refine Prog.always_lift (Prog.Always.mono (fun o sends => ?_) reads)
  cases o <;> first | exact ⟨trivial, rfl⟩ | exact sends.elim

theorem quiet_validateParentHash (b : LocatedBlock) :
    Quiet (io (o.validateParentHash b.block b.height)) :=
  quiet_io (sends_validateParentHash b.block b.height)

theorem quiet_getManyWithFallback (keys : List UtxoKey) : Quiet (getManyWithFallback keys) := by
  refine quiet_getCache.bind fun cache => ?_
  dsimp only
  refine (quiet_setCache _).bind fun _ => ?_
  split
  · trivial
  · refine (quiet_setCache _).bind fun _ => ?_
    refine (quiet_io (sends_lookupOutputsBatch _)).bind fun results => ?_
    dsimp only
    refine (quiet_setCache _).bind fun _ => ?_
    split <;> trivial

/-! ## The run -/

theorem sends_io {p : Io Unit} {qs : List Query} (posts : Posts p qs)
    (ok : execAll neo4j qs g = .ok g') : World.Sends (io p) ⟨⟨g, none⟩, c⟩ qs :=
  World.sends_lift (posts.sends ok)

/-- A writer method that is accepted, followed by the rest of the program. -/
theorem sends_io_bind {α : Type} {p : Io Unit} {qs rs : List Query} (posts : Posts p qs)
    {f : Unit → Ingest α} (ok : execAll neo4j qs g = .ok g')
    (rest : World.Sends (f ()) ⟨⟨g', none⟩, c⟩ rs) :
    World.Sends (io p >>= f) ⟨⟨g, none⟩, c⟩ (qs ++ rs) :=
  (sends_io posts ok).bind (run_io_eq (posts.ok ok)) rest

theorem sends_quiet_bind {α β : Type} {p : Ingest α} {f : α → Ingest β} {rs : List Query}
    {w w' : World neo4j UtxoCache} {a : α} (quiet : Quiet p)
    (ran : p.run World.handle w = (.ok a, w')) (rest : World.Sends (f a) w' rs) :
    World.Sends (p >>= f) w rs :=
  (quiet.emits_nil w).bind ran rest

theorem sends_ingestOutputsAndCache (b : LocatedBlock) (g : Graph) (c : UtxoCache) :
    World.Sends (o.ingestOutputsAndCache b.block) ⟨⟨g, none⟩, c⟩
      (o.writer.outputQueries (o.outputRows [b])) := by
  have ok := Neo4jWriter.execAll_outputQueries o.writer (o.outputRows [b]) g
  have wrote : ((io (o.writer.writeOutputs (o.outputRows [b]))).attempt).run World.handle
      ⟨⟨g, none⟩, c⟩ = (.ok (.ok ()), ⟨⟨o.putOutputs b g, none⟩, c⟩) := by
    rw [Prog.run_attempt, run_io_eq (direct_writeOutputs.ok ok)]
    rfl
  have sent : World.Sends ((io (o.writer.writeOutputs (o.outputRows [b]))).attempt)
      ⟨⟨g, none⟩, c⟩ (o.writer.outputQueries (o.outputRows [b])) :=
    (sends_io posts_writeOutputs ok).attempt
  unfold ingestOutputsAndCache
  rw [← outputRows_singleton]
  rw [← List.append_nil (outputQueries ..)]
  refine sent.bind wrote (Prog.Always.emits_nil ?_ _)
  exact (quiet_modifyCache _).bind fun _ => trivial

/-- **What is sent** for a block whose parent is stored below it and whose inputs resolve. -/
theorem sends_ingestBlock (parent : ParentOk g b.block b.height)
    (created : (blockQuery b).exec g = .ok g₁)
    (looked : (getManyWithFallback (spentKeys [b])).run World.handle
        ⟨⟨o.putOutputs b g₁, none⟩, populateCache (o.outputRows [b]) c⟩ =
      (.ok res, ⟨⟨o.putOutputs b g₁, none⟩, c'⟩)) :
    World.Sends (o.ingestBlock b.block b.height b.fileName offset) ⟨⟨g, none⟩, c⟩
      (o.blockQueries res b offset) := by
  have created' : execAll neo4j [blockQuery b] g = .ok g₁ := by
    rw [execAll_singleton]
    exact created
  have performs : b.block.txdata.flatMap (performsOf res) = performsRows res [b] := by
    rw [performsRows, txsOf_singleton]
  have benefits : b.block.txdata.flatMap o.benefitsOf = o.benefitsRows [b] := by
    rw [benefitsRows, txsOf_singleton]
  have transacted : World.Sends (o.ingestTransactionsWithAmounts b.block b.height)
      ⟨⟨o.putOutputs b g₁, none⟩, populateCache (o.outputRows [b]) c⟩
      (o.transactionQueries res b) := by
    unfold ingestTransactionsWithAmounts
    rw [← spentKeys_singleton]
    refine sends_quiet_bind (quiet_getManyWithFallback _) looked ?_
    rw [← transactionRows_singleton, writeTransactions]
    have all : World.Sends (io (o.writer.executeBatched (transactionRows res [b])
        .createTransactions "write_transactions") >>= fun _ =>
          pure (b.block.txdata.flatMap (performsOf res))) ⟨⟨o.putOutputs b g₁, none⟩, c'⟩
        (o.transactionQueries res b ++ []) :=
      sends_io_bind posts_executeBatched (execAll_batchQueries_total (fun _ _ => rfl) ..) .pure
    rw [List.append_nil] at all
    exact all
  have simplified : ∀ g c, World.Sends (o.writeSimplifiedLayerRust b.block (performsRows res [b]))
      ⟨⟨g, none⟩, c⟩ (o.writer.batchQueries .createPerformsBulk (performsRows res [b]) ++
        o.writer.batchQueries .createBenefitsToBulk (o.benefitsRows [b])) := by
    intro g c
    unfold writeSimplifiedLayerRust
    rw [benefits]
    dsimp only
    exact sends_io_bind (posts_writePerformsIfAny _)
      (execAll_batchQueries_total (fun _ _ => rfl) ..)
      (sends_io (posts_writeBenefitsToIfAny _) (execAll_batchQueries_total (fun _ _ => rfl) ..))
  have inputs : ∀ g c, World.Sends (o.ingestInputs b.block b.height) ⟨⟨g, none⟩, c⟩
      (o.writer.batchQueries .createInputs (inputRows [b])) := by
    intro g c
    unfold ingestInputs
    rw [← inputRows_singleton]
    exact sends_io posts_executeBatched (execAll_batchQueries_total (fun _ _ => rfl) ..)
  unfold ingestBlock ingestBlockNode blockQueries joinQueries
  refine sends_quiet_bind (quiet_validateParentHash b) (run_validated parent) ?_
  refine sends_io_bind (posts_writeBlock b) created' ?_
  refine (sends_ingestOutputsAndCache b g₁ c).bind (run_ingestOutputsAndCache b g₁ c) ?_
  refine transacted.bind (run_ingestTransactionsWithAmounts looked) ?_
  rw [writeHasOutputRelationships, List.append_assoc, List.append_assoc]
  refine sends_io_bind posts_executeBatched (execAll_batchQueries_total (fun _ _ => rfl) ..) ?_
  refine (inputs _ _).bind (run_ingestInputs ..) ?_
  refine (simplified _ _).bind (run_writeSimplifiedLayerRust ..) ?_
  refine sends_quiet_bind (quiet_modifyCache _) rfl ?_
  exact sends_io posts_updateCheckpoint rfl

/-- Nothing is sent for a block whose parent is not the stored block below it. -/
theorem sends_ingestBlock_orphan (unlinked : ¬ ParentOk g b.block b.height) :
    World.Sends (o.ingestBlock b.block b.height b.fileName offset) ⟨⟨g, none⟩, c⟩ [] := by
  obtain ⟨actual, _, ran⟩ := run_validateParentHash_error (o := o) (s := ⟨g, none⟩) unlinked
  exact ((quiet_validateParentHash b).emits_nil _).bind_error (run_io_eq ran)

/-- Of a block one of whose inputs is neither cached nor stored, the node and the outputs are
sent. -/
theorem sends_ingestBlock_missing {err : WriterError} (parent : ParentOk g b.block b.height)
    (created : (blockQuery b).exec g = .ok g₁)
    (looked : (getManyWithFallback (spentKeys [b])).run World.handle
        ⟨⟨o.putOutputs b g₁, none⟩, populateCache (o.outputRows [b]) c⟩ =
      (.error err, ⟨⟨o.putOutputs b g₁, none⟩, c'⟩)) :
    World.Sends (o.ingestBlock b.block b.height b.fileName offset) ⟨⟨g, none⟩, c⟩
      ([blockQuery b] ++ (o.writer.outputQueries (o.outputRows [b]))) := by
  have created' : execAll neo4j [blockQuery b] g = .ok g₁ := by
    rw [execAll_singleton]
    exact created
  have stopped : World.Sends (o.ingestTransactionsWithAmounts b.block b.height)
      ⟨⟨o.putOutputs b g₁, none⟩, populateCache (o.outputRows [b]) c⟩ [] := by
    unfold ingestTransactionsWithAmounts
    rw [← spentKeys_singleton]
    exact ((quiet_getManyWithFallback _).emits_nil _).bind_error looked
  unfold ingestBlock ingestBlockNode
  refine sends_quiet_bind (quiet_validateParentHash b) (run_validated parent) ?_
  refine sends_io_bind (posts_writeBlock b) created' ?_
  rw [← List.append_nil (outputQueries ..)]
  refine (sends_ingestOutputsAndCache b g₁ c).bind (run_ingestOutputsAndCache b g₁ c) ?_
  exact stopped.bind_error (run_ingestTransactionsWithAmounts_error looked)

/-- The statements of a block, one by one, leave what its run leaves. -/
theorem execAll_blockQueries (created : (blockQuery b).exec g = .ok g₁) :
    execAll neo4j (o.blockQueries res b offset) g =
      .ok (o.finishBlock res b offset (o.putOutputs b g₁)) := by
  have created' : execAll neo4j [blockQuery b] g = .ok g₁ := by
    rw [execAll_singleton]
    exact created
  unfold blockQueries joinQueries transactionQueries
  rw [execAll_append_ok created', execAll_append_ok (execAll_outputQueries ..),
    execAll_append_ok (execAll_batchQueries_total (fun _ _ => rfl) ..), List.append_assoc,
    execAll_append_ok (execAll_batchQueries_total (fun _ _ => rfl) ..), List.append_assoc,
    execAll_append_ok (execAll_batchQueries_total (fun _ _ => rfl) ..), List.append_assoc,
    execAll_append_ok (execAll_batchQueries_total (fun _ _ => rfl) ..),
    execAll_append_ok (execAll_batchQueries_total (fun _ _ => rfl) ..)]
  rfl

end IngestionOrchestrator

end ChainGraph

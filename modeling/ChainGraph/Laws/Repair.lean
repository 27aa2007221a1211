import ChainGraph.Laws.Torn

/-!
# Crashes of `ingest_block`

A crash in `ingest_block` tears the block after the first of its statements. Which of them were sent
decides whether the restart repairs the block: with all of its transactions it is taken for
complete, and otherwise its rollback has to find everything that was written.
-/

namespace ChainGraph

open Foundation Foundation.Store

namespace IngestionOrchestrator

variable {o : IngestionOrchestrator} {g s : Graph} {b : LocatedBlock}

/-! ## The statements of a block -/

theorem transactions_batchQueries {α : Type} {w : Neo4jWriter} {query : List α → Query}
    (none : ∀ c, (query c).transactions = []) (items : List α) :
    (w.batchQueries query items).flatMap Query.transactions = [] := by
  refine List.flatMap_eq_nil_iff.mpr fun q mem => ?_
  obtain ⟨c, _, inside⟩ := List.mem_flatMap.mp mem
  cases List.mem_singleton.mp inside
  exact none c

theorem transactions_outputQueries (w : Neo4jWriter) (outputs : List OutputData) :
    (w.outputQueries outputs).flatMap Query.transactions = [] := by
  refine List.flatMap_eq_nil_iff.mpr fun q mem => ?_
  obtain ⟨c, _, inside⟩ := List.mem_flatMap.mp mem
  unfold Neo4jWriter.lockedToQueries at inside
  split at inside
  · cases List.mem_singleton.mp inside
    rfl
  · rcases List.mem_cons.mp inside with rfl | last
    · rfl
    · cases List.mem_singleton.mp last
      rfl

theorem transactions_transactionQueries (o : IngestionOrchestrator) (res : Found)
    (b : LocatedBlock) :
    (o.transactionQueries res b).flatMap Query.transactions = transactionRows res [b] := by
  unfold transactionQueries Neo4jWriter.batchQueries
  rw [List.flatMap_assoc]
  have each : ∀ c : List TransactionData,
      [Query.createTransactions c].flatMap Query.transactions = c := fun c => List.append_nil c
  rw [List.flatMap_congr fun c _ => each c, List.flatMap_id']
  exact flatten_chunks o.writer.batchSize_pos _

theorem transactions_joinQueries (o : IngestionOrchestrator) (res : Found) (b : LocatedBlock) :
    (o.joinQueries res b).flatMap Query.transactions = [] := by
  unfold joinQueries
  rw [List.flatMap_append, List.flatMap_append, List.flatMap_append,
    transactions_batchQueries fun _ => rfl, transactions_batchQueries fun _ => rfl,
    transactions_batchQueries fun _ => rfl, transactions_batchQueries fun _ => rfl]
  rfl

theorem early_outputQueries (w : Neo4jWriter) (outputs : List OutputData) (height : ℕ) :
    ∀ q ∈ w.outputQueries outputs, q.Early height := by
  intro q mem
  obtain ⟨c, _, inside⟩ := List.mem_flatMap.mp mem
  unfold Neo4jWriter.lockedToQueries at inside
  split at inside
  · cases List.mem_singleton.mp inside
    trivial
  · rcases List.mem_cons.mp inside with rfl | last
    · trivial
    · cases List.mem_singleton.mp last
      trivial

theorem early_transactionQueries (o : IngestionOrchestrator) (res : Found) (b : LocatedBlock) :
    ∀ q ∈ o.transactionQueries res b, q.Early b.height := by
  intro q mem
  have rows : ∀ tx ∈ q.transactions, tx ∈ transactionRows res [b] := by
    intro tx inside
    rw [← transactions_transactionQueries o res b]
    exact List.mem_flatMap.mpr ⟨q, mem, inside⟩
  obtain ⟨c, _, inside⟩ := List.mem_flatMap.mp mem
  cases List.mem_singleton.mp inside
  intro tx inRows
  have row := rows tx inRows
  rw [transactionRows_singleton] at row
  obtain ⟨tx, _, rfl⟩ := List.mem_map.mp row
  rfl

theorem joins_joinQueries (o : IngestionOrchestrator) (res : Found) (b : LocatedBlock) :
    ∀ q ∈ o.joinQueries res b, q.Joins := by
  have batches : ∀ {α : Type} (query : List α → Query) (items : List α),
      (∀ c, (query c).Joins) → ∀ q ∈ o.writer.batchQueries query items, q.Joins := by
    intro α query items each q mem
    obtain ⟨c, _, inside⟩ := List.mem_flatMap.mp mem
    cases List.mem_singleton.mp inside
    exact each c
  intro q mem
  unfold joinQueries at mem
  rcases List.mem_append.mp mem with has | rest
  · exact batches .createHasOutput _ (fun _ => trivial) q has
  · rcases List.mem_append.mp rest with inputs | rest
    · exact batches .createInputs _ (fun _ => trivial) q inputs
    · rcases List.mem_append.mp rest with performs | benefits
      · exact batches .createPerformsBulk _ (fun _ => trivial) q performs
      · exact batches .createBenefitsToBulk _ (fun _ => trivial) q benefits

/-! ## What the crash leaves -/

/-- The node of a block alone. -/
theorem torn_created {g₁ : Graph} (next : NextBlock g b)
    (created : (blockQuery b).exec g = .ok g₁) :
    Torn g b [] g₁ ∧ Unjoined g g₁ ∧ g₁.checkpoint = g.checkpoint ∧ g₁.outputs = g.outputs ∧
      g₁.lockedTo = g.lockedTo := by
  obtain ⟨-, hu, nextBlock, rfl, links⟩ := Graph.exec_createBlocks_one.mp created
  refine ⟨⟨rfl, ?_, rfl, (add_zero _).symm⟩, ⟨rfl, rfl, rfl, rfl, rfl, rfl⟩, rfl, rfl, rfl⟩
  have ends : ∀ e ∈ [BlockData.fromBlock b.block b.height].filterMap
      (g.withBlocks (g.blocks.upsert (.fromBlock b.block b.height)) hu nextBlock).prevLink,
        e.2 = b.block.blockHash := by
    intro e mem
    obtain ⟨row, inRows, link⟩ := List.mem_filterMap.mp mem
    cases List.mem_singleton.mp inRows
    unfold Graph.prevLink at link
    split at link
    · obtain ⟨p, _, rfl⟩ := Option.map_eq_some_iff.mp link
      rfl
    · cases link
  refine ⟨_, links.trans (foldl_mergeLink ?_ fun e mem old => ?_), ends⟩
  · rw [List.filterMap_cons]
    split
    · exact List.nodup_nil
    · exact List.nodup_singleton _
  · exact next.unhashed (ends e mem ▸ (next.sound.nextBlock e old).2)

/-- Without the block the restart finds everything as it was. -/
theorem run_sync_untouched (next : NextBlock g b) {r : Except WriterError ℕ × Store neo4j}
    (ran : o.syncCheckpointWithDb.run handle ⟨g, none⟩ = r) :
    r.1 = .ok b.height ∧ r.2.committed.bare = g.bare := by
  have word := next.word
  rcases next.checkpoint with below | ⟨special, height⟩
  · -- the checkpoint is at the block below, the highest one
    have beside : ∀ top, g.getMaxBlockHeight = some top → asI32 top ≤ g.readHeight := by
      intro top max
      obtain ⟨n, mem, rfl⟩ := Graph.exists_getMaxBlockHeight next.words max
      have low := next.below n mem
      rw [asI32_of_lt (by omega)]
      omega
    rw [run_sync_beside (by omega) beside] at ran
    cases ran
    refine ⟨congrArg Except.ok ?_, rfl⟩
    omega
  · -- the checkpoint reads as none, and the walk stops at the highest block
    have read := Graph.readHeight_255 special
    have here := next.complete 255 (by omega)
    have max : g.getMaxBlockHeight = some 255 := by
      refine Graph.getMaxBlockHeight_eq here.isSome (fun n mem => ?_) (by decide)
      have := next.below n mem
      omega
    obtain ⟨stored, synced⟩ := run_sync_complete (o := o) (by omega) max (by decide) (by omega) here
    rw [ran] at synced
    cases synced
    rw [height]
    exact ⟨rfl, rfl⟩

/-! ## Recovery -/

/-- The statements hold all transactions of the block, and it has some. -/
def AllSent (b : LocatedBlock) (sent : List Query) : Prop :=
  0 < b.block.txdata.length ∧
    (sent.flatMap Query.transactions).length = b.block.txdata.length

/-- After a restart either everything is as it was before the block, and the block is next; or the
block is stored as its ingestion to the end stores it, and the one after it is next. -/
def Repaired (o : IngestionOrchestrator) (b : LocatedBlock) (offset : Option ℕ) (g : Graph)
    (c : UtxoCache) (r : Except WriterError ℕ × Store neo4j) : Prop :=
  (r.1 = .ok b.height ∧ r.2.committed.Same g) ∨
    (r.1 = .ok (b.height + 1) ∧ ∃ w,
      (o.ingestBlock b.block b.height b.fileName offset).run World.handle ⟨⟨g, none⟩, c⟩ =
        (.ok (), w) ∧ r.2.committed.Same w.store.committed)

/-- The crash does no harm: with all transactions sent, nothing that was not sent would have changed
anything; with some of them missing, the outputs that were sent were stored before as they are, and
the transactions were not. -/
def Harmless (b : LocatedBlock) (g s : Graph) (sent unsent : List Query) : Prop :=
  (AllSent b sent ∧ ∀ g', execAll neo4j unsent s = .ok g' → g'.bare = s.bare) ∨
    (¬ AllSent b sent ∧ s.outputs = g.outputs ∧ s.lockedTo = g.lockedTo ∧
      ∀ tx ∈ sent.flatMap Query.transactions, ¬ g.transactions.Has tx.txid)

/-- **A restart after a crash** that left a torn block. -/
theorem repaired_iff_of_torn {c : UtxoCache} {offset : Option ℕ} {sent unsent : List Query}
    (next : NextBlock g b) (small : b.block.txdata.length < 2 ^ 32)
    (torn : Torn g b (sent.flatMap Query.transactions) s) (sound : Sound s)
    (txids : ((sent.flatMap Query.transactions).map (·.txid)).Nodup)
    (within : (sent.flatMap Query.transactions).length ≤ b.block.txdata.length)
    (unjoined : ¬ AllSent b sent → Unjoined g s)
    (read : s.readHeight = (b.height : ℤ) - 1 ∨ s.readHeight = -1)
    (rest : AllSent b sent → ∃ w,
      (o.ingestBlock b.block b.height b.fileName offset).run World.handle ⟨⟨g, none⟩, c⟩ =
        (.ok (), w) ∧ execAll neo4j unsent s = .ok w.store.committed) :
    o.Repaired b offset g c (o.syncCheckpointWithDb.run handle ⟨s, none⟩) ↔
      Harmless b g s sent unsent := by
  have new := next.sound.includedIn_ne (b := b) next.unhashed
  have counted := torn.completeAt_iff new small within
  have sound' := sound.runIo o.syncCheckpointWithDb
  have word := next.word
  by_cases complete : s.CompleteAt b.height
  · have all : AllSent b sent := counted.mp complete
    obtain ⟨w, ingested, finished⟩ := rest all
    obtain ⟨stored, ran⟩ := run_sync_complete (o := o) (by omega)
      (torn.getMaxBlockHeight next.below (by omega)) word (by omega) complete
    rw [ran] at sound' ⊢
    have whole := sound.execAll finished
    constructor
    · rintro (⟨bad, _⟩ | ⟨_, w', ran', same⟩)
      · have := Except.ok.inj bad
        omega
      · cases ingested.symm.trans ran'
        refine Or.inl ⟨all, fun g' done => ?_⟩
        cases finished.symm.trans done
        exact same.bare.symm
    · rintro (⟨_, same⟩ | ⟨torn', _⟩)
      · exact Or.inr ⟨rfl, w, ingested, (sound'.same_iff whole).mpr (same _ finished).symm⟩
      · exact absurd all torn'
  · have notAll : ¬ AllSent b sent := fun all => complete (counted.mpr all)
    obtain ⟨other, back⟩ := run_sync_incomplete (o := o) next torn complete read rfl
    rw [torn.bare_rollbackBlock_iff (unjoined notAll) next.sound next.unhashed
      (fun n mem => Nat.ne_of_lt (next.below n mem)) txids] at back
    constructor
    · rintro (⟨resumed, same⟩ | ⟨bad, _⟩)
      · exact Or.inr ⟨notAll, back.mp ⟨resumed, same.bare⟩⟩
      · exact absurd bad other
    · rintro (⟨all, _⟩ | ⟨_, kept⟩)
      · exact absurd all notAll
      · obtain ⟨resumed, same⟩ := back.mpr kept
        exact Or.inl ⟨resumed, (sound'.same_iff next.sound).mpr same⟩

/-- After the node of the block and some of the statements that follow it. -/
theorem repaired_iff_of_sent {c : UtxoCache} {offset : Option ℕ} {g₁ : Graph}
    {mid unsent : List Query} (next : NextBlock g b) (small : b.block.txdata.length < 2 ^ 32)
    (created : (blockQuery b).exec g = .ok g₁) (ok : execAll neo4j mid g₁ = .ok s)
    (sorts : ∀ q ∈ mid, q.Early b.height ∨ q.Joins)
    (txids : ((mid.flatMap Query.transactions).map (·.txid)).Nodup)
    (within : (mid.flatMap Query.transactions).length ≤ b.block.txdata.length)
    (early : ¬ AllSent b (blockQuery b :: mid) → ∀ q ∈ mid, q.Early b.height)
    (rest : AllSent b (blockQuery b :: mid) → ∃ w,
      (o.ingestBlock b.block b.height b.fileName offset).run World.handle ⟨⟨g, none⟩, c⟩ =
        (.ok (), w) ∧ execAll neo4j unsent s = .ok w.store.committed) :
    o.Repaired b offset g c (o.syncCheckpointWithDb.run handle ⟨s, none⟩) ↔
      Harmless b g s (blockQuery b :: mid) unsent := by
  have new := next.sound.includedIn_ne (b := b) next.unhashed
  obtain ⟨torn₁, unjoined₁, checkpoint₁, -, -⟩ := torn_created next created
  obtain ⟨torn, checkpoint⟩ := torn₁.execAll sorts txids new ok
  have sound₁ : Sound g₁ := next.sound.exec created
  have read : s.readHeight = g.readHeight :=
    Graph.readHeight_congr (checkpoint.trans checkpoint₁)
  refine repaired_iff_of_torn next small torn (sound₁.execAll ok) txids within ?_ ?_ rest
  · intro torn
    exact unjoined₁.execAll (early torn) ok
  · rw [read]
    exact next.readHeight

/-! ## Crashes -/

/-- The statements between the node of the block and the checkpoint. -/
def middleQueries (o : IngestionOrchestrator) (res : Found) (b : LocatedBlock) : List Query :=
  o.writer.outputQueries (o.outputRows [b]) ++ (o.transactionQueries res b ++ o.joinQueries res b)

section Middle

variable {res : Found} {mid late : List Query}

theorem transactions_middleQueries (o : IngestionOrchestrator) (res : Found) (b : LocatedBlock) :
    (o.middleQueries res b).flatMap Query.transactions = transactionRows res [b] := by
  unfold middleQueries
  rw [List.flatMap_append, List.flatMap_append, transactions_outputQueries,
    transactions_transactionQueries, transactions_joinQueries, List.nil_append, List.append_nil]

theorem sorts_middleQueries : ∀ q ∈ o.middleQueries res b, q.Early b.height ∨ q.Joins := by
  intro q mem
  rcases List.mem_append.mp mem with output | mem
  · exact Or.inl (early_outputQueries _ _ _ q output)
  · rcases List.mem_append.mp mem with transaction | join
    · exact Or.inl (early_transactionQueries o res b q transaction)
    · exact Or.inr (joins_joinQueries o res b q join)

theorem length_transactionRows (res : Found) :
    (transactionRows res [b]).length = b.block.txdata.length := by
  rw [transactionRows_singleton, List.length_map]

theorem joinQueries_nil (none : b.block.txdata = []) : o.joinQueries res b = [] := by
  unfold joinQueries outputRows inputRows performsRows benefitsRows txsOf
  simp only [List.flatMap_cons, List.flatMap_nil, none]
  rfl

/-- What is sent before some of the transactions are missing joins nothing. -/
theorem early_of_split (split : mid ++ late = o.middleQueries res b)
    (torn : ¬ AllSent b (blockQuery b :: mid)) : ∀ q ∈ mid, q.Early b.height := by
  have early : ∀ q ∈ o.writer.outputQueries (o.outputRows [b]) ++ o.transactionQueries res b,
      q.Early b.height := by
    intro q mem
    rcases List.mem_append.mp mem with output | transaction
    · exact early_outputQueries _ _ _ q output
    · exact early_transactionQueries o res b q transaction
  unfold middleQueries at split
  rw [← List.append_assoc] at split
  rcases List.append_eq_append_iff.mp split with ⟨more, all, _⟩ | ⟨joins, sent, rest⟩
  · intro q mem
    rw [all] at early
    exact early q (List.mem_append_left _ mem)
  · -- all transactions are among the statements, so there are none
    have none : b.block.txdata = [] := by
      by_contra some
      refine torn ⟨List.length_pos_iff.mpr some, ?_⟩
      show (mid.flatMap Query.transactions).length = _
      have joined : ∀ q ∈ joins, q.transactions = [] := by
        intro q mem
        have all := transactions_joinQueries o res b
        rw [rest] at all
        exact List.flatMap_eq_nil_iff.mp all q (List.mem_append_left _ mem)
      rw [sent, List.flatMap_append, List.flatMap_append, transactions_outputQueries,
        transactions_transactionQueries, List.flatMap_eq_nil_iff.mpr joined, List.nil_append,
        List.append_nil, length_transactionRows]
    rw [joinQueries_nil none] at rest
    rw [(List.append_eq_nil_iff.mp rest.symm).1, List.append_nil] at sent
    rw [sent]
    exact early

/-- After the node of the block and the first of the statements in the middle. -/
theorem repaired_iff_of_middle {c : UtxoCache} {offset : Option ℕ} {g₁ : Graph}
    {unsent : List Query} (next : NextBlock g b) (small : b.block.txdata.length < 2 ^ 32)
    (txids : (b.block.txdata.map (·.txid)).Nodup) (created : (blockQuery b).exec g = .ok g₁)
    (split : mid ++ late = o.middleQueries res b) (ok : execAll neo4j mid g₁ = .ok s)
    (rest : AllSent b (blockQuery b :: mid) → ∃ w,
      (o.ingestBlock b.block b.height b.fileName offset).run World.handle ⟨⟨g, none⟩, c⟩ =
        (.ok (), w) ∧ execAll neo4j unsent s = .ok w.store.committed) :
    o.Repaired b offset g c (o.syncCheckpointWithDb.run handle ⟨s, none⟩) ↔
      Harmless b g s (blockQuery b :: mid) unsent := by
  have rows : mid.flatMap Query.transactions ++ late.flatMap Query.transactions =
      transactionRows res [b] := by
    rw [← List.flatMap_append, split, transactions_middleQueries]
  refine repaired_iff_of_sent next small created ok ?_ ?_ ?_ (early_of_split split) rest
  · intro q mem
    have inMiddle : q ∈ o.middleQueries res b := by
      rw [← split]
      exact List.mem_append_left _ mem
    exact sorts_middleQueries q inMiddle
  · have distinct : ((transactionRows res [b]).map (·.txid)).Nodup := by
      rw [map_txid_transactionRows, txsOf_singleton]
      exact txids
    rw [← rows, List.map_append] at distinct
    exact (List.nodup_append.mp distinct).1
  · rw [← length_transactionRows res, ← rows, List.length_append]
    exact Nat.le_add_right _ _

theorem middleQueries_nil (none : b.block.txdata = []) : o.middleQueries res b = [] := by
  unfold middleQueries transactionQueries
  rw [joinQueries_nil none, outputRows_singleton, transactionRows_singleton, none]
  rfl

/-- Everything up to the checkpoint is there. -/
theorem torn_of_all {offset : Option ℕ} {g₁ : Graph} (next : NextBlock g b)
    (txids : (b.block.txdata.map (·.txid)).Nodup) (created : (blockQuery b).exec g = .ok g₁)
    (ok : execAll neo4j (o.middleQueries res b ++ [.updateCheckpoint (blockCheckpoint b offset)])
      g₁ = .ok s) :
    Torn g b (transactionRows res [b]) s ∧ s.storedHeight = b.height ∧
      (b.block.txdata = [] → Unjoined g s ∧ s.outputs = g.outputs ∧ s.lockedTo = g.lockedTo) := by
  have distinct : (([] ++ (o.middleQueries res b).flatMap Query.transactions).map
      TransactionData.txid).Nodup := by
    rw [transactions_middleQueries, List.nil_append, map_txid_transactionRows, txsOf_singleton]
    exact txids
  obtain ⟨torn₁, unjoined₁, checkpoint₁, outputs₁, lockedTo₁⟩ := torn_created next created
  obtain ⟨s₀, middle, last⟩ := execAll_append_eq_ok.mp ok
  obtain ⟨torn₀, _⟩ := torn₁.execAll sorts_middleQueries distinct
    (next.sound.includedIn_ne next.unhashed) middle
  rw [List.nil_append, transactions_middleQueries] at torn₀
  cases last
  refine ⟨⟨torn₀.blocks, torn₀.nextBlock, torn₀.transactions, torn₀.includedIn⟩, ?_, ?_⟩
  · rw [Graph.storedHeight_of_data (blockCheckpoint b offset) rfl]
    exact asI32_of_lt next.word
  · intro none
    rw [middleQueries_nil none] at middle
    cases middle
    exact ⟨⟨unjoined₁.inputs, unjoined₁.hasInput, unjoined₁.hasOutput, unjoined₁.spends,
      unjoined₁.performs, unjoined₁.benefitsTo⟩, outputs₁, lockedTo₁⟩

/-- Once the checkpoint is sent, the block is there to stay. -/
theorem repaired_iff_of_all {c c' : UtxoCache} {offset : Option ℕ} {g₁ : Graph} {sent : List Query}
    (next : NextBlock g b) (small : b.block.txdata.length < 2 ^ 32)
    (txids : (b.block.txdata.map (·.txid)).Nodup) (created : (blockQuery b).exec g = .ok g₁)
    (ok : execAll neo4j (o.middleQueries res b ++ [.updateCheckpoint (blockCheckpoint b offset)])
      g₁ = .ok s)
    (ingested : (o.ingestBlock b.block b.height b.fileName offset).run World.handle
      ⟨⟨g, none⟩, c⟩ = (.ok (), ⟨⟨s, none⟩, c'⟩))
    (transactions : sent.flatMap Query.transactions = transactionRows res [b]) :
    o.Repaired b offset g c (o.syncCheckpointWithDb.run handle ⟨s, none⟩) ↔
      Harmless b g s sent [] := by
  have word := next.word
  obtain ⟨torn, stored, untouched⟩ := torn_of_all next txids created ok
  have sound : Sound s := (next.sound.exec created).execAll ok
  have none : ¬ AllSent b sent → b.block.txdata = [] := by
    intro torn
    by_contra some
    refine torn ⟨List.length_pos_iff.mpr some, ?_⟩
    rw [transactions, length_transactionRows]
  by_cases special : b.height = 255
  · have read := Graph.readHeight_255 (stored.trans (congrArg Nat.cast special))
    refine repaired_iff_of_torn next small ?_ sound ?_ ?_ (fun torn => (untouched (none torn)).1)
      (Or.inr read) fun _ => ⟨_, ingested, rfl⟩
    · rw [transactions]
      exact torn
    · rw [transactions, map_txid_transactionRows, txsOf_singleton]
      exact txids
    · rw [transactions, length_transactionRows]
  · have read : s.readHeight = b.height := by
      rw [Graph.readHeight_eq (by omega) (by omega) (by omega), stored]
    have beside : ∀ top, s.getMaxBlockHeight = some top → asI32 top ≤ s.readHeight := by
      intro top max
      rw [torn.getMaxBlockHeight next.below (by omega)] at max
      cases max
      rw [read, asI32_of_lt word]
    rw [run_sync_beside (by omega) beside]
    refine iff_of_true (Or.inr ⟨?_, _, ingested, rfl, rfl⟩) ?_
    · rw [read]
      exact congrArg Except.ok (by omega)
    · by_cases all : AllSent b sent
      · refine Or.inl ⟨all, fun g' done => ?_⟩
        cases done
        rfl
      · obtain ⟨_, outputs, lockedTo⟩ := untouched (none all)
        refine Or.inr ⟨all, outputs, lockedTo, ?_⟩
        rw [transactions, transactionRows_singleton, none all]
        intro tx mem
        cases mem

end Middle

/-! ## The block is repaired or it is not -/

/-- The database a crash of the ingestion of a block leaves. -/
def crashed (o : IngestionOrchestrator) (b : LocatedBlock) (offset : Option ℕ) (n : ℕ) (g : Graph)
    (c : UtxoCache) : Graph :=
  ((o.ingestBlock b.block b.height b.fileName offset).crash World.handle n
    ⟨⟨g, none⟩, c⟩).store.committed

/-- The statements sent before the crash. -/
def sentBlock (o : IngestionOrchestrator) (b : LocatedBlock) (offset : Option ℕ) (n : ℕ) (g : Graph)
    (c : UtxoCache) : List Query :=
  World.sent n (o.ingestBlock b.block b.height b.fileName offset) ⟨⟨g, none⟩, c⟩

/-- The statements that would have followed. -/
def unsentBlock (o : IngestionOrchestrator) (b : LocatedBlock) (offset : Option ℕ) (n : ℕ)
    (g : Graph) (c : UtxoCache) : List Query :=
  World.unsent n (o.ingestBlock b.block b.height b.fileName offset) ⟨⟨g, none⟩, c⟩

section Outcomes

variable {c : UtxoCache} {offset : Option ℕ} {g₁ g' : Graph} {sent unsent : List Query}

/-- Nothing was sent. -/
theorem repaired_iff_of_nil (next : NextBlock g b) :
    o.Repaired b offset g c (o.syncCheckpointWithDb.run handle ⟨g, none⟩) ↔
      Harmless b g g [] unsent := by
  obtain ⟨resumed, bare⟩ := run_sync_untouched (o := o) next rfl
  have sound := next.sound.runIo o.syncCheckpointWithDb
  refine iff_of_true (Or.inl ⟨resumed, (sound.same_iff next.sound).mpr bare⟩) ?_
  refine Or.inr ⟨fun all => ?_, rfl, rfl, fun tx mem => ?_⟩
  · have same : 0 = b.block.txdata.length := all.2
    have some := all.1
    omega
  · cases mem

/-- One of the inputs is missing, so the transactions are never sent. -/
theorem repaired_iff_of_missing (next : NextBlock g b) (small : b.block.txdata.length < 2 ^ 32)
    (txids : (b.block.txdata.map (·.txid)).Nodup) (created : (blockQuery b).exec g = .ok g₁)
    (split : sent ++ unsent = [blockQuery b] ++ o.writer.outputQueries (o.outputRows [b]))
    (ok : execAll neo4j sent g = .ok s) :
    o.Repaired b offset g c (o.syncCheckpointWithDb.run handle ⟨s, none⟩) ↔
      Harmless b g s sent unsent := by
  cases sent with
  | nil =>
    cases ok
    exact repaired_iff_of_nil next
  | cons q mid =>
    obtain ⟨rfl, outputs⟩ := List.cons.inj split
    obtain ⟨_, first, ok⟩ := execAll_cons_eq_ok.mp ok
    cases created.symm.trans first
    have outputs : mid ++ unsent = o.writer.outputQueries (o.outputRows [b]) := outputs
    have whole : mid ++ (unsent ++ (o.transactionQueries (fun _ => none) b ++
        o.joinQueries (fun _ => none) b)) = o.middleQueries (fun _ => none) b := by
      rw [← List.append_assoc, outputs]
      rfl
    refine repaired_iff_of_middle next small txids created whole ok fun all => ?_
    have nothing := transactions_outputQueries o.writer (o.outputRows [b])
    rw [← outputs, List.flatMap_append] at nothing
    have same : (mid.flatMap Query.transactions).length = b.block.txdata.length := all.2
    have some := all.1
    rw [(List.append_eq_nil_iff.mp nothing).1, List.length_nil] at same
    omega

/-- The inputs are there, and all statements were on their way. -/
theorem repaired_iff_of_stored {res : Found} {c' : UtxoCache} (next : NextBlock g b)
    (small : b.block.txdata.length < 2 ^ 32) (txids : (b.block.txdata.map (·.txid)).Nodup)
    (created : (blockQuery b).exec g = .ok g₁)
    (ingested : (o.ingestBlock b.block b.height b.fileName offset).run World.handle
      ⟨⟨g, none⟩, c⟩ = (.ok (), ⟨⟨g', none⟩, c'⟩))
    (split : sent ++ unsent = o.blockQueries res b offset)
    (ok : execAll neo4j sent g = .ok s) (rest : execAll neo4j unsent s = .ok g') :
    o.Repaired b offset g c (o.syncCheckpointWithDb.run handle ⟨s, none⟩) ↔
      Harmless b g s sent unsent := by
  cases sent with
  | nil =>
    cases ok
    exact repaired_iff_of_nil next
  | cons q mid =>
    have queries : o.blockQueries res b offset = blockQuery b :: (o.middleQueries res b ++
        [.updateCheckpoint (blockCheckpoint b offset)]) := by
      unfold blockQueries middleQueries
      rw [List.append_assoc, List.append_assoc]
      rfl
    obtain ⟨rfl, parts⟩ := List.cons.inj (split.trans queries)
    obtain ⟨_, first, ok⟩ := execAll_cons_eq_ok.mp ok
    cases created.symm.trans first
    rcases List.eq_nil_or_concat unsent with rfl | ⟨late, last, rfl⟩
    · cases rest
      have all : mid = o.middleQueries res b ++
          [.updateCheckpoint (blockCheckpoint b offset)] := by
        rw [← parts]
        exact (List.append_nil _).symm
      rw [all] at ok
      have rows : (blockQuery b :: mid).flatMap Query.transactions = transactionRows res [b] := by
        rw [all, List.flatMap_cons, List.flatMap_append, transactions_middleQueries]
        exact List.append_nil _
      exact repaired_iff_of_all next small txids created ok ingested rows
    · have middle : mid ++ late = o.middleQueries res b := by
        have joined : (mid ++ late) ++ [last] = o.middleQueries res b ++
            [.updateCheckpoint (blockCheckpoint b offset)] := by
          rw [List.append_assoc, ← List.concat_eq_append]
          exact parts
        exact (List.append_inj' joined rfl).1
      exact repaired_iff_of_middle next small txids created middle ok
        fun _ => ⟨_, ingested, rest⟩

end Outcomes

/-- **Crashes of `ingest_block`.** Wherever it dies, the restart repairs the block exactly if the
crash does no harm. -/
theorem repaired_iff_harmless (o : IngestionOrchestrator) (b : LocatedBlock) (offset : Option ℕ)
    (n : ℕ) (g : Graph) (c : UtxoCache) (next : NextBlock g b)
    (small : b.block.txdata.length < 2 ^ 32) (txids : (b.block.txdata.map (·.txid)).Nodup) :
    o.Repaired b offset g c
        (o.syncCheckpointWithDb.run handle ⟨o.crashed b offset n g c, none⟩) ↔
      Harmless b g (o.crashed b offset n g c) (o.sentBlock b offset n g c)
        (o.unsentBlock b offset n g c) := by
  -- a crash leaves what the statements sent so far leave
  have cut : ∀ {qs g'}, World.Sends (o.ingestBlock b.block b.height b.fileName offset)
      ⟨⟨g, none⟩, c⟩ qs → execAll neo4j qs g = .ok g' →
        o.sentBlock b offset n g c ++ o.unsentBlock b offset n g c = qs ∧
          execAll neo4j (o.sentBlock b offset n g c) g = .ok (o.crashed b offset n g c) ∧
          execAll neo4j (o.unsentBlock b offset n g c) (o.crashed b offset n g c) = .ok g' := by
    intro qs g' sends ok
    obtain ⟨s, c', first, left⟩ := sends.crash ok n
    have here : o.crashed b offset n g c = s := by
      unfold crashed
      rw [left]
    have split := sends.split n
    rw [← split, execAll_append_ok first] at ok
    rw [here]
    exact ⟨split, first, ok⟩
  have outcome := run_ingestBlock_outcome o b offset g c
  generalize ran : (o.ingestBlock b.block b.height b.fileName offset).run World.handle
    ⟨⟨g, none⟩, c⟩ = r at outcome
  cases outcome with
  | orphan err unlinked =>
    obtain ⟨split, first, _⟩ := cut (sends_ingestBlock_orphan unlinked) rfl
    rw [(List.append_eq_nil_iff.mp split).1] at first ⊢
    rw [← Except.ok.inj first]
    exact repaired_iff_of_nil next
  | refused err fault parent refusal =>
    obtain ⟨g₁, created⟩ := Graph.exec_createBlocks_one_ok (b := .fromBlock b.block b.height)
      fun n mem same => absurd same (Nat.ne_of_lt (next.below n mem))
    cases created.symm.trans refusal
  | missing err g₁ c' parent created looked =>
    have created' : execAll neo4j [blockQuery b] g = .ok g₁ := by
      rw [execAll_singleton]
      exact created
    obtain ⟨split, first, _⟩ := cut (sends_ingestBlock_missing parent created looked)
      ((execAll_append_ok created').trans (Neo4jWriter.execAll_outputQueries ..))
    exact repaired_iff_of_missing next small txids created split first
  | stored g₁ res c' parent created looked =>
    obtain ⟨split, first, rest⟩ := cut (sends_ingestBlock parent created looked)
      (execAll_blockQueries created)
    exact repaired_iff_of_stored next small txids created ran split first rest

end IngestionOrchestrator

/-- The graph of the first block. -/
def Sample.stored : Graph :=
  (((Sample.orchestrator 0).ingestBlock Sample.first.block 0 Sample.first.fileName none).run
    World.handle ⟨⟨.empty, none⟩, .new 64⟩).2.store.committed

theorem nextBlock_sample : NextBlock Sample.stored Sample.second where
  sound := Sound.run sound_empty _ _
  checkpoint := Or.inl (by decide +kernel)
  complete h below := by
    cases Nat.lt_one_iff.mp below
    exact ⟨1, by decide, by decide +kernel⟩
  below := by
    show ∀ n ∈ Sample.stored.blocks.rows, _
    decide +kernel
  unhashed := by decide +kernel
  word := by decide

/-- Dead after the node of the second block, the restart takes it back; dead after its outputs as
well, the restart leaves them behind. -/
theorem repaired_iff_harmless_sample :
    (Sample.orchestrator 0).Repaired Sample.second none Sample.stored (.new 64)
        ((Sample.orchestrator 0).syncCheckpointWithDb.run handle
          ⟨(Sample.orchestrator 0).crashed Sample.second none 3 Sample.stored (.new 64), none⟩) ∧
      ¬ (Sample.orchestrator 0).Repaired Sample.second none Sample.stored (.new 64)
        ((Sample.orchestrator 0).syncCheckpointWithDb.run handle
          ⟨(Sample.orchestrator 0).crashed Sample.second none 4 Sample.stored (.new 64),
            none⟩) := by
  constructor
  · refine (IngestionOrchestrator.repaired_iff_harmless _ _ _ _ _ _ nextBlock_sample (by decide)
      (by decide)).mpr (Or.inr ⟨?_, ?_, ?_, ?_⟩)
    · unfold IngestionOrchestrator.AllSent
      decide +kernel
    · have rows : ((Sample.orchestrator 0).crashed Sample.second none 3 Sample.stored
          (.new 64)).outputs.rows = Sample.stored.outputs.rows := by
        decide +kernel
      exact Table.ext (Finset.ext_iff.mp rows)
    · decide +kernel
    · decide +kernel
  · refine (IngestionOrchestrator.repaired_iff_harmless _ _ _ _ _ _ nextBlock_sample (by decide)
      (by decide)).not.mpr ?_
    rintro (⟨all, _⟩ | ⟨_, kept, _⟩)
    · have none : ¬ IngestionOrchestrator.AllSent Sample.second
          ((Sample.orchestrator 0).sentBlock Sample.second none 4 Sample.stored (.new 64)) := by
        unfold IngestionOrchestrator.AllSent
        decide +kernel
      exact none all
    · have more : ((Sample.orchestrator 0).crashed Sample.second none 4 Sample.stored
          (.new 64)).outputs.rows.card = 4 := by
        decide +kernel
      have before : Sample.stored.outputs.rows.card = 1 := by decide +kernel
      rw [kept, before] at more
      cases more

/-- After its transactions the second block is taken for complete, and its outputs stay without the
relationships to them. -/
theorem taken_without_relationships :
    NextBlock Sample.stored Sample.second ∧
      ((Sample.orchestrator 0).syncCheckpointWithDb.run handle
        ⟨(Sample.orchestrator 0).crashed Sample.second none 14 Sample.stored (.new 64), none⟩).1 =
          .ok 2 ∧
      ¬ (Sample.orchestrator 0).Repaired Sample.second none Sample.stored (.new 64)
        ((Sample.orchestrator 0).syncCheckpointWithDb.run handle
          ⟨(Sample.orchestrator 0).crashed Sample.second none 14 Sample.stored (.new 64),
            none⟩) := by
  have resumed : ((Sample.orchestrator 0).syncCheckpointWithDb.run handle
      ⟨(Sample.orchestrator 0).crashed Sample.second none 14 Sample.stored (.new 64), none⟩).1 =
        .ok 2 := by decide +kernel
  have joined : ((Sample.orchestrator 0).syncCheckpointWithDb.run handle
      ⟨(Sample.orchestrator 0).crashed Sample.second none 14 Sample.stored (.new 64),
        none⟩).2.committed.hasOutput.card = 1 := by decide +kernel
  have whole : (((Sample.orchestrator 0).ingestBlock Sample.second.block Sample.second.height
      Sample.second.fileName none).run World.handle
        ⟨⟨Sample.stored, none⟩, .new 64⟩).2.store.committed.hasOutput.card = 4 := by
    decide +kernel
  refine ⟨nextBlock_sample, resumed, ?_⟩
  rintro (⟨before, _⟩ | ⟨_, w, ran, same⟩)
  · rw [resumed] at before
    cases before
  · obtain ⟨_, _, _, _, _, _, _, hasOutput, _⟩ := Graph.bare_eq_iff.mp same.bare
    rw [ran, ← hasOutput, joined] at whole
    cases whole

end ChainGraph

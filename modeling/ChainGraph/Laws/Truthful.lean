import ChainGraph.Laws.Pending

/-!
# Caches that are right about what ids denote

An entry of the cache outlives the output it was made from: a rollback deletes outputs, a crash may
undo a chunk, and the cache file is older than the database. What an entry says of its id is right
all the same, since an id denotes one output once and for all. Over such a cache a chunk whose
blocks are new, follow the stored ones and spend what is there is committed, and so are the chunks
of a batch, and batches; and the cache they leave is right again.
-/

namespace ChainGraph

open Foundation Foundation.Store

namespace IngestionOrchestrator

variable {o : IngestionOrchestrator} {U : Denotation} {g : Graph} {c : UtxoCache}
  {w w' : World neo4j UtxoCache} {b : LocatedBlock} {chunk chain rest : List LocatedBlock}

/-- Every entry is what its id denotes, be the output stored or not. -/
def Truthful (o : IngestionOrchestrator) (U : Denotation) (c : UtxoCache) : Prop :=
  ∀ k v, c.peek k = some v → o.valueOf U k = some v

theorem truthful_of_empty (empty : ∀ k, c.peek k = none) : o.Truthful U c := by
  intro k v present
  rw [empty k] at present
  cases present

theorem Truthful.upToDate (truthful : o.Truthful U c) (faithful : o.Faithful U g) :
    UpToDate g c := by
  intro k v present has
  rw [faithful.resolve has]
  exact truthful k v present

theorem Truthful.removeMany (truthful : o.Truthful U c) (keys : List UtxoKey) :
    o.Truthful U (c.removeMany keys) := by
  intro k v present
  rw [UtxoCache.peek_removeMany] at present
  split at present
  · cases present
  · exact truthful k v present

theorem Truthful.populateCache {rows : List OutputData} (truthful : o.Truthful U c)
    (denoted : ∀ row ∈ rows, o.rowOf U row.outputId = some row) :
    o.Truthful U (populateCache rows c) := by
  induction rows generalizing c with
  | nil => exact truthful
  | cons row rows ih =>
    have here := denoted row List.mem_cons_self
    refine ih (fun k v present => ?_) fun r mem => denoted r (List.mem_cons_of_mem row mem)
    rcases UtxoCache.peek_insert present with ⟨rfl, rfl⟩ | ⟨-, old⟩
    · rw [valueOf, outputId_of_rowOf here, here]
      rfl
    · exact truthful k v old

/-! ## Block after block -/

/-- The cache and the database are right about the outputs that ids denote. -/
structure Right (o : IngestionOrchestrator) (U : Denotation) (w : World neo4j UtxoCache) :
    Prop where
  free : w.store.active = none
  faithful : o.Faithful U w.store.committed
  truthful : o.Truthful U w.memory

theorem Ready.right (h : o.Ready U w rest) (truthful : o.Truthful U w.memory) : o.Right U w :=
  ⟨h.free, h.faithful, truthful⟩

/-- A block that is ingested. -/
theorem Right.ingestBlock (h : o.Right U w) (denoted : Denotes U (txsOf [b])) {offset : Option ℕ}
    (ran : (o.ingestBlock b.block b.height b.fileName offset).run World.handle w =
      (.ok (), w')) : o.Right U w' := by
  obtain ⟨⟨g, active⟩, c⟩ := w
  obtain rfl : active = none := h.free
  have outcome := run_ingestBlock_outcome o b offset g c
  rw [ran] at outcome
  cases outcome with
  | stored g₁ found c' parent created looked =>
    obtain ⟨outputs, locks⟩ := coins_blockQuery created
    have stored : o.Faithful U (o.putOutputs b g₁) :=
      (h.faithful.congr outputs locks).putOutputs denoted
    have filled : o.Truthful U (ChainGraph.populateCache (o.outputRows [b]) c) :=
      h.truthful.populateCache fun row mem => rowOf_outputId denoted mem
    obtain ⟨_, _, c₁, answered, looked', _⟩ := run_getManyWithFallback none (spentKeys [b])
      (g := o.putOutputs b g₁) filled fun k v hit => stored.resolve_eq_some hit
    obtain rfl : c₁ = c' := by
      rw [looked] at looked'
      exact (congrArg (fun r => r.2.memory) looked').symm
    obtain ⟨outputs', locks'⟩ := coins_finishBlock o found b offset g₁
    have right : o.Truthful U c₁ := answered.cache
    exact ⟨rfl, stored.congr outputs' locks', right.removeMany _⟩

/-- Blocks that are ingested one after the other. -/
theorem Right.ingestEach (h : o.Right U w) (denoted : Denotes U (txsOf chain))
    (ran : (o.ingestEach chain).run World.handle w = (.ok (), w')) : o.Right U w' := by
  induction chain generalizing w with
  | nil =>
    cases ran
    exact h
  | cons b chain ih =>
    have both : txsOf (b :: chain) = txsOf [b] ++ txsOf chain := txsOf_append [b] chain
    rw [both] at denoted
    obtain ⟨_, w₁, first, later⟩ := Prog.run_bind_eq_ok ran
    exact ih (h.ingestBlock (fun tx mem => denoted tx (List.mem_append_left _ mem)) first)
      (fun tx mem => denoted tx (List.mem_append_right _ mem)) later

/-! ## Chunks -/

/-- Blocks that are new are created. -/
theorem execAll_createBlocksFast_ok (n : Neo4jWriter) {rows : List BlockData}
    (new : g.NewBlocks rows) :
    ∃ g', execAll neo4j (n.batchQueries .createBlocksFast rows) g = .ok g' := by
  unfold Neo4jWriter.batchQueries
  rw [← flatten_chunks n.batchSize_pos rows] at new
  generalize chunks n.batchSize rows = cs at new ⊢
  induction cs generalizing g with
  | nil => exact ⟨g, rfl⟩
  | cons c cs ih =>
    rw [List.flatten_cons] at new
    have unique := new.left.heightUnique
    let next := g.nextBlock + ↑(c.filterMap
      (g.withBlocks (c.foldl Table.upsert g.blocks) unique g.nextBlock).prevLink)
    have created : Query.exec (.createBlocksFast c) g =
        .ok (g.withBlocks (c.foldl Table.upsert g.blocks) unique next) := by
      refine Graph.exec_createBlocksFast.mpr ⟨new.left, unique, next, rfl, ?_⟩
      exact congrArg (fun link => g.nextBlock + ↑(c.filterMap link)) (Graph.prevLink_congr rfl)
    obtain ⟨g', sent⟩ := ih ((Graph.newBlocks_append new.left unique next).mp new)
    refine ⟨g', ?_⟩
    rw [List.flatMap_cons, execAll_append_ok ((execAll_singleton (E := neo4j) ..).trans created)]
    exact sent

/-- Rows depend on outputs, transactions and inputs alone. -/
theorem NewRows.congr {g' : Graph} (h : o.NewRows chunk g) (outputs : g'.outputs = g.outputs)
    (transactions : g'.transactions = g.transactions) (inputs : g'.inputs = g.inputs) :
    o.NewRows chunk g' where
  outputIds := h.outputIds
  outputs := outputs ▸ h.outputs
  txids := h.txids
  transactions := transactions ▸ h.transactions
  inputIds := h.inputIds
  inputs := inputs ▸ h.inputs

/-- **One chunk** that is new, follows the stored block below it and keeps what it spends of its own
outputs is committed. -/
theorem Ready.commitChunk (h : o.Ready U w (chunk ++ rest)) (truthful : o.Truthful U w.memory)
    (retains : o.Retains w.memory.cap chunk) (parent : FirstParentOk w.store.committed chunk)
    (new : w.store.committed.NewBlocks (blockRows chunk)) :
    ∃ counts w', (o.ingestChunk chunk).run World.handle w = (.ok counts, w') ∧
      o.Ready U w' rest ∧ o.Truthful U w'.memory ∧ o.Advanced U w chunk w' := by
  obtain ⟨⟨g, active⟩, c⟩ := w
  obtain rfl : active = none := h.free
  dsimp only at truthful retains parent new
  have denoted : Denotes U (txsOf chunk) := (denotes_append.mp h.denoted).1
  have rows : ∀ row ∈ o.outputRows chunk, o.rowOf U row.outputId = some row :=
    fun row mem => rowOf_outputId denoted mem
  obtain ⟨found, c₁, answered, fetched⟩ := run_prefetchUtxos none (spentKeys chunk)
    (g := g) (c := c)
    (R := fun k v => o.valueOf U k = some v ∧ ((c.peek k).isSome ∨ g.outputs.Has k))
    (fun k v hit => ⟨truthful k v hit, Or.inl (by rw [hit, Option.isSome_some])⟩)
    (fun k v hit => ⟨h.faithful.resolve_eq_some hit,
      Or.inr (resolve_isSome.mp (by rw [hit, Option.isSome_some]))⟩)
  have agree : ∀ k ∈ spentKeys chunk,
      (resolvedChunk o chunk found c₁).2 k = o.valueOf U k := fun k mem => by
    obtain ⟨values, isSome⟩ := resolvedChunk_cases (o := o) (fun _ _ => And.right) answered mem
    have resolves : ((resolvedChunk o chunk found c₁).2 k).isSome := by
      refine isSome.mpr ((h.spent mem).imp Or.inr fun ⟨row, inRows, same⟩ => ?_)
      exact ⟨row, same ▸ retains row inRows (same ▸ mem)⟩
    obtain ⟨v, hit⟩ := Option.isSome_iff_exists.mp resolves
    rw [hit]
    rcases values v hit with ⟨value, -⟩ | ⟨-, row, ⟨pre, post, split, same, -⟩, rfl⟩
    · exact value.symm
    · rw [valueOf, ← same, rows row (split ▸ by simp)]
      rfl
  -- its queries are accepted
  obtain ⟨g₁, created⟩ := execAll_createBlocksFast_ok o.writer new
  obtain ⟨outputs, locks⟩ := coins_createBlocksFast created
  have apart : o.NewRows chunk g₁ := by
    obtain ⟨-, hu, next, rfl, -⟩ := Graph.execAll_createBlocksFast created
    exact h.rows.left.congr rfl rfl rfl
  have sent : execAll neo4j (o.chunkQueries (resolvedChunk o chunk found c₁).2 chunk) g =
      .ok (o.afterBlocks (resolvedChunk o chunk found c₁).2 chunk g₁) :=
    execAll_chunkQueries.mpr ⟨g₁, created, fun _ => apart, rfl⟩
  have ran := run_ingestChunk_ok parent fetched sent
  have ascending : Graph.Ascending (blockRows chunk) :=
    List.pairwise_map.mpr (List.pairwise_append.mp h.ascending).1
  obtain ⟨-, grown, checkpoint⟩ := Grown.chunkQueries h.sound h.rows.left h.known ascending sent
  have faithful' := h.faithful.chunkQueries denoted sent
  have sound' := h.sound.run (o.ingestChunk chunk) c
  rw [ran] at sound'
  have quiet := supplemented_supplement (spentKeys chunk) found
    (ChainGraph.populateCache (o.outputRows chunk) c₁)
  have filled : o.Truthful U (ChainGraph.populateCache (o.outputRows chunk) c₁) :=
    Truthful.populateCache (fun k v hit => (answered.cache k v hit).1) rows
  have settled : o.Truthful U (resolvedChunk o chunk found c₁).1 := fun k v present =>
    filled k v ((quiet.peek k).symm.trans present)
  refine ⟨_, _, ran, h.after grown rfl faithful' sound', settled.removeMany _,
    grown.congr agree, new, checkpoint, ?_⟩
  funext s
  show ((resolvedChunk o chunk found c₁).1.removeMany _).cap s = c.cap s
  rw [UtxoCache.cap_removeMany]
  exact (quiet.cap s).trans ((cap_populateCache s).trans (answered.cap s))

/-! ## Blocks that fit -/

theorem FirstParentOk.left (parent : FirstParentOk g (chunk ++ chain)) : FirstParentOk g chunk := by
  intro b head
  obtain ⟨later, rfl⟩ := List.head?_eq_some_iff.mp head
  exact parent b rfl

/-- The last of the blocks a graph has grown by is the parent of the next. -/
theorem FirstParentOk.after {g' : Graph} (parent : FirstParentOk g (chunk ++ chain))
    (adjacent : (chunk ++ chain).IsChain Adjacent) (links : (chunk ++ chain).IsChain Links)
    (new : g.NewBlocks (blockRows chunk))
    (blocks : g'.blocks = (blockRows chunk).foldl Table.upsert g.blocks) :
    FirstParentOk g' chain := by
  cases last : chunk.getLast? with
  | none =>
    obtain rfl := List.getLast?_eq_none_iff.mp last
    have same : g'.blocks = g.blocks := blocks
    intro b head
    have before := parent b head
    unfold ParentOk Graph.lookupBlockHash Graph.blockAt at before ⊢
    rw [same]
    exact before
  | some a =>
    intro b head
    have mem : a ∈ chunk := List.mem_of_getLast? last
    have stored : BlockData.fromBlock a.block a.height ∈ g'.blocks := by
      rw [blocks]
      exact (Table.mem_foldl_upsert_new new.hashes new.free).mpr
        (Or.inl (List.mem_map_of_mem mem))
    exact parentOk_of_links stored ((List.isChain_append.mp adjacent).2.2 a last b head)
      ((List.isChain_append.mp links).2.2 a last b head)

/-- Blocks that fit on what is stored: they are new, they follow the stored block below them and one
another, and they spend what is there. The cache is right. -/
structure Fits (o : IngestionOrchestrator) (U : Denotation) (w : World neo4j UtxoCache)
    (rest : List LocatedBlock) : Prop where
  ready : o.Ready U w rest
  truthful : o.Truthful U w.memory
  parent : FirstParentOk w.store.committed rest
  adjacent : rest.IsChain Adjacent
  links : rest.IsChain Links
  new : w.store.committed.NewBlocks (blockRows rest)

theorem Fits.newBlocks (h : o.Fits U w (chain ++ rest)) :
    w.store.committed.NewBlocks (blockRows chain) := by
  have new := h.new
  rw [blockRows_append] at new
  exact new.left

/-- Once the first are stored, the others fit. -/
theorem Fits.after (h : o.Fits U w (chain ++ rest)) (ready : o.Ready U w' rest)
    (truthful : o.Truthful U w'.memory) (advanced : o.Advanced U w chain w') :
    o.Fits U w' rest where
  ready := ready
  truthful := truthful
  parent := h.parent.after h.adjacent h.links h.newBlocks advanced.grown.blocks
  adjacent := (List.isChain_append.mp h.adjacent).2.1
  links := (List.isChain_append.mp h.links).2.1
  new := (advanced.grown.newBlocks_append h.newBlocks).mp h.new

/-- Blocks that fit are in ascending order. -/
theorem Fits.below (h : o.Fits U w (chain ++ rest)) :
    ∀ a ∈ chain, ∀ b ∈ rest, a.height < b.height :=
  (List.pairwise_append.mp h.ready.ascending).2.2

/-- **Block after block.** -/
theorem Fits.ingestEach (h : o.Fits U w (chain ++ rest)) :
    ∃ w', (o.ingestEach chain).run World.handle w = (.ok (), w') ∧ o.Fits U w' rest ∧
      o.Advanced U w chain w' := by
  obtain ⟨w', ran, ready, -, advanced⟩ := h.ready.ingestEach
    (h.truthful.upToDate h.ready.faithful) h.parent.left (List.isChain_append.mp h.adjacent).1
    (List.isChain_append.mp h.links).1 h.newBlocks
  have denoted : Denotes U (txsOf chain) := (denotes_append.mp h.ready.denoted).1
  have right := (h.ready.right h.truthful).ingestEach denoted ran
  exact ⟨w', ran, h.after ready right.truthful advanced, advanced⟩

/-- **Chunk after chunk**, each keeping what it spends of its own outputs. -/
theorem Fits.commitChunks {chunks : List (List LocatedBlock)}
    (h : o.Fits U w (chunks.flatten ++ rest))
    (retains : ∀ chunk ∈ chunks, o.Retains w.memory.cap chunk) (stats : BatchStats) :
    ∃ stats' w', (o.ingestChunks stats chunks).run World.handle w = (.ok stats', w') ∧
      o.Fits U w' rest ∧ o.Advanced U w chunks.flatten w' := by
  induction chunks generalizing w stats with
  | nil => exact ⟨stats, w, rfl, h, .refl ..⟩
  | cons chunk chunks ih =>
    rw [List.flatten_cons, List.append_assoc] at h
    obtain ⟨counts, w₁, ran, ready, truthful, step⟩ := h.ready.commitChunk h.truthful
      (retains chunk List.mem_cons_self) h.parent.left h.newBlocks
    have fits := h.after ready truthful step
    obtain ⟨stats', w', rans, fits', steps⟩ := ih fits
      (fun chunk mem => step.cap ▸ retains chunk (List.mem_cons_of_mem _ mem)) _
    refine ⟨stats', w', (Prog.run_bind_ok ran).trans rans, fits', step.append steps ?_⟩
    exact fun a ha b hb => h.below a ha b (List.mem_append_left _ hb)

/-- **Batch after batch**, with room in the cache for each. -/
theorem Fits.ingestBatches {batches : List (List LocatedBlock)}
    (h : o.Fits U w (batches.flatten ++ rest))
    (room : ∀ blocks ∈ batches, o.Roomy w.memory.cap blocks) :
    ∃ w', (o.ingestBatches batches).run World.handle w = (.ok (), w') ∧ o.Fits U w' rest ∧
      o.Advanced U w batches.flatten w' := by
  induction batches generalizing w with
  | nil => exact ⟨w, rfl, h, .refl ..⟩
  | cons blocks batches ih =>
    rw [List.flatten_cons, List.append_assoc] at h
    have whole := o.flatten_adaptiveChunks blocks
    have chunked := h
    rw [← whole] at chunked
    obtain ⟨stats, w₁, ran, fits, step⟩ := chunked.commitChunks
      (fun chunk mem => retains_of_room (chunked.ready.rows.nodup_outputIds mem)
        (room blocks List.mem_cons_self chunk mem)) ⟨0, 0, 0, (o.adaptiveChunks blocks).length⟩
    rw [whole] at step
    obtain ⟨w', rans, fits', steps⟩ := ih fits
      fun blocks mem => step.cap ▸ room blocks (List.mem_cons_of_mem _ mem)
    have first : ((Call.ingestBlocksBatch blocks).program o).run World.handle w = (.ok (), w₁) :=
      Prog.run_bind_ok ran
    refine ⟨w', (Prog.run_bind_ok first).trans rans, fits', step.append steps ?_⟩
    exact fun a ha b hb => h.below a ha b (List.mem_append_left _ hb)

/-- **The two paths agree** on blocks that fit: batches and single blocks both succeed and leave the
same graph. -/
theorem Fits.agree {batches : List (List LocatedBlock)}
    (h : o.Fits U w batches.flatten) (room : ∀ blocks ∈ batches, o.Roomy w.memory.cap blocks) :
    ∃ w₁ w₂, (o.ingestBatches batches).run World.handle w = (.ok (), w₁) ∧
      (o.ingestEach batches.flatten).run World.handle w = (.ok (), w₂) ∧
      w₁.store = w₂.store := by
  rw [← List.append_nil batches.flatten] at h
  obtain ⟨w₁, ran₁, fits₁, first⟩ := h.ingestBatches room
  obtain ⟨w₂, ran₂, fits₂, second⟩ := h.ingestEach
  refine ⟨w₁, w₂, ran₁, ran₂, ?_⟩
  have graphs := first.grown.unique second.grown (first.checkpoint.trans second.checkpoint.symm)
  obtain ⟨⟨g₁, active₁⟩, c₁⟩ := w₁
  obtain ⟨⟨g₂, active₂⟩, c₂⟩ := w₂
  obtain rfl : active₁ = none := fits₁.ready.free
  obtain rfl : active₂ = none := fits₂.ready.free
  exact congrArg (Store.mk · none) graphs

end IngestionOrchestrator

end ChainGraph

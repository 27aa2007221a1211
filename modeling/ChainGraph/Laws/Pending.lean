import ChainGraph.Laws.Ready
import ChainGraph.Laws.Values

/-!
# Chunks and batches

Committing a chunk keeps the blocks after it ready, and grows the graph by the chunk, if the cache
retains what the chunk spends of its own outputs. So do the chunks of a batch, and batches.
-/

namespace ChainGraph

open Foundation Foundation.Store

namespace IngestionOrchestrator

variable {o : IngestionOrchestrator} {U : Denotation} {w w' w₁ : World neo4j UtxoCache}
  {chunk chain chain' rest : List LocatedBlock}

/-- The state before blocks that are still to come in batches. -/
structure Pending (o : IngestionOrchestrator) (U : Denotation) (w : World neo4j UtxoCache)
    (rest : List LocatedBlock) : Prop extends o.Ready U w rest where
  coherent : Coherent w.store.committed w.memory

/-- The shards keep what the chunk itself spends of its own outputs. -/
def Retains (o : IngestionOrchestrator) (cap : Fin numShards → ℕ) (chunk : List LocatedBlock) :
    Prop :=
  ∀ row ∈ o.outputRows chunk, row.outputId ∈ spentKeys chunk →
    Retained cap (o.outputRows chunk) row.outputId row

/-- **One chunk** that is committed. -/
theorem Pending.commitChunk (h : o.Pending U w (chunk ++ rest))
    (retains : o.Retains w.memory.cap chunk)
    {counts : ℕ × ℕ × ℕ} (ran : (o.ingestChunk chunk).run World.handle w = (.ok counts, w')) :
    o.Pending U w' rest ∧ o.Advanced U w chunk w' := by
  have sound' : Sound w'.store.committed := by
    have := h.sound.run (o.ingestChunk chunk) w.memory
    rw [← h.free] at this
    rw [show (⟨⟨w.store.committed, w.store.active⟩, w.memory⟩ : World neo4j UtxoCache) = w
      from rfl, ran] at this
    exact this
  obtain ⟨⟨g, active⟩, c⟩ := w
  obtain rfl : active = none := h.free
  have denoted : Denotes U (txsOf chunk) := (denotes_append.mp h.denoted).1
  obtain ⟨found, c₁, answered, fetched⟩ := run_prefetchUtxos none
    (spentKeys chunk) h.coherent fun _ _ found => found
  have outcome := run_ingestChunk_outcome (o := o) fetched
  rw [ran] at outcome
  cases outcome with
  | committed g' parent sent =>
    have only : ∀ k v, g.resolve k = some v → g.outputs.Has k := fun k v found =>
      resolve_isSome.mp (by rw [found, Option.isSome_some])
    have agree : ∀ k ∈ spentKeys chunk,
        (resolvedChunk o chunk found c₁).2 k = o.valueOf U k := fun k mem => by
      obtain ⟨values, isSome⟩ := resolvedChunk_spec (o := o) only answered mem
      have resolves : ((resolvedChunk o chunk found c₁).2 k).isSome := isSome.mpr
        ((h.spent mem).imp_right fun ⟨row, inRows, same⟩ =>
          ⟨row, same ▸ retains row inRows (same ▸ mem)⟩)
      obtain ⟨v, hit⟩ := Option.isSome_iff_exists.mp resolves
      rw [hit]
      rcases values v hit with stored | ⟨_, row, ⟨pre, post, split, same, _⟩, rfl⟩
      · exact (h.faithful.resolve_eq_some stored).symm
      · rw [valueOf, ← same, rowOf_outputId denoted (split ▸ by simp)]
        rfl
    have ascending : Graph.Ascending (blockRows chunk) :=
      List.pairwise_map.mpr (List.pairwise_append.mp h.ascending).1
    obtain ⟨fresh, grown, checkpoint⟩ := Grown.chunkQueries h.sound h.rows.left h.known ascending
      sent
    have quiet := supplemented_supplement (spentKeys chunk) found
      (populateCache (o.outputRows chunk) c₁)
    have faithful' : o.Faithful U g' := h.faithful.chunkQueries denoted sent
    obtain ⟨g₁, created, _, rfl⟩ := execAll_chunkQueries.mp sent
    obtain ⟨outputs, locks⟩ := coins_createBlocksFast created
    obtain ⟨performs, benefits⟩ := chunkParts_perm o (resolvedChunk o chunk found c₁).2 chunk
    obtain ⟨outputs', locks'⟩ := coins_phases o (resolvedChunk o chunk found c₁).2 chunk
      (hasBip30 chunk) false performs benefits (lastCheckpoint chunk) g₁
    have filled := coherent_populateCache (h.faithful.congr outputs locks)
      (Coherent.congr answered.cache outputs locks)
      (fun row mem => rowOf_outputId denoted mem) (adds_linkBy (hasBip30 chunk))
    refine ⟨⟨h.after grown rfl faithful' sound', (filled.congr outputs' locks').of_peek
      fun k v present => ?_⟩, grown.congr agree, fresh.blocks, checkpoint, ?_⟩
    · rw [UtxoCache.peek_removeMany] at present
      split at present
      · cases present
      · exact Or.inl ((quiet.peek k).symm.trans present)
    · funext s
      show ((resolvedChunk o chunk found c₁).1.removeMany _).cap s = c.cap s
      rw [UtxoCache.cap_removeMany]
      exact (quiet.cap s).trans ((cap_populateCache s).trans (answered.cap s))

/-- Chunks that are committed one after the other. -/
theorem Pending.commitChunks {chunks : List (List LocatedBlock)}
    (h : o.Pending U w (chunks.flatten ++ rest))
    (retains : ∀ chunk ∈ chunks, o.Retains w.memory.cap chunk) {stats stats' : BatchStats}
    (ran : (o.ingestChunks stats chunks).run World.handle w = (.ok stats', w')) :
    o.Pending U w' rest ∧ o.Advanced U w chunks.flatten w' := by
  induction chunks generalizing stats w with
  | nil =>
    cases ran
    exact ⟨h, .refl ..⟩
  | cons chunk chunks ih =>
    rw [ingestChunks, Prog.run_bind] at ran
    rw [List.flatten_cons, List.append_assoc] at h
    cases first : (o.ingestChunk chunk).run World.handle w with
    | mk outcome w₁ =>
      rw [first] at ran
      cases outcome with
      | error e => cases ran
      | ok counts =>
        obtain ⟨h₁, step⟩ := h.commitChunk (retains chunk List.mem_cons_self) first
        have retains' : ∀ chunk ∈ chunks, o.Retains w₁.memory.cap chunk := fun chunk mem =>
          step.cap ▸ retains chunk (List.mem_cons_of_mem _ mem)
        obtain ⟨h', steps⟩ := ih h₁ retains' ran
        refine ⟨h', step.append steps fun a ha b hb => ?_⟩
        exact (List.pairwise_append.mp h.ascending).2.2 a ha b (List.mem_append_left _ hb)

/-! ## Batches -/

/-- Batches one after the other. -/
def ingestBatches (o : IngestionOrchestrator) (batches : List (List LocatedBlock)) : Ingest Unit :=
  batches.forM fun blocks => (Call.ingestBlocksBatch blocks).program o

/-- Every shard has room for what a chunk brings to it. A cache that never evicts has, since the
outputs of a chunk all come in before any is removed. -/
def Roomy (o : IngestionOrchestrator) (cap : Fin numShards → ℕ) (blocks : List LocatedBlock) :
    Prop :=
  ∀ chunk ∈ o.adaptiveChunks blocks, ∀ k,
    (sameShard k (o.outputRows chunk)).length ≤ cap (UtxoCache.shardIndex k)

theorem retains_of_room {cap : Fin numShards → ℕ}
    (ids : ((o.outputRows chunk).map (·.outputId)).Nodup)
    (room : ∀ k, (sameShard k (o.outputRows chunk)).length ≤ cap (UtxoCache.shardIndex k)) :
    o.Retains cap chunk := by
  intro row mem _
  obtain ⟨pre, post, split⟩ := List.append_of_mem mem
  have own := room row.outputId
  rw [split, List.map_append, List.map_cons, List.nodup_append, List.nodup_cons] at ids
  refine ⟨pre, post, split, rfl, fun r hr same => ids.2.1.1 (List.mem_map.mpr ⟨r, hr, same⟩), ?_⟩
  rw [split] at own
  unfold sameShard at own ⊢
  rw [List.filter_append, List.filter_cons_of_pos (by simp), List.length_append,
    List.length_cons] at own
  have few := List.toFinset_card_le ((post.filter fun r =>
    UtxoCache.shardIndex r.outputId = UtxoCache.shardIndex row.outputId).map (·.outputId))
  rw [List.length_map] at few
  omega

/-- A part of new rows has different ids. -/
theorem NewRows.nodup_outputIds {g : Graph} {chunks : List (List LocatedBlock)}
    (h : o.NewRows (chunks.flatten ++ rest) g) (mem : chunk ∈ chunks) :
    ((o.outputRows chunk).map (·.outputId)).Nodup := by
  obtain ⟨pre, post, rfl⟩ := List.append_of_mem mem
  have ids := h.left.outputIds
  rw [List.flatten_append, List.flatten_cons, outputRows_append, outputRows_append,
    List.map_append, List.map_append] at ids
  exact (List.nodup_append.mp (List.nodup_append.mp ids).2.1).1

/-- One batch that succeeds. -/
theorem Pending.batch {blocks : List LocatedBlock} (h : o.Pending U w (blocks ++ rest))
    (room : o.Roomy w.memory.cap blocks)
    (ran : ((Call.ingestBlocksBatch blocks).program o).run World.handle w = (.ok (), w')) :
    o.Pending U w' rest ∧ o.Advanced U w blocks w' := by
  obtain ⟨stats, w₁, chunks, done⟩ := Prog.run_bind_eq_ok ran
  cases done
  have whole := o.flatten_adaptiveChunks blocks
  rw [← whole] at h
  have result := h.commitChunks
    (fun chunk mem => retains_of_room (h.rows.nodup_outputIds mem) (room chunk mem)) chunks
  rwa [whole] at result

/-- Batches that succeed. -/
theorem Pending.batches {batches : List (List LocatedBlock)}
    (h : o.Pending U w (batches.flatten ++ rest))
    (room : ∀ blocks ∈ batches, o.Roomy w.memory.cap blocks)
    (ran : (o.ingestBatches batches).run World.handle w = (.ok (), w')) :
    o.Pending U w' rest ∧ o.Advanced U w batches.flatten w' := by
  induction batches generalizing w with
  | nil =>
    cases ran
    exact ⟨h, .refl ..⟩
  | cons blocks batches ih =>
    obtain ⟨_, w₁, first, ran⟩ := Prog.run_bind_eq_ok ran
    rw [List.flatten_cons, List.append_assoc] at h
    obtain ⟨h₁, step⟩ := h.batch (room blocks List.mem_cons_self) first
    have room' : ∀ blocks ∈ batches, o.Roomy w₁.memory.cap blocks := fun blocks mem =>
      step.cap ▸ room blocks (List.mem_cons_of_mem _ mem)
    obtain ⟨h', steps⟩ := ih h₁ room' ran
    refine ⟨h', step.append steps fun a ha b hb => ?_⟩
    exact (List.pairwise_append.mp h.ascending).2.2 a ha b (List.mem_append_left _ hb)

end IngestionOrchestrator

end ChainGraph

import ChainGraph.Laws.Grown
import ChainGraph.Laws.Linkage

/-!
# Blocks that are still to come

What makes a list of blocks acceptable to a graph: their transactions are new, and each of their
inputs spends an output that is stored or that an earlier one of their transactions creates.
Ingesting one block with `ingest_block` keeps this of the blocks after it, and grows the graph by
the block. The cache may hold more than the graph does, as it does after a rollback; it has only to
be right about what is stored.
-/

namespace ChainGraph

open Foundation Foundation.Store

/-- Every input spends an output from elsewhere or one of an earlier transaction. -/
def SpendsFrom (stored : UtxoKey → Prop) (txs : List Transaction) : Prop :=
  ∀ before tx after, txs = before ++ tx :: after → ∀ k ∈ tx.inputKeys,
    stored k ∨ ∃ t ∈ before, t.txid = k.txid ∧ k.vout < t.output.length

theorem SpendsFrom.left {stored : UtxoKey → Prop} {txs txs' : List Transaction}
    (h : SpendsFrom stored (txs ++ txs')) : SpendsFrom stored txs := by
  rintro before tx after rfl
  exact h before tx (after ++ txs') (by simp)

theorem SpendsFrom.right {stored stored' : UtxoKey → Prop} {txs txs' : List Transaction}
    (h : SpendsFrom stored (txs ++ txs'))
    (more : ∀ k, stored k ∨ (∃ t ∈ txs, t.txid = k.txid ∧ k.vout < t.output.length) → stored' k) :
    SpendsFrom stored' txs' := by
  rintro before tx after rfl k input
  rcases h (txs ++ before) tx after (by simp) k input with elsewhere | ⟨t, mem, same⟩
  · exact Or.inl (more k (Or.inl elsewhere))
  · rcases List.mem_append.mp mem with first | second
    · exact Or.inl (more k (Or.inr ⟨t, first, same⟩))
    · exact Or.inr ⟨t, second, same⟩

namespace IngestionOrchestrator

variable {o : IngestionOrchestrator} {U : Denotation} {w w' w₁ : World neo4j UtxoCache}
  {chunk chain chain' rest : List LocatedBlock} {b : LocatedBlock}

/-- The state before blocks that are still to come. -/
structure Ready (o : IngestionOrchestrator) (U : Denotation) (w : World neo4j UtxoCache)
    (rest : List LocatedBlock) : Prop where
  free : w.store.active = none
  faithful : o.Faithful U w.store.committed
  sound : Sound w.store.committed
  denoted : Denotes U (txsOf rest)
  rows : o.NewRows rest w.store.committed
  spends : SpendsFrom w.store.committed.outputs.Has (txsOf rest)
  ascending : rest.Pairwise fun a b => a.height < b.height

/-- What blocks did to the state. -/
structure Advanced (o : IngestionOrchestrator) (U : Denotation) (w : World neo4j UtxoCache)
    (chain : List LocatedBlock) (w' : World neo4j UtxoCache) : Prop where
  grown : o.Grown (o.valueOf U) w.store.committed chain w'.store.committed
  new : w.store.committed.NewBlocks (blockRows chain)
  checkpoint : w'.store.committed.checkpoint =
    (lastCheckpoint chain).or w.store.committed.checkpoint
  cap : w'.memory.cap = w.memory.cap

theorem Advanced.refl (o : IngestionOrchestrator) (U : Denotation) (w : World neo4j UtxoCache) :
    o.Advanced U w [] w where
  grown := .refl ..
  new := ⟨List.nodup_nil, by simp [blockRows], List.nodup_nil, by simp [blockRows]⟩
  checkpoint := rfl
  cap := rfl

theorem Advanced.append (h : o.Advanced U w chain w₁) (h' : o.Advanced U w₁ chain' w')
    (below : ∀ a ∈ chain, ∀ b ∈ chain', a.height < b.height) :
    o.Advanced U w (chain ++ chain') w' where
  grown := h.grown.append h'.grown h'.new below
  new := (h.grown.newBlocks_append h.new).mpr h'.new
  checkpoint := by
    rw [h'.checkpoint, h.checkpoint, lastCheckpoint_append, Option.or_assoc]
  cap := h'.cap.trans h.cap

/-- What the first of the blocks spend is stored or brought by them. -/
theorem Ready.spent (h : o.Ready U w (chunk ++ rest)) {k : UtxoKey}
    (mem : k ∈ spentKeys chunk) :
    w.store.committed.outputs.Has k ∨ ∃ row ∈ o.outputRows chunk, row.outputId = k := by
  have spends := h.spends
  rw [txsOf_append] at spends
  obtain ⟨tx, inChunk, input⟩ := List.mem_flatMap.mp mem
  obtain ⟨before, after, split⟩ := List.append_of_mem inChunk
  rcases spends.left before tx after split k input with stored | ⟨t, earlier, same⟩
  · exact Or.inl stored
  · refine Or.inr (exists_outputRow.mpr ⟨t, ?_, same⟩)
    rw [split]
    exact List.mem_append_left _ earlier

theorem Ready.known (h : o.Ready U w (chunk ++ rest)) :
    o.Known chunk w.store.committed :=
  fun _ mem => has_putOutputNodes.mpr (h.spent mem).symm

/-- The state before the later blocks, once the graph has grown by the first. -/
theorem Ready.after (h : o.Ready U w (chunk ++ rest)) {res : Found}
    (grown : o.Grown res w.store.committed chunk w'.store.committed)
    (free : w'.store.active = none) (faithful : o.Faithful U w'.store.committed)
    (sound : Sound w'.store.committed) : o.Ready U w' rest where
  free := free
  faithful := faithful
  sound := sound
  denoted := (denotes_append.mp h.denoted).2
  rows := h.rows.after grown
  spends := by
    have spends := h.spends
    rw [txsOf_append] at spends
    refine spends.right fun k either => ?_
    rw [grown.outputs, has_putOutputNodes, exists_outputRow]
    exact either.symm
  ascending := (List.pairwise_append.mp h.ascending).2.1

/-! ## One block -/

/-- Outputs put into a cache once they are stored: it is right about them too. -/
theorem upToDate_populateCache {g : Graph} {c : UtxoCache} (h : o.Faithful U g)
    (upToDate : UpToDate g c) {rows : List OutputData}
    (denoted : ∀ row ∈ rows, o.rowOf U row.outputId = some row)
    {add : Multiset (OutputId × Address) → OutputId × Address → Multiset (OutputId × Address)}
    (adds : Adds add) :
    UpToDate (rows.foldl (Graph.putOutput add) g) (populateCache rows c) := by
  induction rows generalizing g c with
  | nil => exact upToDate
  | cons row rows ih =>
    have here := denoted row List.mem_cons_self
    have stored := h.putOutput adds here
    refine ih stored ?_ fun r hr => denoted r (List.mem_cons_of_mem row hr)
    intro k v present has
    rcases UtxoCache.peek_insert present with ⟨rfl, rfl⟩ | ⟨other, old⟩
    · have same := stored.resolve has
      rw [outputId_of_rowOf here] at same ⊢
      rw [same, valueOf, here]
      rfl
    · have before : g.outputs.Has k := by
        rw [Graph.putOutput, Graph.outputs_lockRow, Graph.outputs_mergeOutput,
          Table.has_upsert] at has
        refine has.resolve_left fun same => other ?_
        rw [outputId_of_rowOf here]
        exact same.symm
      rw [stored.resolve has]
      exact h.resolve_eq_some (upToDate k v old before) ▸ rfl

/-- A block that is new and whose parent is the stored block below it is ingested, whatever offset
in its file it is given. -/
theorem Ready.ingestBlockAt (h : o.Ready U w (b :: rest))
    (upToDate : UpToDate w.store.committed w.memory)
    (parent : ParentOk w.store.committed b.block b.height)
    (new : w.store.committed.NewBlocks (blockRows [b])) (offset : Option ℕ) :
    ∃ w', (o.ingestBlock b.block b.height b.fileName offset).run World.handle w = (.ok (), w') ∧
      o.Ready U w' rest ∧ UpToDate w'.store.committed w'.memory ∧
      o.Grown (o.valueOf U) w.store.committed [b] w'.store.committed ∧
      w'.store.committed.checkpoint = some (.ofData (blockCheckpoint b offset)) ∧
      w'.memory.cap = w.memory.cap := by
  obtain ⟨⟨g, active⟩, c⟩ := w
  obtain rfl : active = none := h.free
  dsimp only at upToDate parent new
  have first : o.Ready U ⟨⟨g, none⟩, c⟩ ([b] ++ rest) := h
  obtain ⟨g₁, created⟩ := Graph.exec_createBlocks_one_ok (g := g)
    (b := .fromBlock b.block b.height) fun d hd same => absurd same
      (new.unused _ (List.mem_singleton.mpr rfl) d hd)
  obtain ⟨outputs, locks⟩ := coins_blockQuery created
  have denoted : Denotes U (txsOf [b]) := (denotes_append.mp first.denoted).1
  have faithful₁ : o.Faithful U (o.putOutputs b g₁) :=
    (h.faithful.congr outputs locks).putOutputs denoted
  have filled : UpToDate (o.putOutputs b g₁) (populateCache (o.outputRows [b]) c) :=
    upToDate_populateCache (h.faithful.congr outputs locks) (upToDate.congr outputs locks)
      (fun row mem => rowOf_outputId denoted mem) adds_mergeLink
  have known : o.Known [b] g := first.known
  have stored : ∀ k ∈ spentKeys [b], (o.putOutputs b g₁).outputs.Has k := fun k mem => by
    rw [putOutputs, Graph.foldl_putOutput_eq]
    exact outputs ▸ known k mem
  obtain ⟨r, found, c', answered, ran, complete, _⟩ := run_getManyWithFallback
    none (spentKeys [b]) (g := o.putOutputs b g₁) filled
    fun _ _ hit _ => hit
  rw [complete fun k mem => Or.inr (stored k mem)] at ran
  have agree : ∀ k ∈ spentKeys [b], found k = o.valueOf U k := fun k mem => by
    obtain ⟨v, hit⟩ := Option.isSome_iff_exists.mp
      ((answered.isSome k).mpr ⟨mem, Or.inr (stored k mem)⟩)
    rw [hit, faithful₁.resolve_eq_some (answered.values k v hit (stored k mem))]
  have done := run_ingestBlock_ok offset parent created ran
  obtain ⟨grown, checkpoint⟩ := Grown.finishBlock found h.sound ⟨new, first.rows.left⟩
    known created offset
  obtain ⟨outputs', locks'⟩ := coins_finishBlock o found b offset g₁
  have sound' := h.sound.run (o.ingestBlock b.block b.height b.fileName offset) c
  rw [done] at sound'
  refine ⟨_, done, first.after grown rfl (faithful₁.congr outputs' locks') sound',
    fun k v present has => ?_, grown.congr agree, checkpoint, ?_⟩
  · rw [UtxoCache.peek_removeMany] at present
    split at present
    · cases present
    · rw [resolve_congr outputs' locks']
      exact answered.cache k v present (outputs' ▸ has)
  · funext s
    show (c'.removeMany _).cap s = c.cap s
    rw [UtxoCache.cap_removeMany, answered.cap s]
    exact cap_populateCache s

/-- **One block** that is new and whose parent is the stored block below it is ingested. -/
theorem Ready.ingestBlock (h : o.Ready U w (b :: rest))
    (upToDate : UpToDate w.store.committed w.memory)
    (parent : ParentOk w.store.committed b.block b.height)
    (new : w.store.committed.NewBlocks (blockRows [b])) :
    ∃ w', (o.ingestBlock b.block b.height b.fileName none).run World.handle w = (.ok (), w') ∧
      o.Ready U w' rest ∧ UpToDate w'.store.committed w'.memory ∧ o.Advanced U w [b] w' := by
  obtain ⟨w', ran, ready, upToDate', grown, checkpoint, cap⟩ :=
    h.ingestBlockAt upToDate parent new none
  exact ⟨w', ran, ready, upToDate', grown, new, checkpoint, cap⟩

/-! ## Block after block -/

/-- Blocks one after the other, as the caller passes them: without an offset. -/
def ingestEach (o : IngestionOrchestrator) (chain : List LocatedBlock) : Ingest Unit :=
  chain.forM fun b => o.ingestBlock b.block b.height b.fileName none

/-- A block just ingested is the parent of the one that names it. -/
theorem parentOk_of_links {a : LocatedBlock} {g : Graph}
    (stored : BlockData.fromBlock a.block a.height ∈ g.blocks) (next : Adjacent a b)
    (link : Links a b) : ParentOk g b.block b.height := by
  refine Or.inr fun hash found => ?_
  have up : b.height = a.height + 1 := next
  have here : g.blockAt (b.height - 1) = some (.fromBlock a.block a.height) := by
    refine Graph.blockAt_eq_some.mpr ⟨stored, ?_⟩
    show a.height = b.height - 1
    omega
  rw [Graph.lookupBlockHash, here] at found
  cases found
  exact Eq.symm link

/-- **A chain of blocks** that are new and follow the stored one below them. -/
theorem Ready.ingestEach (h : o.Ready U w (chain ++ rest))
    (upToDate : UpToDate w.store.committed w.memory)
    (parent : FirstParentOk w.store.committed chain) (adjacent : chain.IsChain Adjacent)
    (links : chain.IsChain Links) (new : w.store.committed.NewBlocks (blockRows chain)) :
    ∃ w', (o.ingestEach chain).run World.handle w = (.ok (), w') ∧
      o.Ready U w' rest ∧ UpToDate w'.store.committed w'.memory ∧ o.Advanced U w chain w' := by
  induction chain generalizing w with
  | nil => exact ⟨w, rfl, h, upToDate, .refl ..⟩
  | cons b chain ih =>
    have first : w.store.committed.NewBlocks (blockRows [b]) := new.left (s := blockRows chain)
    obtain ⟨w₁, ran, h₁, upToDate₁, step⟩ := h.ingestBlock upToDate (parent b rfl) first
    have stored : BlockData.fromBlock b.block b.height ∈ w₁.store.committed.blocks := by
      rw [step.grown.blocks]
      exact (Table.mem_foldl_upsert_new first.hashes first.free).mpr
        (Or.inl (List.mem_singleton.mpr rfl))
    have parent₁ : FirstParentOk w₁.store.committed chain := fun next head => by
      obtain ⟨chain, rfl⟩ := List.head?_eq_some_iff.mp head
      exact parentOk_of_links stored (List.isChain_cons_cons.mp adjacent).1
        (List.isChain_cons_cons.mp links).1
    obtain ⟨w', rans, h', upToDate', steps⟩ := ih h₁ upToDate₁ parent₁ adjacent.tail links.tail
      ((step.grown.newBlocks_append first).mp new)
    refine ⟨w', ?_, h', upToDate', step.append steps fun a ha c hc => ?_⟩
    · show (_ >>= fun _ => o.ingestEach chain).run World.handle w = _
      rw [Prog.run_bind_ok ran, rans]
    · cases List.mem_singleton.mp ha
      exact (List.pairwise_cons.mp h.ascending).1 c (List.mem_append_left _ hc)

end IngestionOrchestrator

end ChainGraph

import ChainGraph.Laws.Grown
import ChainGraph.Laws.Transparency

/-!
# Ingesting a block twice

Every direct statement of a block merges: a node under its key, a relationship between its ends, and
the amounts it sets replace those that are there. So the statements of a block, sent again to a
graph that has them, change nothing, provided the rows they carry are the same. The amounts depend
on what the inputs resolve to, which is the same in both runs although the first took the spent
outputs out of the cache: they are looked up in the graph, where they still are.
-/

namespace ChainGraph

open Foundation Foundation.Store

namespace IngestionOrchestrator

variable {o : IngestionOrchestrator} {U : Denotation} {g g₁ g' : Graph} {c : UtxoCache}
  {b : LocatedBlock} {offset : Option ℕ} {res res' : Found} {rows : List LocatedBlock}

/-! ## The phases, twice -/

/-- The merging phases change nothing where they have been. -/
theorem phases_twice (o : IngestionOrchestrator) (res : Found) (rows : List LocatedBlock)
    {parts : List (List PerformsData × List BenefitsToData)}
    (performs : (parts.flatMap (·.1)).Perm (performsRows res rows))
    (benefits : (parts.flatMap (·.2)).Perm (o.benefitsRows rows))
    (checkpoint : Checkpoint) (g : Graph) :
    o.phases res rows true true parts (some checkpoint)
        (o.phases res rows true true parts (some checkpoint) g) =
      o.phases res rows true true parts (some checkpoint) g := by
  have outputs : o.putOutputNodes rows (o.putOutputNodes rows g.outputs) =
      o.putOutputNodes rows g.outputs := Table.foldl_upsert_twice _ _
  rw [phases_eq o res rows true true performs benefits (some checkpoint) g,
    phases_eq o res rows true true performs benefits]
  dsimp only [linkBy]
  rw [outputs]
  apply Graph.ext
  case addresses =>
    ext a
    simp only [Finset.mem_union]
    tauto
  case transactions => exact Table.foldl_upsert_twice _ _
  case inputs => exact Table.foldl_upsert_twice _ _
  case includedIn => exact foldl_mergeLink_twice _ _
  case hasInput => exact foldl_mergeLink_twice _ _
  case hasOutput => exact foldl_mergeLink_twice _ _
  case lockedTo => exact foldl_mergeLink_twice _ _
  case spends => exact foldl_mergeLink_twice _ _
  case performs => exact Table.foldl_upsert_twice _ _
  case benefitsTo => exact Table.foldl_upsert_twice _ _
  all_goals rfl

/-- What a block adds depends on its inputs' values alone. -/
theorem finishBlock_congr (same : ∀ k ∈ spentKeys [b], res k = res' k) :
    o.finishBlock res b offset g = o.finishBlock res' b offset g := by
  unfold finishBlock
  rw [transactionRows_congr same, performsRows_congr same]

/-- Finishing a block again. -/
theorem finishBlock_twice (o : IngestionOrchestrator) (res : Found) (b : LocatedBlock)
    (offset : Option ℕ) (g : Graph) :
    o.finishBlock res b offset (o.putOutputs b (o.finishBlock res b offset (o.putOutputs b g))) =
      o.finishBlock res b offset (o.putOutputs b g) := by
  obtain ⟨performs, benefits⟩ := blockParts_perm o res b
  rw [finishBlock_eq, finishBlock_eq]
  exact phases_twice o res [b] performs benefits _ g

/-! ## The call, twice -/

/-- The blocks are as they were when the block was created. -/
theorem blocks_finishBlock (o : IngestionOrchestrator) (res : Found) (b : LocatedBlock)
    (offset : Option ℕ) (g : Graph) :
    (o.finishBlock res b offset (o.putOutputs b g)).blocks = g.blocks ∧
      (o.finishBlock res b offset (o.putOutputs b g)).nextBlock = g.nextBlock := by
  rw [finishBlock_eq]
  exact blocks_phases o res [b] true true (blockParts_perm o res b).1 (blockParts_perm o res b).2 ..

/-- A parent that was the block below is still, once the block is there. -/
theorem parentOk_again (parent : ParentOk g b.block b.height)
    (created : (blockQuery b).exec g = .ok g₁) (blocks : g'.blocks = g₁.blocks) :
    ParentOk g' b.block b.height := by
  obtain ⟨-, hu, next, rfl, -⟩ := Graph.exec_createBlocks_one.mp created
  have stored : g'.blocks = g.blocks.upsert (.fromBlock b.block b.height) := blocks
  by_cases genesis : b.height = 0
  · exact Or.inl genesis
  refine Or.inr fun hash found => ?_
  obtain ⟨n, below, rfl⟩ := Option.map_eq_some_iff.mp found
  obtain ⟨mem, height⟩ := Graph.blockAt_eq_some.mp below
  rw [stored] at mem
  rcases Table.mem_upsert.mp mem with rfl | ⟨old, -⟩
  · have here : b.height = b.height - 1 := height
    omega
  · apply parent.resolve_left genesis
    rw [Graph.lookupBlockHash, Graph.blockAt_eq_some.mpr ⟨old, height⟩, Option.map_some]

/-- What a stored key is found to be worth. -/
theorem Faithful.storedAmong (h : o.Faithful U g) {keys : List UtxoKey}
    (stored : ∀ k ∈ keys, g.outputs.Has k) :
    ∀ k ∈ keys, ChainGraph.storedAmong g keys k = o.valueOf U k := by
  intro k mem
  rw [ChainGraph.storedAmong, if_pos mem, h.resolve (stored k mem)]

/-- **Idempotence.** Over a graph built by ingestion, with any cache coherent with it: if a block is
ingested, ingesting it once more, with the cache that is left, succeeds and leaves the same
database. -/
theorem ingestBlock_idempotent (reached : Reachable o U g) (denoted : Denotes U (txsOf [b]))
    (coherent : Coherent g c) :
    let run w := (o.ingestBlock b.block b.height b.fileName offset).run World.handle w
    let after := (run ⟨⟨g, none⟩, c⟩).2
    (run ⟨⟨g, none⟩, c⟩).1 = .ok () →
      (run after).1 = .ok () ∧ (run after).2.store = after.store := by
  intro run after succeeded
  have faithful := faithful_reachable reached
  obtain ⟨ok, last, results⟩ := ingestBlock_result offset faithful denoted
  obtain ⟨r, c₂, -, coherent₂, ran⟩ := results c coherent
  have final : o.Faithful U (run ⟨⟨g, none⟩, c⟩).2.store.committed := faithful.ingestBlock denoted
  have outcome := run_ingestBlock_outcome o b offset g c
  have whole : run ⟨⟨g, none⟩, c⟩ = (r, ⟨⟨last, none⟩, c₂⟩) := ran
  have left : after = ⟨⟨last, none⟩, c₂⟩ := congrArg Prod.snd whole
  rw [whole] at succeeded
  cases succeeded
  rw [whole] at final
  rw [ran] at outcome
  rw [left]
  dsimp only at final
  generalize result : (Except.ok (), (⟨⟨last, none⟩, c₂⟩ : World neo4j UtxoCache)) = found
    at outcome
  cases outcome with
  | orphan | refused | missing => cases congrArg Prod.fst result
  | stored g₁ res c' parent created looked =>
    have graph : last = o.finishBlock res b offset (o.putOutputs b g₁) :=
      congrArg (fun x => x.2.store.committed) result
    subst graph
    obtain ⟨outputs, locks⟩ := coins_blockQuery created
    have h₁ := faithful.congr outputs locks
    obtain ⟨blocks, next⟩ := blocks_finishBlock o res b offset g₁
    obtain ⟨outputs', -⟩ := coins_finishBlock o res b offset g₁
    -- The first lookup found every input in the graph.
    obtain ⟨_, _, -, looked₁, all₁, some₁⟩ := looked_block h₁ (coherent.congr outputs locks) denoted
    rw [looked] at looked₁
    cases looked₁
    have complete : ∀ k ∈ spentKeys [b], (o.putOutputs b g₁).outputs.Has k := by
      by_contra incomplete
      obtain ⟨e, refused⟩ := some₁ incomplete
      cases refused
    have values : ∀ k ∈ spentKeys [b], res k = o.valueOf U k := by
      cases all₁ complete
      exact (h₁.putOutputs denoted).storedAmong complete
    -- So does the second, and finds the same.
    have complete' : ∀ k ∈ spentKeys [b], (o.putOutputs b
        (o.finishBlock res b offset (o.putOutputs b g₁))).outputs.Has k := by
      intro k mem
      rw [putOutputs, Graph.foldl_putOutput_eq, Table.has_foldl_upsert, outputs']
      exact Or.inr (complete k mem)
    obtain ⟨_, c₃, -, looked₂, all₂, -⟩ := looked_block final coherent₂ denoted
    rw [all₂ complete'] at looked₂
    have again := run_ingestBlock_ok offset (parentOk_again parent created blocks)
      (Graph.exec_createBlocks_one_again created blocks next) looked₂
    have values' := (final.putOutputs denoted).storedAmong complete'
    rw [finishBlock_congr fun k mem => (values' k mem).trans (values k mem).symm,
      finishBlock_twice] at again
    have second : run ⟨⟨o.finishBlock res b offset (o.putOutputs b g₁), none⟩, c₂⟩ = _ := again
    rw [second]
    exact ⟨rfl, rfl⟩

end IngestionOrchestrator

/-- The second block of the small chain, twice over the first. -/
theorem ingestBlock_idempotent_second :
    let o := Sample.orchestrator 0
    let g := (((Call.ingestBlock Sample.first none).program o).run World.handle
      ⟨⟨.empty, none⟩, .new 1⟩).2.store.committed
    let run w := (o.ingestBlock Sample.second.block 1 "blk00000.dat" none).run World.handle w
    let after := (run ⟨⟨g, none⟩, .new 1000⟩).2
    (run after).1 = .ok () ∧ (run after).2.store = after.store := by
  refine IngestionOrchestrator.ingestBlock_idempotent (U := Sample.denotation)
    (b := Sample.second)
    (.single ⟨_, .ingestBlock Sample.first none, .new 1, ⟨rfl, rfl⟩, ?_, rfl⟩) ?_
    (coherent_new _ _) ?_
  · show ∀ tx ∈ txsOf [Sample.first], _
    decide
  · show ∀ tx ∈ txsOf [Sample.second], _
    decide
  · decide +kernel

end ChainGraph

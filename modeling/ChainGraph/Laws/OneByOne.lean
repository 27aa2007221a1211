import ChainGraph.Laws.Detour
import ChainGraph.Laws.Truthful
import ChainGraph.Laws.Uniqueness

/-!
# Blocks one by one

Blocks that are new are ingested one after the other iff each names the stored block below it and
spends outputs that are stored, or created up to it. They need not be clear of what a failed attempt
left behind: an output that is stored already is stored again, and its links are merged.
-/

namespace ChainGraph

open Foundation Foundation.Store

/-! ## What blocks create and spend -/

/-- The blocks create this output. -/
def Creates (chain : List LocatedBlock) (k : UtxoKey) : Prop :=
  ∃ tx ∈ txsOf chain, tx.txid = k.txid ∧ k.vout < tx.output.length

theorem creates_append {chain chain' : List LocatedBlock} {k : UtxoKey} :
    Creates (chain ++ chain') k ↔ Creates chain k ∨ Creates chain' k := by
  unfold Creates
  simp only [IngestionOrchestrator.txsOf_append, List.mem_append, or_and_right, exists_or]

/-- What each block spends is stored, or created by the blocks up to it. -/
def Funded (stored : UtxoKey → Prop) (chain : List LocatedBlock) : Prop :=
  ∀ before b after, chain = before ++ b :: after →
    ∀ k ∈ spentKeys [b], stored k ∨ Creates (before ++ [b]) k

section Funded

variable {stored stored' : UtxoKey → Prop} {chain chain' : List LocatedBlock} {b : LocatedBlock}

theorem Funded.congr (h : Funded stored chain) (same : ∀ k, stored k → stored' k) :
    Funded stored' chain :=
  fun before b after split k mem => (h before b after split k mem).imp_left (same k)

theorem funded_append : Funded stored (chain ++ chain') ↔
    Funded stored chain ∧ Funded (fun k => stored k ∨ Creates chain k) chain' := by
  constructor
  · intro h
    refine ⟨?_, ?_⟩
    · rintro before b after rfl
      exact h before b (after ++ chain') (by simp)
    · rintro before b after rfl k mem
      have := h (chain ++ before) b after (by simp) k mem
      rw [List.append_assoc, creates_append] at this
      exact or_assoc.mpr this
  · rintro ⟨first, second⟩ before b after split k mem
    rcases List.append_eq_append_iff.mp split with ⟨later, rfl, rest⟩ | ⟨later, rfl, rest⟩
    · have := second later b after rest k mem
      rw [or_assoc, ← creates_append, ← List.append_assoc] at this
      exact this
    · cases later with
      | nil =>
        have := second [] b after rest.symm k mem
        rw [or_assoc, ← creates_append] at this
        simpa using this
      | cons d later =>
        obtain ⟨rfl, rfl⟩ := List.cons_eq_cons.mp rest
        exact first before b later rfl k mem

theorem funded_cons : Funded stored (b :: chain) ↔
    Funded stored [b] ∧ Funded (fun k => stored k ∨ Creates [b] k) chain := by
  rw [← funded_append, List.singleton_append]

theorem funded_singleton :
    Funded stored [b] ↔ ∀ k ∈ spentKeys [b], stored k ∨ Creates [b] k := by
  constructor
  · intro h
    exact h [] b [] rfl
  · intro h before d after split
    obtain ⟨rfl, rfl, rfl⟩ : before = [] ∧ d = b ∧ after = [] := by
      cases before with
      | nil =>
        obtain ⟨rfl, rfl⟩ := List.cons_eq_cons.mp split
        exact ⟨rfl, rfl, rfl⟩
      | cons x before => simp at split
    exact h

/-- All that the blocks spend is stored or created by them. -/
theorem Funded.spent (h : Funded stored chain) {k : UtxoKey} (mem : k ∈ spentKeys chain) :
    stored k ∨ Creates chain k := by
  obtain ⟨tx, inChain, input⟩ := List.mem_flatMap.mp mem
  obtain ⟨b, hb, inBlock⟩ := List.mem_flatMap.mp inChain
  obtain ⟨before, after, rfl⟩ := List.append_of_mem hb
  have spent : k ∈ spentKeys [b] :=
    List.mem_flatMap.mpr ⟨tx, by simpa [txsOf] using inBlock, input⟩
  refine (h before b after rfl k spent).imp_right fun created => ?_
  rw [List.append_cons, creates_append]
  exact Or.inl created

end Funded

namespace IngestionOrchestrator

variable {o : IngestionOrchestrator} {U : Denotation} {g g₁ g' : Graph}
  {w w' w₁ : World neo4j UtxoCache} {chain chain' : List LocatedBlock}
  {a b : LocatedBlock} {offset : LocatedBlock → Option ℕ}

/-! ## What blocks leave -/

/-- The nodes that blocks leave, whatever was there before. -/
structure Landed (g : Graph) (chain : List LocatedBlock) (g' : Graph) : Prop where
  blocks : g'.blocks = (blockRows chain).foldl Table.upsert g.blocks
  outputs : ∀ k, g'.outputs.Has k ↔ g.outputs.Has k ∨ Creates chain k
  transactions : ∀ t, g'.transactions.Has t ↔
    g.transactions.Has t ∨ t ∈ (txsOf chain).map (·.txid)
  inputs : ∀ k, g'.inputs.Has k ↔ g.inputs.Has k ∨ k ∈ (inputRows chain).map (·.inputId)

theorem Landed.refl (g : Graph) : Landed g [] g where
  blocks := rfl
  outputs k := by simp [Creates, txsOf]
  transactions t := by simp [txsOf]
  inputs k := by simp [inputRows]

theorem Landed.append (h : Landed g chain g₁) (h' : Landed g₁ chain' g') :
    Landed g (chain ++ chain') g' where
  blocks := by rw [h'.blocks, h.blocks, blockRows_append, List.foldl_append]
  outputs k := by rw [h'.outputs, h.outputs, creates_append, or_assoc]
  transactions t := by
    rw [h'.transactions, h.transactions, txsOf_append, List.map_append, List.mem_append, or_assoc]
  inputs k := by
    rw [h'.inputs, h.inputs, inputRows_append, List.map_append, List.mem_append, or_assoc]

theorem landed_phases (o : IngestionOrchestrator) (res : Found) (rows : List LocatedBlock)
    (merging mergingHas : Bool) {parts : List (List PerformsData × List BenefitsToData)}
    (performs : (parts.flatMap (·.1)).Perm (performsRows res rows))
    (benefits : (parts.flatMap (·.2)).Perm (o.benefitsRows rows))
    (checkpoint : Option Checkpoint) {hu} {next : Multiset (BlockHash × BlockHash)} :
    Landed g rows (o.phases res rows merging mergingHas parts checkpoint
      (g.withBlocks ((blockRows rows).foldl Table.upsert g.blocks) hu next)) := by
  rw [phases_eq o res rows merging mergingHas performs benefits]
  refine ⟨rfl, fun k => ?_, fun t => ?_, fun k => ?_⟩
  · refine (has_putOutputNodes (o := o)).trans (or_comm.trans (or_congr_right ?_))
    exact exists_outputRow
  · rw [List.mem_map]
    exact has_putTransactions.trans or_comm
  · refine (Table.has_foldl_upsert _ _).trans (or_comm.trans (or_congr_right ?_))
    rw [List.map_map]
    rfl

/-- What is new beside blocks is new once they are stored. -/
theorem Landed.newBlocks (h : Landed g chain g₁) (new : g.NewBlocks (blockRows (chain ++ chain'))) :
    g₁.NewBlocks (blockRows chain') := by
  rw [blockRows_append] at new
  have rest := (Graph.newBlocks_append new.left new.left.heightUnique 0).mp new
  exact ⟨rest.hashes, h.blocks ▸ rest.free, rest.heights, h.blocks ▸ rest.unused⟩

theorem Unseen.left (h : Unseen (chain ++ chain') g) : Unseen chain g where
  txids := by
    have txids := h.txids
    rw [txsOf_append, List.map_append] at txids
    exact (List.nodup_append.mp txids).1
  transactions tx mem :=
    h.transactions tx (txsOf_append chain chain' ▸ List.mem_append_left _ mem)

/-- Later transactions are not among the first. -/
theorem Unseen.apart (h : Unseen (chain ++ chain') g) :
    ∀ tx ∈ txsOf chain', tx.txid ∉ (txsOf chain).map (·.txid) := by
  have txids := h.txids
  rw [txsOf_append, List.map_append, List.nodup_append] at txids
  exact fun tx mem before => txids.2.2 _ before _ (List.mem_map_of_mem mem) rfl

theorem Unseen.after (h : Unseen (chain ++ chain') g) (landed : Landed g chain g₁) :
    Unseen chain' g₁ where
  txids := by
    have txids := h.txids
    rw [txsOf_append, List.map_append] at txids
    exact (List.nodup_append.mp txids).2.1
  transactions tx mem has := by
    rcases (landed.transactions _).mp has with stored | earlier
    · exact h.transactions tx (txsOf_append chain chain' ▸ List.mem_append_right _ mem) stored
    · exact h.apart tx mem earlier

/-! ## Lists that continue what is stored -/

/-- A list that continues what is stored: its first block names the stored one below it, the others
the block before them, and each spends what is stored or created up to it. -/
structure Continues (g : Graph) (chain : List LocatedBlock) : Prop where
  parent : FirstParentOk g chain
  links : chain.IsChain Links
  funded : Funded g.outputs.Has chain

/-- Above a stored block, the parent is right iff the block names it. -/
theorem parentOk_iff_links (stored : BlockData.fromBlock a.block a.height ∈ g.blocks)
    (next : Adjacent a b) : ParentOk g b.block b.height ↔ Links a b := by
  refine ⟨fun parent => ?_, parentOk_of_links stored next⟩
  have up : b.height = a.height + 1 := next
  refine parent.parent (by omega) (Graph.blockAt_eq_some.mpr ⟨stored, ?_⟩)
  show a.height = b.height - 1
  omega

theorem Landed.mem (landed : Landed g chain g') (new : g.NewBlocks (blockRows chain))
    (mem : a ∈ chain) : BlockData.fromBlock a.block a.height ∈ g'.blocks := by
  rw [landed.blocks]
  exact (Table.mem_foldl_upsert_new new.hashes new.free).mpr (Or.inl (List.mem_map_of_mem mem))

/-- After blocks, the parent of the next is right iff it names the last of them. -/
theorem firstParentOk_iff (landed : Landed g chain g') (new : g.NewBlocks (blockRows chain))
    (last : a ∈ chain.getLast?) (adjacent : (chain ++ chain').IsChain Adjacent) :
    FirstParentOk g' chain' ↔ ∀ b ∈ chain'.head?, Links a b := by
  refine forall₂_congr fun b head => parentOk_iff_links ?_ ?_
  · exact landed.mem new (List.mem_of_getLast? last)
  · exact (List.isChain_append.mp adjacent).2.2 a last b head

theorem continues_nil (g : Graph) : Continues g [] where
  parent b head := by cases head
  links := List.isChain_nil
  funded before b after split := by simp at split

theorem continues_singleton : Continues g [b] ↔
    ParentOk g b.block b.height ∧ ∀ k ∈ spentKeys [b], g.outputs.Has k ∨ Creates [b] k := by
  constructor
  · rintro ⟨parent, -, funded⟩
    exact ⟨parent b rfl, funded_singleton.mp funded⟩
  · rintro ⟨parent, spent⟩
    refine ⟨fun d head => ?_, List.isChain_singleton _, funded_singleton.mpr spent⟩
    exact Option.some.inj head ▸ parent

/-- A list continues what is stored iff its first block does, and the others what is then stored. -/
theorem continues_cons (landed : Landed g [b] g₁) (new : g.NewBlocks (blockRows [b]))
    (adjacent : (b :: chain).IsChain Adjacent) :
    Continues g (b :: chain) ↔ Continues g [b] ∧ Continues g₁ chain := by
  have second : FirstParentOk g₁ chain ↔ ∀ d ∈ chain.head?, Links b d :=
    firstParentOk_iff landed new rfl adjacent
  have stored : (fun k => g.outputs.Has k ∨ Creates [b] k) = g₁.outputs.Has :=
    funext fun k => propext (landed.outputs k).symm
  have spends : Funded g.outputs.Has (b :: chain) ↔
      Funded g.outputs.Has [b] ∧ Funded g₁.outputs.Has chain :=
    stored ▸ funded_cons
  constructor
  · rintro ⟨parent, links, funded⟩
    obtain ⟨here, later⟩ := spends.mp funded
    obtain ⟨link, links⟩ := List.isChain_cons.mp links
    exact ⟨⟨parent, List.isChain_singleton _, here⟩, second.mpr link, links, later⟩
  · rintro ⟨⟨parent, -, here⟩, parent', links, later⟩
    exact ⟨parent, List.isChain_cons.mpr ⟨second.mp parent', links⟩, spends.mpr ⟨here, later⟩⟩

/-! ## Between calls -/

/-- No transaction is open, the database is one that ingestion builds, and the cache is coherent
with it. -/
structure Resting (o : IngestionOrchestrator) (U : Denotation) (w : World neo4j UtxoCache) :
    Prop where
  free : w.store.active = none
  faithful : o.Faithful U w.store.committed
  sound : Sound w.store.committed
  coherent : Coherent w.store.committed w.memory

/-- What blocks did that were ingested one by one. -/
structure Stepped (o : IngestionOrchestrator) (U : Denotation) (offset : LocatedBlock → Option ℕ)
    (w : World neo4j UtxoCache) (chain : List LocatedBlock) (w' : World neo4j UtxoCache) :
    Prop where
  resting : o.Resting U w'
  landed : Landed w.store.committed chain w'.store.committed
  hasOutput : w'.store.committed.hasOutput =
    (o.ownedOutputs chain).foldl mergeLink w.store.committed.hasOutput
  checkpoint : w'.store.committed.checkpoint =
    (tipCheckpoint offset chain).or w.store.committed.checkpoint
  merged : Unseen chain w.store.committed →
    o.Merged (o.valueOf U) w.store.committed chain w'.store.committed

/-! ## Block after block -/

/-- **One block** that continues what is stored is ingested, -/
theorem Resting.ingestBlock (h : o.Resting U w) (denoted : Denotes U (txsOf [b]))
    (new : w.store.committed.NewBlocks (blockRows [b]))
    (continues : Continues w.store.committed [b]) (offset : LocatedBlock → Option ℕ) :
    let ran := (o.ingestBlock b.block b.height b.fileName (offset b)).run World.handle w
    ran.1 = .ok () ∧ o.Stepped U offset w [b] ran.2 := by
  intro ran
  obtain ⟨parent, funded⟩ := continues_singleton.mp continues
  obtain ⟨⟨g, active⟩, c⟩ := w
  obtain rfl : active = none := h.free
  dsimp only at new parent funded
  obtain ⟨g₁, created⟩ := Graph.exec_createBlocks_one_ok (g := g)
    (b := .fromBlock b.block b.height) fun d hd same => absurd same
      (new.unused _ (List.mem_singleton.mpr rfl) d hd)
  obtain ⟨outputs, locks⟩ := coins_blockQuery created
  have faithful₁ := h.faithful.congr outputs locks
  obtain ⟨r, c', coherent', looked, stored, _⟩ :=
    looked_block faithful₁ (h.coherent.congr outputs locks) denoted
  have known : o.Known [b] g := fun k mem => by
    rw [has_putOutputNodes, exists_outputRow]
    exact (funded k mem).symm
  have complete : ∀ k ∈ spentKeys [b], (o.putOutputs b g₁).outputs.Has k := fun k mem => by
    rw [putOutputs, Graph.foldl_putOutput_eq]
    exact outputs ▸ known k mem
  rw [stored complete] at looked
  let found := storedAmong (o.putOutputs b g₁) (spentKeys [b])
  have done : ran = (.ok (), ⟨⟨o.finishBlock found b (offset b) (o.putOutputs b g₁), none⟩,
      c'.removeMany (spentKeys [b])⟩) := run_ingestBlock_ok (offset b) parent created looked
  have sound' := h.sound.run (o.ingestBlock b.block b.height b.fileName (offset b)) c
  rw [show (o.ingestBlock b.block b.height b.fileName (offset b)).run World.handle
    ⟨⟨g, none⟩, c⟩ = _ from done] at sound'
  rw [done]
  obtain ⟨outputs', locks'⟩ := coins_finishBlock o found b (offset b) g₁
  have stored' := faithful₁.putOutputs denoted
  have agree : ∀ k ∈ spentKeys [b], found k = o.valueOf U k := fun k mem =>
    (if_pos mem).trans (stored'.resolve (complete k mem))
  obtain ⟨performs, benefits⟩ := blockParts_perm o found b
  obtain ⟨_, hu, next, same, links⟩ := Graph.exec_createBlocks_one.mp created
  have made : o.finishBlock found b (offset b) (o.putOutputs b g₁) =
      o.phases found [b] true true (o.blockParts found b)
        (some (.ofData (blockCheckpoint b (offset b))))
        (g.withBlocks ((blockRows [b]).foldl Table.upsert g.blocks) hu next) := by
    rw [finishBlock_eq, same]
    rfl
  refine ⟨rfl, ⟨rfl, stored'.congr outputs' locks', sound', ?_⟩, ?_, ?_, ?_, fun unseen => ?_⟩
  · refine (coherent'.congr outputs' locks').of_peek fun k v present => ?_
    rw [UtxoCache.peek_removeMany] at present
    split at present
    · cases present
    · exact Or.inl present
  · show Landed g [b] (o.finishBlock found b (offset b) (o.putOutputs b g₁))
    rw [made]
    exact landed_phases o found [b] true true performs benefits _
  · show (o.finishBlock found b (offset b) (o.putOutputs b g₁)).hasOutput = _
    rw [made, hasOutput_phases o found [b] true true performs benefits]
    rfl
  · rfl
  · show o.Merged (o.valueOf U) g [b] (o.finishBlock found b (offset b) (o.putOutputs b g₁))
    rw [made]
    exact (Merged.phases h.sound new unseen known hu (nextBlock_created h.sound new links) true true
      (absurd rfl) performs benefits _).congr agree

theorem Stepped.refl (h : o.Resting U w) : o.Stepped U offset w [] w where
  resting := h
  landed := .refl _
  hasOutput := rfl
  checkpoint := rfl
  merged _ := .refl ..

theorem tipCheckpoint_append (offset : LocatedBlock → Option ℕ)
    (chain chain' : List LocatedBlock) : tipCheckpoint offset (chain ++ chain') =
      (tipCheckpoint offset chain').or (tipCheckpoint offset chain) := by
  unfold tipCheckpoint
  rw [List.getLast?_append, Option.map_or]

theorem Stepped.append (h : o.Stepped U offset w chain w₁) (h' : o.Stepped U offset w₁ chain' w')
    (new : w.store.committed.NewBlocks (blockRows (chain ++ chain')))
    (below : ∀ a ∈ chain, ∀ b ∈ chain', a.height < b.height) :
    o.Stepped U offset w (chain ++ chain') w' where
  resting := h'.resting
  landed := h.landed.append h'.landed
  hasOutput := by rw [h'.hasOutput, h.hasOutput, ownedOutputs_append, List.foldl_append]
  checkpoint := by
    rw [h'.checkpoint, h.checkpoint, tipCheckpoint_append, Option.or_assoc]
  merged unseen := (h.merged unseen.left).append (h'.merged (unseen.after h.landed))
    (h.landed.newBlocks new) below

/-- and no other is. -/
theorem Resting.ingestBlock_isOk (h : o.Resting U w) (denoted : Denotes U (txsOf [b]))
    (offset : Option ℕ)
    (ok : ((o.ingestBlock b.block b.height b.fileName offset).run World.handle w).1.isOk) :
    Continues w.store.committed [b] := by
  obtain ⟨⟨g, active⟩, c⟩ := w
  obtain rfl : active = none := h.free
  have outcome := run_ingestBlock_outcome o b offset g c
  cases ran : (o.ingestBlock b.block b.height b.fileName offset).run World.handle
    ⟨⟨g, none⟩, c⟩ with
  | mk r w' =>
    rw [ran] at ok outcome
    cases outcome with
    | orphan err unlinked => cases ok
    | refused err fault parent refusal => cases ok
    | missing err g₁ c' parent created looked => cases ok
    | stored g₁ res c' parent created looked =>
      refine continues_singleton.mpr ⟨parent, fun k mem => ?_⟩
      obtain ⟨outputs, locks⟩ := coins_blockQuery created
      obtain ⟨r, c'', -, looked', -, missing⟩ := looked_block (h.faithful.congr outputs locks)
        (h.coherent.congr outputs locks) denoted
      by_contra absent
      obtain ⟨e, rfl⟩ := missing fun all => absent <| by
        have has := all k mem
        rw [putOutputs, Graph.foldl_putOutput_eq] at has
        have has' : (o.putOutputNodes [b] g₁.outputs).Has k := has
        rw [outputs, has_putOutputNodes, exists_outputRow] at has'
        exact has'.symm
      rw [looked] at looked'
      cases looked'

/-- **Block after block.** A list is ingested iff it continues what is stored. -/
theorem Resting.ingestAll (h : o.Resting U w) (denoted : Denotes U (txsOf chain))
    (new : w.store.committed.NewBlocks (blockRows chain)) (adjacent : chain.IsChain Adjacent)
    (offset : LocatedBlock → Option ℕ) :
    let ran := (o.ingestAll offset chain).run World.handle w
    (ran.1.isOk ↔ Continues w.store.committed chain) ∧
      (ran.1.isOk → o.Stepped U offset w chain ran.2) := by
  induction chain generalizing w with
  | nil => exact ⟨iff_of_true rfl (continues_nil _), fun _ => .refl h⟩
  | cons b chain ih =>
    obtain ⟨denotedFirst, denotedRest⟩ : Denotes U (txsOf [b]) ∧ Denotes U (txsOf chain) :=
      denotes_append.mp denoted
    have newFirst : w.store.committed.NewBlocks (blockRows [b]) :=
      new.left (s := blockRows chain)
    by_cases good : Continues w.store.committed [b]
    · obtain ⟨ok, stepped⟩ := h.ingestBlock denotedFirst newFirst good offset
      generalize first : (o.ingestBlock b.block b.height b.fileName (offset b)).run World.handle
        w = r at ok stepped
      obtain ⟨outcome, w₁⟩ := r
      dsimp only at ok stepped
      subst ok
      have rest : (o.ingestAll offset (b :: chain)).run World.handle w =
          (o.ingestAll offset chain).run World.handle w₁ := Prog.run_bind_ok first
      obtain ⟨continues, walks⟩ := ih stepped.resting denotedRest (stepped.landed.newBlocks new)
        adjacent.tail
      rw [rest, continues_cons stepped.landed newFirst adjacent, and_iff_right good]
      refine ⟨continues, fun ok => stepped.append (walks ok) new fun a ha d hd => ?_⟩
      cases List.mem_singleton.mp ha
      exact (List.pairwise_cons.mp (rising_of_adjacent adjacent)).1 d hd
    · have bad : ¬ ((o.ingestAll offset (b :: chain)).run World.handle w).1.isOk := fun ok => by
        have split : (o.ingestAll offset (b :: chain)).run World.handle w = _ :=
          Prog.run_bind ..
        rw [split] at ok
        refine good (h.ingestBlock_isOk denotedFirst (offset b) ?_)
        cases first : (o.ingestBlock b.block b.height b.fileName (offset b)).run World.handle
            w with
        | mk outcome w₁ =>
          rw [first] at ok
          cases outcome with
          | error e => cases ok
          | ok _ => rfl
      refine ⟨iff_of_false bad fun continues => good ?_, fun ok => absurd ok bad⟩
      exact ⟨continues.parent, List.isChain_singleton _,
        (funded_cons.mp continues.funded).1⟩

end IngestionOrchestrator

end ChainGraph

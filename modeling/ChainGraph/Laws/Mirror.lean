import ChainGraph.Laws.Atomic
import ChainGraph.Laws.Detour
import ChainGraph.Laws.Resumed
import ChainGraph.Laws.RolledBack
import ChainGraph.Laws.Truthful

/-!
# Graphs that mirror a chain

`Mirrors o chain g` says that a graph is the one its chain leaves when each block is ingested once,
in order, from nothing, up to what a rollback does not restore. Whatever the program does to the
database keeps it the mirror of some chain: blocks that fit continue the chain, a rollback cuts it,
a start leaves it alone, and batches whose calls may fail, or which may end anywhere, continue it by
a part of their blocks.
-/

namespace ChainGraph

open Foundation Foundation.Store

/-! ## Chains -/

section Chains

open IngestionOrchestrator

/-- A chain the database can hold: it starts at height 0, its hashes differ, its txids denote their
transactions, and its blocks have transactions and inputs. -/
structure Valid (U : Denotation) (chain : List LocatedBlock) : Prop extends FromGenesis chain where
  hashes : (chain.map (·.block.blockHash)).Nodup
  denoted : Denotes U (txsOf chain)
  filled : Filled chain
  word : chain.length < 2 ^ 31

variable {U : Denotation} {chain rest : List LocatedBlock}

theorem FromGenesis.left (h : FromGenesis (chain ++ rest)) : FromGenesis chain where
  genesis b head := by
    obtain ⟨later, rfl⟩ := List.head?_eq_some_iff.mp head
    exact h.genesis b rfl
  adjacent := (List.isChain_append.mp h.adjacent).1
  linked := (List.isChain_append.mp h.linked).1
  txids := by
    have txids := h.txids
    rw [txsOf_append, List.map_append] at txids
    exact (List.nodup_append.mp txids).1
  spends := by
    have spends := h.spends
    rw [txsOf_append] at spends
    exact spends.left

theorem Valid.left (h : Valid U (chain ++ rest)) : Valid U chain where
  toFromGenesis := h.toFromGenesis.left
  hashes := (List.nodup_append.mp (List.map_append ▸ h.hashes)).1
  denoted := (IngestionOrchestrator.denotes_append.mp h.denoted).1
  filled b mem := h.filled b (List.mem_append_left _ mem)
  word := by
    have word := h.word
    rw [List.length_append] at word
    omega

end Chains

namespace IngestionOrchestrator

variable {o : IngestionOrchestrator} {U : Denotation} {g g' : Graph}
  {w w' : World neo4j UtxoCache} {chain rest : List LocatedBlock}

/-! ## The graph of a chain -/

/-- The graph that a chain leaves, each block ingested once, in order, from nothing. -/
def graphOf (o : IngestionOrchestrator) (chain : List LocatedBlock) : Graph :=
  ((o.ingestEach chain).run World.handle ⟨⟨.empty, none⟩, .new 1⟩).2.store.committed

theorem ingestEach_append (chain chain' : List LocatedBlock) : o.ingestEach (chain ++ chain') =
    o.ingestEach chain >>= fun _ => o.ingestEach chain' :=
  ingestAll_append (fun _ => none) chain chain'

/-- A valid chain fits on nothing. -/
theorem fits_empty (valid : Valid U chain) : o.Fits U ⟨⟨.empty, none⟩, .new 1⟩ chain where
  ready := { ready_of_fromGenesis valid.toFromGenesis with
    faithful := faithful_empty
    denoted := valid.denoted }
  truthful := truthful_of_empty (UtxoCache.peek_new 1)
  parent b _ := Or.inr fun hash found => by
    obtain ⟨n, mem, _⟩ := Graph.lookupBlockHash_eq_some.mp found
    exact absurd mem (Table.not_mem_empty n)
  adjacent := valid.adjacent
  links := valid.linked
  new := newBlocks_empty valid.toFromGenesis valid.hashes

/-- The graph of the first blocks, and that the others fit on it. -/
theorem graphOf_fits (valid : Valid U (chain ++ rest)) : ∃ w,
    (o.ingestEach chain).run World.handle ⟨⟨.empty, none⟩, .new 1⟩ = (.ok (), w) ∧
      w.store.committed = o.graphOf chain ∧ o.Fits U w rest ∧
      o.Advanced U ⟨⟨.empty, none⟩, .new 1⟩ chain w := by
  obtain ⟨w, ran, fits, advanced⟩ := (fits_empty (o := o) valid).ingestEach
  exact ⟨w, ran, by rw [graphOf, ran], fits, advanced⟩

/-- The graph of a chain grows to that of a longer one. -/
theorem grown_graphOf (valid : Valid U (chain ++ rest)) :
    o.Grown (o.valueOf U) (o.graphOf chain) rest (o.graphOf (chain ++ rest)) := by
  obtain ⟨w, ran, same, fits, -⟩ := graphOf_fits (o := o) valid
  rw [← List.append_nil rest] at fits
  obtain ⟨w', ran', -, advanced⟩ := fits.ingestEach
  have whole : o.graphOf (chain ++ rest) = w'.store.committed := by
    rw [graphOf, ingestEach_append, Prog.run_bind_ok ran, ran']
  rw [whole, ← same]
  exact advanced.grown

theorem storedChain_graphOf (valid : Valid U chain) {tip : ℕ} (length : chain.length = tip + 1) :
    (o.graphOf chain).StoredChain tip := by
  have word := valid.word
  rw [← List.append_nil chain] at valid
  obtain ⟨w, -, same, fits, advanced⟩ := graphOf_fits (o := o) valid
  rw [← same]
  rw [List.append_nil] at valid
  exact storedChain_of_grown valid.toFromGenesis valid.filled advanced.new advanced.grown
    fits.ready.sound length (by omega) (advanced.checkpoint.trans (Option.or_none ..))

/-! ## Graphs that mirror a chain -/

/-- The graph of the chain, up to addresses without relationships and where the checkpoint's block
was read. Before the first block the checkpoint is read as none. -/
structure Mirrors (o : IngestionOrchestrator) (chain : List LocatedBlock) (g : Graph) : Prop where
  sound : Sound g
  bare : g.bare = (o.graphOf chain).bare
  fresh : chain = [] → g.readHeight = -1
  height : ∀ tip, chain.length = tip + 1 → g.storedHeight = tip

theorem mirrors_empty : o.Mirrors [] .empty where
  sound := sound_empty
  bare := rfl
  fresh _ := rfl
  height _ length := by cases length

theorem Mirrors.checkpointed {checkpoint : Option Checkpoint} (h : o.Mirrors chain g)
    (fresh : chain = [] → Graph.readHeight { g with checkpoint := checkpoint } = -1)
    (height : ∀ tip, chain.length = tip + 1 →
      Graph.storedHeight { g with checkpoint := checkpoint } = tip) :
    o.Mirrors chain { g with checkpoint := checkpoint } where
  sound := { h.sound with }
  bare := h.bare
  fresh := fresh
  height := height

/-- A process at work: no transaction is open, and the cache is right. -/
structure AtWork (o : IngestionOrchestrator) (U : Denotation) (cap : Fin numShards → ℕ)
    (w : World neo4j UtxoCache) : Prop where
  free : w.store.active = none
  truthful : o.Truthful U w.memory
  cap : w.memory.cap = cap

theorem newBlocks_congr {rows : List BlockData} (new : g.NewBlocks rows)
    (same : g'.blocks = g.blocks) : g'.NewBlocks rows :=
  ⟨new.hashes, same ▸ new.free, new.heights, same ▸ new.unused⟩

theorem firstParentOk_congr (parent : FirstParentOk g chain) (same : g'.blocks = g.blocks) :
    FirstParentOk g' chain := by
  intro b head
  have before := parent b head
  unfold ParentOk Graph.lookupBlockHash Graph.blockAt at before ⊢
  rw [same]
  exact before

/-- What continues the chain fits on a graph that mirrors it. -/
theorem Mirrors.fits {cap : Fin numShards → ℕ} (h : o.Mirrors chain w.store.committed)
    (work : o.AtWork U cap w) (valid : Valid U (chain ++ rest)) : o.Fits U w rest := by
  obtain ⟨w₀, -, same, fits, -⟩ := graphOf_fits (o := o) valid
  have bare : w.store.committed.bare = w₀.store.committed.bare := by rw [same, h.bare]
  have blocks := (Graph.bare_eq_iff.mp bare).1
  exact {
    ready := fits.ready.bare_congr bare work.free h.sound
    truthful := work.truthful
    parent := firstParentOk_congr fits.parent blocks
    adjacent := fits.adjacent
    links := fits.links
    new := newBlocks_congr fits.new blocks }

/-- The height of the last block of a chain that is continued. -/
theorem height_of_getLast? (valid : Valid U (chain ++ rest)) {last : LocatedBlock}
    (found : rest.getLast? = some last) : chain.length + rest.length = last.height + 1 := by
  have whole : (chain ++ rest).getLast? = some last := by
    rw [List.getLast?_append, found]
    rfl
  have tip := tipHeight_of_fromGenesis valid.toFromGenesis
  rw [tipHeight, whole] at tip
  have some : rest ≠ [] := by
    rintro rfl
    cases found
  have positive := List.length_pos_iff.mpr some
  rw [List.length_append] at tip
  simp only [Option.map_some, Option.getD_some] at tip
  omega

/-- **Continuing the chain.** -/
theorem Mirrors.advance (h : o.Mirrors chain g) (valid : Valid U (chain ++ rest))
    (grown : o.Grown (o.valueOf U) g rest g') (sound : Sound g')
    (checkpoint : g'.checkpoint = (lastCheckpoint rest).or g.checkpoint) :
    o.Mirrors (chain ++ rest) g' := by
  have bare := grown.bare_congr (grown_graphOf valid) h.bare
  cases found : rest.getLast? with
  | none =>
    obtain rfl := List.getLast?_eq_none_iff.mp found
    have same : g'.checkpoint = g.checkpoint := checkpoint
    rw [List.append_nil] at bare ⊢
    refine ⟨sound, bare, fun empty => ?_, fun tip length => ?_⟩
    · rw [Graph.readHeight_congr same]
      exact h.fresh empty
    · rw [Graph.storedHeight_congr same]
      exact h.height tip length
  | some last =>
    have length := height_of_getLast? valid found
    have word := valid.word
    rw [List.length_append] at word
    refine ⟨sound, bare, fun empty => ?_, fun tip same => ?_⟩
    · rw [List.append_eq_nil_iff.mp empty |>.2] at found
      cases found
    · rw [List.length_append] at same
      have new : g'.checkpoint = some (.ofData (chunkCheckpoint last)) := by
        rw [checkpoint, lastCheckpoint, found]
        rfl
      rw [Graph.storedHeight_of_data (chunkCheckpoint last) new]
      show asI32 last.height = tip
      rw [asI32_of_lt (by omega)]
      omega

/-! ## Cutting the chain -/

/-- A rollback sees the bare graph only. -/
theorem bare_rollbackTo_congr (same : g.bare = g'.bare) (currentTip forkPoint : ℕ) :
    (g.rollbackTo currentTip forkPoint).bare = (g'.rollbackTo currentTip forkPoint).bare := by
  have each : ∀ (heights : List ℕ) (g g' : Graph), g.bare = g'.bare →
      (heights.foldl Graph.rollbackBlock g).bare = (heights.foldl Graph.rollbackBlock g').bare := by
    intro heights
    induction heights with
    | nil => exact fun _ _ => id
    | cons height heights ih =>
      intro g g' same
      exact ih _ _ (by rw [Graph.bare_rollbackBlock, Graph.bare_rollbackBlock, same])
  unfold Graph.rollbackTo
  split
  · exact same
  · rw [Graph.bare_checkpointAt, Graph.bare_checkpointAt]
    exact each _ _ _ same

theorem valid_upTo (valid : Valid U chain) (fork : ℕ) : Valid U (upTo fork chain) := by
  rw [← upTo_append_above fork (rising_of_adjacent valid.adjacent)] at valid
  exact valid.left

/-- What a rollback from the tip leaves of the graph of a chain. -/
theorem bare_rollbackTo_graphOf (valid : Valid U chain) (fork : ℕ) :
    ((o.graphOf chain).rollbackTo (tipHeight chain) fork).bare =
      (o.graphOf (upTo fork chain)).bare := by
  obtain ⟨w₁, w₂, ran₁, ran₂, -, stem, -, -, branch⟩ := ingestAll_fromGenesis (o := o)
    valid.toFromGenesis valid.hashes (UtxoCache.peek_new 1) fork fun _ => none
  have first : o.graphOf (upTo fork chain) = w₁.store.committed :=
    congrArg (fun r => r.2.store.committed) ran₁
  have split := upTo_append_above fork (rising_of_adjacent valid.adjacent)
  have whole : o.graphOf chain = w₂.store.committed := by
    have ran : (o.ingestAll (fun _ => none) chain).run World.handle
        ⟨⟨.empty, none⟩, .new 1⟩ = (.ok (), w₂) := by
      rw [← split, ingestAll_append, Prog.run_bind_ok ran₁, ran₂]
    exact congrArg (fun r => r.2.store.committed) ran
  rw [first, whole]
  exact (rolled_back valid.toFromGenesis valid.hashes stem branch).1

/-- No block is stored above the tip. -/
theorem Mirrors.below (h : o.Mirrors chain g) (valid : Valid U chain) :
    ∀ n ∈ g.blocks, n.height ≤ tipHeight chain := by
  intro n mem
  rw [(Graph.bare_eq_iff.mp h.bare).1] at mem
  rw [tipHeight_of_fromGenesis valid.toFromGenesis]
  cases length : chain.length with
  | zero =>
    rw [List.length_eq_zero_iff.mp length] at mem
    exact absurd mem (Table.not_mem_empty n)
  | succ tip => exact (storedChain_graphOf valid length).above n mem

theorem Mirrors.checkpointAt (h : o.Mirrors chain g) (valid : Valid U chain) {fork : ℕ}
    (tip : tipHeight chain ≤ fork) : o.Mirrors chain (g.checkpointAt fork) := by
  unfold Graph.checkpointAt
  cases stored : g.lookupBlockHash fork with
  | none => exact h
  | some hash =>
    obtain ⟨n, mem, height, -⟩ := Graph.lookupBlockHash_eq_some.mp stored
    have low := h.below valid n mem
    have last := tipHeight_of_fromGenesis valid.toFromGenesis
    have word := valid.word
    refine h.checkpointed (fun empty => ?_) fun top length => ?_
    · rw [empty] at h
      rw [(Graph.bare_eq_iff.mp h.bare).1] at mem
      exact absurd mem (Table.not_mem_empty n)
    · rw [Graph.storedHeight_of_data (Graph.forkCheckpoint fork hash) rfl]
      show asI32 fork = top
      rw [asI32_of_lt (by omega)]
      omega

/-- **Cutting the chain** at a fork, from its tip or from above. -/
theorem Mirrors.rollback (h : o.Mirrors chain g) (valid : Valid U chain) (fork : ℕ)
    {currentTip : ℕ} (from_tip : tipHeight chain ≤ currentTip) :
    o.Mirrors (upTo fork chain) (g.rollbackTo currentTip fork) := by
  have sound := h.sound.runIo (o.rollbackToHeight (tipHeight chain) fork)
  rw [run_rollbackToHeight] at sound
  have bare := (bare_rollbackTo_congr h.bare (tipHeight chain) fork).trans
    (bare_rollbackTo_graphOf valid fork)
  have tip := tipHeight_of_fromGenesis valid.toFromGenesis
  rw [Graph.rollbackTo_of_le (h.below valid) from_tip]
  by_cases below : fork < tipHeight chain
  · have inside : fork < chain.length := by omega
    have length : (upTo fork chain).length = fork + 1 := by
      have heights := congrArg List.length (heights_upTo valid.toFromGenesis inside)
      rwa [List.length_map, List.length_range'] at heights
    have deep : chain.length = chain.length - 1 + 1 := by omega
    have stored := (storedChain_graphOf (o := o) valid deep).stored fork (by omega)
    have same : g.lookupBlockHash fork = (o.graphOf chain).lookupBlockHash fork := by
      unfold Graph.lookupBlockHash Graph.blockAt
      rw [(Graph.bare_eq_iff.mp h.bare).1]
    obtain ⟨n, here⟩ := Option.isSome_iff_exists.mp stored
    have known : g.lookupBlockHash fork = some n.hash := by
      rw [same, Graph.lookupBlockHash, here]
      rfl
    rw [if_pos below]
    refine ⟨sound, bare, fun empty => ?_, fun tip same => ?_⟩
    · rw [empty] at length
      cases length
    · rw [Graph.storedHeight_of_data (Graph.forkCheckpoint fork n.hash)
        (Graph.checkpoint_rollbackTo below known)]
      have word := valid.word
      show asI32 fork = tip
      rw [asI32_of_lt (by omega)]
      omega
  · have beyond := Nat.not_lt.mp below
    have nothing : above fork chain = [] := above_tip valid.toFromGenesis beyond
    have all := upTo_append_above fork (rising_of_adjacent valid.adjacent)
    rw [nothing, List.append_nil] at all
    rw [all, if_neg below]
    split
    · exact h.checkpointAt valid beyond
    · exact h

/-! ## Starting -/

/-- What every process does to the database before it ingests: it makes sure that there is a
checkpoint and recovers it. The answer is the next height. -/
def startUp (o : IngestionOrchestrator) : Io ℕ := do
  o.initSchema
  o.syncCheckpointWithDb

/-- The blocks of a chain are stored through its tip. -/
theorem Mirrors.through (h : o.Mirrors chain g) (valid : Valid U chain) {tip : ℕ}
    (length : chain.length = tip + 1) {cache : UtxoCache} :
    Process.StoredThrough ⟨⟨⟨g, none⟩, cache⟩, none, 0, false⟩ tip := by
  have chained := storedChain_graphOf (o := o) valid length
  obtain ⟨blocks, -, -, -, -, included, -⟩ := Graph.bare_eq_iff.mp h.bare
  refine ⟨rfl, h.height tip length, chained.word, fun height low => ?_, fun b mem => ?_,
    fun _ => ?_⟩
  · show (g.lookupBlockHash height).isSome
    have stored := chained.stored height low
    unfold Graph.lookupBlockHash Graph.blockAt at *
    rw [blocks, Option.isSome_map]
    exact stored
  · exact chained.above b (show b ∈ (o.graphOf chain).blocks from blocks ▸ mem)
  · have whole := Graph.Peeled.completeAt chained
      (Graph.peeled_start (h := tip + 1) fun n mem => Nat.lt_succ_of_le (chained.above n mem))
      (Nat.lt_succ_self tip) (Nat.le_refl tip)
    refine (Graph.completeAt_congr blocks included).mpr (whole.mpr fun t _ beyond => ?_)
    obtain ⟨n, mem, high, -⟩ := beyond
    have low := chained.above n mem
    omega

/-- **A process starts** at the height after the chain, and leaves all but the checkpoint alone. -/
theorem Mirrors.startUp (h : o.Mirrors chain g) (valid : Valid U chain) :
    ∃ g', o.startUp.run handle ⟨g, none⟩ = (.ok chain.length, ⟨g', none⟩) ∧
      o.Mirrors chain g' := by
  obtain ⟨g₁, initialized, same⟩ := run_initSchema (o := o) g
  have h₁ : o.Mirrors chain g₁ := by
    rcases same with rfl | ⟨none, rfl⟩
    · exact h
    · refine h.checkpointed (fun _ => rfl) fun tip length => ?_
      have stored := h.height tip length
      rw [Graph.storedHeight, none] at stored
      exact absurd stored (by simp)
  have started : o.startUp.run handle ⟨g, none⟩ =
      o.syncCheckpointWithDb.run handle ⟨g₁, none⟩ := Prog.run_bind_ok initialized
  rw [started]
  cases length : chain.length with
  | zero =>
    have empty := List.length_eq_zero_iff.mp length
    have read := h₁.fresh empty
    refine ⟨g₁, ?_, h₁⟩
    rw [run_sync_beside (by rw [read]) fun top found => ?_, read]
    · rfl
    · have blocks := (Graph.bare_eq_iff.mp h₁.bare).1
      rw [empty] at blocks
      have none : g₁.getMaxBlockHeight = none := by
        unfold Graph.getMaxBlockHeight
        rw [blocks]
        rfl
      rw [none] at found
      cases found
  | succ tip =>
    have through : Process.StoredThrough ⟨⟨⟨g₁, none⟩, .new 1⟩, none, 0, false⟩ tip :=
      h₁.through valid length
    obtain ⟨checkpoint, synced, stored⟩ := Process.run_sync_through (o := o) through
    refine ⟨_, synced, h₁.checkpointed (fun empty => ?_) fun tip' length' => ?_⟩
    · rw [empty] at length
      cases length
    · have same : tip' = tip := by omega
      exact same ▸ stored

/-! ## Starting, when calls may be lost -/

section Lost

open Neo4jWriter

theorem Mirrors.holds_initSchema (h : o.Mirrors chain g) :
    o.initSchema.Holds (Session.lossy neo4j)
      (fun _ s => ∃ g', s = ⟨g', none⟩ ∧ o.Mirrors chain g') ⟨g, none⟩ := by
  unfold initSchema getCheckpoint
  rw [Prog.bind_assoc]
  refine holds_readGraph ?_ fun e => ⟨g, rfl, h⟩
  cases read : g.getCheckpoint with
  | some c => exact ⟨g, rfl, h⟩
  | none =>
    have unset : g.checkpoint = none := by
      unfold Graph.getCheckpoint at read
      exact Option.map_eq_none_iff.mp read
    have made : ∀ checkpoint, (chain = [] → Graph.readHeight { g with checkpoint } = -1) →
        o.Mirrors chain { g with checkpoint } := fun checkpoint fresh =>
      h.checkpointed fresh fun tip length => by
        have stored := h.height tip length
        rw [Graph.storedHeight, unset] at stored
        exact absurd stored (by simp)
    have created : Delivers createCheckpoint ([.deleteCheckpoint] ++ [.createCheckpoint]) :=
      delivers_runDirect.seq delivers_runDirect
    -- before the first statement, between the two, and after the second
    have between : ∀ sent, sent <+: [Query.deleteCheckpoint, .createCheckpoint] →
        ∀ g', execAll neo4j sent g = .ok g' → o.Mirrors chain g' := by
      intro sent part g' ran
      rcases List.prefix_cons_iff.mp part with rfl | ⟨rest, rfl, later⟩
      · cases ran
        exact h
      · rcases List.prefix_cons_iff.mp later with rfl | ⟨rest, rfl, last⟩
        · cases ran
          exact made none fun _ => rfl
        · obtain rfl := List.prefix_nil.mp last
          cases ran
          exact made (some .initial) fun _ => rfl
    refine (created g).mono fun r s done => ?_
    cases r with
    | ok _ =>
      obtain ⟨g', ran, rfl⟩ := done
      exact ⟨g', rfl, between _ List.prefix_rfl g' ran⟩
    | error e =>
      obtain ⟨sent, part, g', ran, rfl⟩ := done
      exact ⟨g', rfl, between sent part g' ran⟩

/-- What is read of the graph, or an error. -/
theorem holds_read {α : Type} {failed : DbFault → WriterError} (f : Graph → α) :
    (readGraph failed >>= fun g => (pure (f g) : Io α)).Holds (Session.lossy neo4j)
      (fun r s => s = ⟨g, none⟩ ∧ ∀ a, r = .ok a → a = f g) ⟨g, none⟩ :=
  holds_readGraph ⟨rfl, fun _ same => (Except.ok.inj same).symm⟩
    fun _ => ⟨rfl, fun _ impossible => by cases impossible⟩

/-- A height to resume at is the one after the checkpoint. -/
theorem holds_getResumeHeight (low : -1 ≤ g.readHeight) :
    o.getResumeHeight.Holds (Session.lossy neo4j) (fun r s => s = ⟨g, none⟩ ∧
      ∀ height, r = .ok height → height = (g.readHeight + 1).toNat) ⟨g, none⟩ := by
  have ran := run_getResumeHeight_eq (o := o) low
  unfold getResumeHeight at ran ⊢
  rw [Prog.run_bind, run_getCheckpoint] at ran
  refine (holds_read Graph.getCheckpoint).bind (fun checkpoint s done => ?_) fun e s done => ?_
  · obtain ⟨rfl, same⟩ := done
    obtain rfl := same checkpoint rfl
    generalize (g.readHeight + 1).toNat = resume at ran ⊢
    dsimp only at ran ⊢
    generalize g.getCheckpoint = checkpoint at ran ⊢
    cases checkpoint with
    | none =>
      cases ran
      exact ⟨rfl, fun height same => (Except.ok.inj same).symm⟩
    | some c =>
      dsimp only at ran ⊢
      by_cases negative : c.lastProcessedHeight < 0
      · rw [if_pos negative] at ran ⊢
        cases ran
        exact ⟨rfl, fun height same => (Except.ok.inj same).symm⟩
      · rw [if_neg negative] at ran ⊢
        cases ran
        exact ⟨rfl, fun height same => (Except.ok.inj same).symm⟩
  · exact ⟨done.1, fun _ impossible => by cases impossible⟩

/-- The checkpoint of the tip is stored. -/
theorem Mirrors.holds_saveRecovered (h : o.Mirrors chain g) {tip : ℕ}
    (length : chain.length = tip + 1) (word : tip < 2 ^ 31) (checkpoint : Option CheckpointData) :
    (o.saveRecovered checkpoint (asI32 tip)).Holds (Session.lossy neo4j)
      (fun _ s => ∃ g', s = ⟨g', none⟩ ∧ o.Mirrors chain g') ⟨g, none⟩ := by
  unfold saveRecovered lookupBlockHash
  rw [Prog.bind_assoc]
  refine holds_readGraph ?_ fun e => ⟨g, rfl, h⟩
  refine (delivers_updateCheckpoint g).mono fun r s done => ?_
  have stored : ∀ data : CheckpointData, data.lastProcessedHeight = tip →
      o.Mirrors chain { g with checkpoint := some (.ofData data) } := fun data same =>
    h.checkpointed (fun empty => by rw [empty] at length; cases length) fun tip' length' => by
      rw [Graph.storedHeight_of_data data rfl, same]
      omega
  cases r with
  | ok _ =>
    obtain ⟨g', ran, rfl⟩ := done
    cases ran
    exact ⟨_, rfl, stored _ (asI32_of_lt word)⟩
  | error e =>
    obtain ⟨sent, part, g', ran, rfl⟩ := done
    rcases List.prefix_cons_iff.mp part with rfl | ⟨rest, rfl, last⟩
    · cases ran
      exact ⟨g, rfl, h⟩
    · obtain rfl := List.prefix_nil.mp last
      cases ran
      exact ⟨_, rfl, stored _ (asI32_of_lt word)⟩

/-- The walk stops at a block that is complete. -/
theorem holds_findComplete {c : ℤ} {height : ℕ} (complete : g.CompleteAt height)
    (rest : List ℕ) : (findComplete c (height :: rest)).Holds (Session.lossy neo4j)
      (fun r s => s = ⟨g, none⟩ ∧ ∀ top, r = .ok top → top = asI32 height) ⟨g, none⟩ := by
  obtain ⟨count, positive, counted⟩ := complete
  unfold findComplete checkBlockComplete
  rw [Prog.bind_assoc]
  refine holds_readGraph ?_ fun e => ⟨rfl, fun _ impossible => by cases impossible⟩
  dsimp only
  rw [counted]
  show Prog.Holds _ _ (if count = count ∧ count > 0 then (pure (asI32 height) : Io ℤ) else _) _
  rw [if_pos ⟨rfl, positive⟩]
  exact ⟨rfl, fun top same => by cases same; rfl⟩

/-- What a start answers and leaves. -/
def Started (o : IngestionOrchestrator) (chain : List LocatedBlock) (r : Except WriterError ℕ)
    (s : Store neo4j) : Prop :=
  ∃ g, s = ⟨g, none⟩ ∧ o.Mirrors chain g ∧ ∀ height, r = .ok height → height = chain.length

theorem Mirrors.started_error (h : o.Mirrors chain g) (e : WriterError) :
    o.Started chain (.error e) ⟨g, none⟩ :=
  ⟨g, rfl, h, fun _ impossible => by cases impossible⟩

/-- The tip is complete, and becomes the checkpoint again. -/
theorem Mirrors.holds_recover (h : o.Mirrors chain g) {tip first : ℕ} {c : ℤ}
    (length : chain.length = tip + 1) (word : tip < 2 ^ 31) (complete : g.CompleteAt tip)
    (below : c < tip) (bounded : first ≤ tip) (checkpoint : Option CheckpointData) :
    (findComplete c (heightsDown first tip) >>= fun highestComplete =>
      (if highestComplete > c then o.saveRecovered checkpoint highestComplete else pure ()) >>=
        fun _ => (pure ((highestComplete + 1) % 2 ^ 32).toNat : Io ℕ)).Holds
      (Session.lossy neo4j) (o.Started chain) ⟨g, none⟩ := by
  have height : asI32 tip = tip := asI32_of_lt word
  have walk : heightsDown first tip = tip :: (List.range' first (tip - first)).reverse := by
    have more : tip + 1 - first = tip - first + 1 := by omega
    have last : first + (tip - first) = tip := by omega
    rw [heightsDown, more, List.range'_1_concat, List.reverse_concat, last]
  rw [walk]
  refine (holds_findComplete complete _).bind (fun top s done => ?_) fun e s done => ?_
  · obtain ⟨rfl, same⟩ := done
    obtain rfl := same top rfl
    rw [if_pos (by omega)]
    refine (h.holds_saveRecovered length word _).bind (fun _ s done => ?_) fun e s done => ?_
    · obtain ⟨g', rfl, mirrors⟩ := done
      refine ⟨g', rfl, mirrors, fun next ok => ?_⟩
      cases ok
      omega
    · obtain ⟨g', rfl, mirrors⟩ := done
      exact mirrors.started_error e
  · obtain ⟨rfl, -⟩ := done
    exact h.started_error e

theorem Mirrors.holds_sync (h : o.Mirrors chain g) (valid : Valid U chain) :
    o.syncCheckpointWithDb.Holds (Session.lossy neo4j) (o.Started chain) ⟨g, none⟩ := by
  have resumed (last : g.readHeight + 1 = chain.length) :
      o.getResumeHeight.Holds (Session.lossy neo4j) (o.Started chain) ⟨g, none⟩ := by
    refine (holds_getResumeHeight (by omega)).mono fun r s done => ?_
    obtain ⟨rfl, same⟩ := done
    refine ⟨g, rfl, h, fun height ok => ?_⟩
    have next := same height ok
    omega
  have read : (g.getCheckpoint.map (·.lastProcessedHeight)).getD (-1) = g.readHeight := rfl
  unfold syncCheckpointWithDb
  refine (holds_read Graph.getCheckpoint).bind (fun checkpoint s done => ?_) fun e s done => ?_
  swap
  · obtain ⟨rfl, -⟩ := done
    exact h.started_error e
  obtain ⟨rfl, same⟩ := done
  obtain rfl := same checkpoint rfl
  refine (holds_read Graph.getMaxBlockHeight).bind (fun top s done => ?_) fun e s done => ?_
  swap
  · obtain ⟨rfl, -⟩ := done
    exact h.started_error e
  obtain ⟨rfl, same⟩ := done
  obtain rfl := same top rfl
  simp only [read]
  cases length : chain.length with
  | zero =>
    have empty := List.length_eq_zero_iff.mp length
    have none : g.getMaxBlockHeight = none := by
      have blocks := (Graph.bare_eq_iff.mp h.bare).1
      rw [empty] at blocks
      unfold Graph.getMaxBlockHeight
      rw [blocks]
      rfl
    rw [none]
    refine resumed ?_
    rw [h.fresh empty, length]
    rfl
  | succ tip =>
    have through : Process.StoredThrough ⟨⟨⟨g, none⟩, .new 1⟩, none, 0, false⟩ tip :=
      h.through valid length
    have max : g.getMaxBlockHeight = some tip := Process.getMaxBlockHeight_through through
    have word := through.word
    have height : asI32 tip = tip := asI32_of_lt word
    have stored : g.storedHeight = tip := h.height tip length
    rw [max]
    dsimp only
    by_cases special : tip = 255
    · have low : g.readHeight = -1 := Graph.readHeight_255 (by omega)
      rw [if_pos (by omega), first_eq (by omega)]
      exact h.holds_recover length word (through.complete special) (by omega) (by omega) _
    · have same : g.readHeight = g.storedHeight :=
        Graph.readHeight_eq (by omega) (by omega) (by omega)
      rw [if_neg (by omega)]
      exact resumed (by omega)

/-- **A process starts, or dies on the way.** Wherever its calls or their answers are lost, the
graph mirrors the chain, and if there is a height to resume at, it is the one after the chain. -/
theorem Mirrors.startUp_after (h : o.Mirrors chain g) (valid : Valid U chain)
    (fates : List (Fate DbFault)) :
    let left := o.startUp.after handleFated fates.length ⟨⟨g, none⟩, fates⟩
    o.Mirrors chain left.2.state.committed ∧
      ∀ height, left.1 = .ret height → height = chain.length := by
  have holds : o.startUp.Holds (Session.lossy neo4j) (o.Started chain) ⟨g, none⟩ := by
    unfold IngestionOrchestrator.startUp
    refine h.holds_initSchema.bind (fun _ s done => ?_) fun e s done => ?_
    · obtain ⟨g', rfl, mirrors⟩ := done
      exact mirrors.holds_sync valid
    · obtain ⟨g', rfl, mirrors⟩ := done
      exact mirrors.started_error e
  intro left
  obtain ⟨r, t, ends, committed, done⟩ :=
    exists_ends_after DbFault.elapsed fates.length o.startUp ⟨⟨g, none⟩, fates⟩
  obtain ⟨g', rfl, mirrors, next⟩ := holds.ends ends
  exact ⟨committed ▸ mirrors, fun height same => next height (done height same)⟩

end Lost

/-! ## Batches that may fail -/

theorem flatten_chunksOf (batches : List (List LocatedBlock)) :
    (o.chunksOf batches).flatten = batches.flatten := by
  induction batches with
  | nil => rfl
  | cons blocks batches ih =>
    have first : o.chunksOf (blocks :: batches) =
        o.adaptiveChunks blocks ++ o.chunksOf batches := rfl
    rw [first, List.flatten_append, o.flatten_adaptiveChunks, ih, List.flatten_cons]

theorem retains_chunksOf {batches : List (List LocatedBlock)} (h : o.Fits U w batches.flatten)
    (room : ∀ blocks ∈ batches, o.Roomy w.memory.cap blocks) :
    ∀ chunk ∈ o.chunksOf batches, o.Retains w.memory.cap chunk := by
  intro chunk mem
  obtain ⟨blocks, inBatches, inBlocks⟩ := List.mem_flatMap.mp mem
  have rows := h.ready.rows
  rw [← flatten_chunksOf (o := o), ← List.append_nil (o.chunksOf batches).flatten] at rows
  exact retains_of_room (rows.nodup_outputIds mem) (room blocks inBatches chunk inBlocks)

/-- **Batches that may fail** at any call, or end at any moment: some of the blocks are appended,
all of them if the batches succeed. Where a chunk is rolled back, its tasks have ended. -/
theorem Mirrors.attempt {cap : Fin numShards → ℕ} {cache : UtxoCache}
    {batches : List (List LocatedBlock)} (h : o.Mirrors chain g)
    (truthful : o.Truthful U cache) (capacity : cache.cap = cap)
    (valid : Valid U (chain ++ batches.flatten))
    (room : ∀ blocks ∈ batches, o.Roomy cap blocks)
    (inside : ∀ chunk ∈ o.chunksOf batches, ¬ o.WritesBeside chunk) {turns : List (Turn neo4j)}
    (careful : (Crew.start (o.ingestBatches batches) g cache).CarefulRun turns) :
    let ended := (Crew.start (o.ingestBatches batches) g cache).run turns
    ∃ stored, stored <+: batches.flatten ∧ o.Mirrors (chain ++ stored) ended.store.committed ∧
      (ended.flow = .going (.ret ()) → stored = batches.flatten ∧
        o.AtWork U cap ⟨ended.store, ended.memory⟩) := by
  intro ended
  have work : o.AtWork U cap ⟨⟨g, none⟩, cache⟩ := ⟨rfl, truthful, capacity⟩
  have fits : o.Fits U ⟨⟨g, none⟩, cache⟩ batches.flatten := h.fits work valid
  have roomy : ∀ blocks ∈ batches, o.Roomy cache.cap blocks := capacity ▸ room
  have orderly := orderly_ingestBatches inside
  by_cases finished : ended.flow = .going (.ret ())
  · have ran := Crew.finished_run orderly (fun opened settled => by cases settled.ok rfl)
      (serial_ingestBatches batches) careful finished
    rw [← List.append_nil batches.flatten] at fits
    obtain ⟨w', ran', fits', advanced⟩ := fits.ingestBatches roomy
    obtain rfl : w' = ⟨ended.store, ended.memory⟩ := by
      rw [ran] at ran'
      exact (congrArg Prod.snd ran').symm
    refine ⟨batches.flatten, List.prefix_rfl, ?_, fun _ => ⟨rfl, ?_⟩⟩
    · exact h.advance valid advanced.grown fits'.ready.sound advanced.checkpoint
    · exact ⟨fits'.ready.free, fits'.truthful, advanced.cap.trans capacity⟩
  · obtain ⟨n, past⟩ := Crew.past_run (orderly.mono fun _ _ _ => trivial)
      (serial_ingestBatches batches) careful
    have nothing : Ran o ⟨⟨g, none⟩, cache⟩ [] ⟨⟨g, none⟩, cache⟩ := .nil rfl
    have keeps := keeps_ingestBatches inside nothing
    obtain ⟨done, w, ⟨later, split⟩, ⟨⟨stats, ran⟩, -⟩, same⟩ :=
      keeps.crash (n := n) (Prog.allAllowed_of_forall (fun _ _ => trivial) _ _ n)
    rw [past, List.nil_append] at *
    have whole : done.flatten ++ later.flatten = batches.flatten := by
      rw [← List.flatten_append, split, flatten_chunksOf]
    have retains := retains_chunksOf fits roomy
    rw [← whole] at fits valid
    obtain ⟨stats', w', ran', fits', advanced⟩ := fits.commitChunks
      (fun chunk mem => retains chunk (split ▸ List.mem_append_left _ mem)) ⟨0, 0, 0, 0⟩
    obtain rfl : w' = w := by
      rw [ran] at ran'
      exact (congrArg Prod.snd ran').symm
    refine ⟨done.flatten, ⟨later.flatten, whole⟩, ?_, fun back => absurd back finished⟩
    rw [← List.append_assoc] at valid
    rw [same]
    exact h.advance valid.left advanced.grown fits'.ready.sound advanced.checkpoint

end IngestionOrchestrator

end ChainGraph

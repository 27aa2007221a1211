import ChainGraph.Laws.Reorg

/-!
# Detours

A chain that is ingested block by block, rolled back to a fork and ingested along the other branch
leaves the graph of the other branch. Deleting the block a graph has last grown by undoes it in all
that a rollback touches, so by induction a rollback undoes a whole branch; what it leaves behind are
addresses and, until the next block, where the checkpoint says that the fork was read. The cache may
still know outputs of the branch that is gone. It is right about those that are stored, which is
enough.
-/

namespace ChainGraph

open Foundation Foundation.Store

/-- What a checkpoint says of the chain: not where the block was read. -/
def Checkpoint.place (c : Checkpoint) : ℤ × Option BlockHash × String :=
  (c.lastProcessedHeight, c.lastProcessedHash, c.status)

namespace Graph

/-- A relationship ends in the address. -/
def Related (g : Graph) (a : Address) : Prop :=
  (∃ e ∈ g.lockedTo, e.2 = a) ∨ (∃ p ∈ g.performs, p.fromAddress = a) ∨
    ∃ b ∈ g.benefitsTo, b.toAddress = a

/-- The addresses with a relationship. -/
def relatedAddresses (g : Graph) : Set Address := {a | a ∈ g.addresses ∧ g.Related a}

/-- The same graph, up to addresses without relationships and where the checkpoint's block was
read. -/
structure Alike (g g' : Graph) : Prop where
  bare : g.bare = g'.bare
  addresses : g.relatedAddresses = g'.relatedAddresses
  checkpoint : g.checkpoint.map Checkpoint.place = g'.checkpoint.map Checkpoint.place

theorem bare_checkpointAt (g : Graph) (forkPoint : ℕ) :
    (g.checkpointAt forkPoint).bare = g.bare := by
  unfold checkpointAt
  split <;> rfl

end Graph

theorem Graph.bare_eq_iff {g g' : Graph} : g.bare = g'.bare ↔ g.blocks = g'.blocks ∧
    g.transactions = g'.transactions ∧ g.outputs = g'.outputs ∧ g.inputs = g'.inputs ∧
    g.nextBlock = g'.nextBlock ∧ g.includedIn = g'.includedIn ∧ g.hasInput = g'.hasInput ∧
    g.hasOutput = g'.hasOutput ∧ g.lockedTo = g'.lockedTo ∧ g.spends = g'.spends ∧
    g.performs = g'.performs ∧ g.benefitsTo = g'.benefitsTo := by
  rw [Graph.ext_iff]
  simp [Graph.bare]

/-- The bare graph knows which addresses have a relationship. -/
theorem Sound.relatedAddresses {g : Graph} (sound : Sound g) :
    g.relatedAddresses = {a | g.bare.Related a} := by
  ext a
  refine and_iff_right_of_imp fun related => ?_
  rcases related with ⟨e, mem, rfl⟩ | ⟨p, mem, rfl⟩ | ⟨b, mem, rfl⟩
  · exact (sound.lockedTo e mem).2
  · exact (sound.performs p mem).1
  · exact (sound.benefitsTo b mem).2

namespace IngestionOrchestrator

variable {o : IngestionOrchestrator} {U U' : Denotation} {res : Found} {g g₁ g' g'' : Graph}
  {w w' w₁ : World neo4j UtxoCache} {b : LocatedBlock} {chain chain' rest : List LocatedBlock}

/-! ## One block -/

/-- Deleting the block a graph has last grown by leaves what there was, but for the addresses. -/
theorem bare_rollbackBlock_grown (grown : o.Grown res g [b] g') (sound : Sound g)
    (fresh : o.Fresh [b] g) : (g'.rollbackBlock b.height).bare = g.bare := by
  have node : BlockData.fromBlock b.block b.height ∈ g'.blocks :=
    (mem_blocks_of_grown grown fresh).mpr (Or.inl rfl)
  have stored : g'.blockAt b.height = some (.fromBlock b.block b.height) :=
    Graph.blockAt_eq_some.mpr ⟨node, rfl⟩
  have unhashed : ∀ k, g.blocks.Has k → k ≠ b.block.blockHash := by
    rintro _ has rfl
    exact fresh.blocks.free _ (List.mem_singleton.mpr rfl) has
  have oldTx : ∀ t, g.transactions.Has t → ¬ g'.InBlockAt b.height t := fun _ has =>
    not_inBlockAt_of_has grown sound fresh has
  have oldInput : ∀ id, g.inputs.Has id → ¬ g'.InputOfBlockAt b.height id := fun _ has =>
    not_inputOfBlockAt_of_has grown sound fresh has
  have oldOutput : ∀ id, g.outputs.Has id → ¬ g'.OutputOfBlockAt b.height id := fun _ has =>
    not_outputOfBlockAt_of_has grown sound fresh has
  have newTx : ∀ tx ∈ txsOf [b], g'.InBlockAt b.height tx.txid := fun tx mem =>
    (inBlockAt_grown grown sound fresh).mpr ⟨tx, mem, rfl⟩
  have newInput : ∀ inp ∈ inputRows [b], g'.InputOfBlockAt b.height inp.inputId := fun inp mem =>
    (inputOfBlockAt_grown grown sound fresh).mpr (List.mem_map_of_mem mem)
  have newOutput : ∀ out ∈ o.outputRows [b], g'.OutputOfBlockAt b.height out.outputId :=
    fun out mem => (outputOfBlockAt_grown grown sound fresh).mpr (List.mem_map_of_mem mem)
  rw [Graph.rollbackBlock_eq stored]
  refine Graph.ext ?_ ?_ ?_ ?_ rfl ?_ ?_ ?_ ?_ ?_ ?_ ?_ ?_ rfl
  · show g'.blocks.delete _ = g.blocks
    rw [grown.blocks]
    refine Table.delete_foldl_upsert_new fresh.blocks.hashes fresh.blocks.free ?_ ?_
    · intro row mem
      cases List.mem_singleton.mp mem
      rfl
    · exact fun n mem => fresh.blocks.unused _ (List.mem_singleton.mpr rfl) n mem
  · show g'.transactions.delete _ = g.transactions
    rw [grown.transactions, putTransactions]
    refine Table.delete_foldl_upsert_new ?_ ?_ ?_ fun n mem => oldTx _ (Table.has_of_mem mem)
    · rw [List.map_map]
      exact (map_txid_transactionRows res [b]).symm ▸ fresh.rows.txids
    all_goals
      intro n mem
      obtain ⟨row, inRows, rfl⟩ := List.mem_map.mp mem
      have inTxs : row.txid ∈ (txsOf [b]).map (·.txid) := by
        rw [← map_txid_transactionRows res]
        exact List.mem_map_of_mem inRows
      obtain ⟨tx, inChain, same⟩ := List.mem_map.mp inTxs
    · show ¬ g.transactions.Has row.txid
      rw [← same]
      exact fresh.rows.transactions tx inChain
    · show g'.InBlockAt b.height row.txid
      rw [← same]
      exact newTx tx inChain
  · show g'.outputs.delete _ = g.outputs
    rw [grown.outputs, putOutputNodes]
    refine Table.delete_foldl_upsert_new ?_ ?_ ?_ fun n mem => oldOutput _ (Table.has_of_mem mem)
    · rw [List.map_map]
      exact fresh.rows.outputIds
    · intro n mem
      obtain ⟨out, inRows, rfl⟩ := List.mem_map.mp mem
      exact fresh.rows.outputs out inRows
    · intro n mem
      obtain ⟨out, inRows, rfl⟩ := List.mem_map.mp mem
      exact newOutput out inRows
  · show g'.inputs.delete _ = g.inputs
    rw [grown.inputs]
    refine Table.delete_foldl_upsert_new ?_ ?_ ?_ fun n mem => oldInput _ (Table.has_of_mem mem)
    · rw [List.map_map]
      exact fresh.rows.inputIds
    · intro n mem
      obtain ⟨inp, inRows, rfl⟩ := List.mem_map.mp mem
      exact fresh.rows.inputs inp inRows
    · intro n mem
      obtain ⟨inp, inRows, rfl⟩ := List.mem_map.mp mem
      exact newInput inp inRows
  · show g'.nextBlock.filter _ = g.nextBlock
    rw [grown.nextBlock]
    refine filter_add_new ?_ ?_
    · intro e mem
      exact ⟨unhashed _ (sound.nextBlock e mem).1, unhashed _ (sound.nextBlock e mem).2⟩
    · intro e mem kept
      obtain ⟨row, inRows, link⟩ := List.mem_filterMap.mp mem
      cases List.mem_singleton.mp inRows
      unfold Graph.prevLink at link
      split at link
      · obtain ⟨p, _, rfl⟩ := Option.map_eq_some_iff.mp link
        exact kept.2 rfl
      · cases link
  · show (g'.includedIn.filter _).filter _ = g.includedIn
    rw [grown.includedIn]
    refine filter_filter_add_new (fun e mem => ?_) fun e mem kept => ?_
    · exact ⟨oldTx _ (sound.includedIn e mem).1, unhashed _ (sound.includedIn e mem).2⟩
    · obtain ⟨c, hc, inBlock⟩ := List.mem_flatMap.mp mem
      obtain ⟨tx, htx, rfl⟩ := List.mem_map.mp inBlock
      exact kept (newTx tx (List.mem_flatMap.mpr ⟨c, hc, htx⟩))
  · show (g'.hasInput.filter _).filter _ = g.hasInput
    rw [grown.hasInput]
    refine filter_filter_add_new (fun e mem => ?_) fun e mem kept => ?_
    · exact ⟨oldInput _ (sound.hasInput e mem).2, oldTx _ (sound.hasInput e mem).1⟩
    · obtain ⟨inp, inRows, rfl⟩ := List.mem_map.mp mem
      exact kept (newInput inp inRows)
  · show (g'.hasOutput.filter _).filter _ = g.hasOutput
    rw [grown.hasOutput]
    refine filter_filter_add_new (fun e mem => ?_) fun e mem kept => ?_
    · exact ⟨oldOutput _ (sound.hasOutput e mem).2, oldTx _ (sound.hasOutput e mem).1⟩
    · obtain ⟨out, inRows, rfl⟩ := List.mem_map.mp mem
      exact kept (newOutput out inRows)
  · show g'.lockedTo.filter _ = g.lockedTo
    rw [grown.lockedTo]
    refine filter_add_new (fun e mem => oldOutput _ (sound.lockedTo e mem).1) fun e mem kept => ?_
    obtain ⟨out, inRows, lock⟩ := List.mem_filterMap.mp mem
    obtain ⟨a, _, rfl⟩ := Option.map_eq_some_iff.mp lock
    exact kept (newOutput out inRows)
  · show (g'.spends.filter _).filter _ = g.spends
    rw [grown.spends]
    refine filter_filter_add_new (fun e mem => ?_) fun e mem kept => ?_
    · exact ⟨oldInput _ (sound.spends e mem).1, oldOutput _ (sound.spends e mem).2⟩
    · obtain ⟨inp, inRows, rfl⟩ := List.mem_map.mp mem
      exact kept (newInput inp (List.mem_filter.mp inRows).1)
  · show g'.performs.delete _ = g.performs
    rw [grown.performs]
    refine Table.delete_foldl_upsert_new (nodup_performsRows res fresh.rows.txids) ?_ ?_
      fun p mem => oldTx _ (sound.performs p mem).2
    all_goals
      intro p mem
      obtain ⟨tx, inChain, same⟩ := txid_of_mem_performsRows mem
    · rintro ⟨q, old, ends⟩
      refine fresh.rows.transactions tx inChain ?_
      rw [same, ← show q.toTxid = p.toTxid from congrArg Prod.snd ends]
      exact (sound.performs q old).2
    · show g'.InBlockAt b.height p.toTxid
      rw [← same]
      exact newTx tx inChain
  · show g'.benefitsTo.delete _ = g.benefitsTo
    rw [grown.benefitsTo]
    refine Table.delete_foldl_upsert_new (nodup_benefitsRows o fresh.rows.txids) ?_ ?_
      fun p mem => oldTx _ (sound.benefitsTo p mem).1
    all_goals
      intro p mem
      obtain ⟨tx, inChain, same⟩ := txid_of_mem_benefitsRows mem
    · rintro ⟨q, old, ends⟩
      refine fresh.rows.transactions tx inChain ?_
      rw [same, ← show q.fromTxid = p.fromTxid from congrArg Prod.fst ends]
      exact (sound.benefitsTo q old).1
    · show g'.InBlockAt b.height p.fromTxid
      rw [← same]
      exact newTx tx inChain

/-! ## Block after block -/

/-- Blocks one after the other, each with the offset in its file that the caller has for it. -/
def ingestAll (o : IngestionOrchestrator) (offset : LocatedBlock → Option ℕ)
    (chain : List LocatedBlock) : Ingest Unit :=
  chain.forM fun b => o.ingestBlock b.block b.height b.fileName (offset b)

theorem ingestAll_append (offset : LocatedBlock → Option ℕ) (chain chain' : List LocatedBlock) :
    o.ingestAll offset (chain ++ chain') =
      o.ingestAll offset chain >>= fun _ => o.ingestAll offset chain' := by
  induction chain with
  | nil => rfl
  | cons b chain ih =>
    show (o.ingestBlock b.block b.height b.fileName (offset b) >>= fun _ =>
      o.ingestAll offset (chain ++ chain')) = _
    rw [ih]
    exact (Prog.bind_assoc ..).symm

/-- The checkpoint of the last block, with its offset. -/
def tipCheckpoint (offset : LocatedBlock → Option ℕ) (chain : List LocatedBlock) :
    Option Checkpoint :=
  chain.getLast?.map fun last => .ofData (blockCheckpoint last (offset last))

/-- What blocks did to the graph, and that a rollback of them undoes it. -/
structure Climbed (o : IngestionOrchestrator) (res : Found) (offset : LocatedBlock → Option ℕ)
    (g : Graph) (chain : List LocatedBlock) (g' : Graph) : Prop where
  grown : o.Grown res g chain g'
  checkpoint : g'.checkpoint = (tipCheckpoint offset chain).or g.checkpoint
  undone : ((chain.map (·.height)).reverse.foldl Graph.rollbackBlock g').bare = g.bare

/-- **A chain** that is new and follows the stored block below it is ingested, and can be undone. -/
theorem Ready.ingestAll (h : o.Ready U w (chain ++ rest))
    (upToDate : UpToDate w.store.committed w.memory)
    (parent : FirstParentOk w.store.committed chain) (adjacent : chain.IsChain Adjacent)
    (links : chain.IsChain Links) (new : w.store.committed.NewBlocks (blockRows chain))
    (offset : LocatedBlock → Option ℕ) :
    ∃ w', (o.ingestAll offset chain).run World.handle w = (.ok (), w') ∧
      o.Ready U w' rest ∧ UpToDate w'.store.committed w'.memory ∧
      o.Climbed (o.valueOf U) offset w.store.committed chain w'.store.committed := by
  induction chain generalizing w with
  | nil => exact ⟨w, rfl, h, upToDate, .refl .., rfl, rfl⟩
  | cons b chain ih =>
    have first : w.store.committed.NewBlocks (blockRows [b]) := new.left (s := blockRows chain)
    have fresh : o.Fresh [b] w.store.committed := ⟨first, (show o.NewRows ([b] ++ (chain ++ rest))
      w.store.committed from h.rows).left⟩
    obtain ⟨w₁, ran, h₁, upToDate₁, grown, checkpoint, _⟩ :=
      h.ingestBlockAt upToDate (parent b rfl) first (offset b)
    have stored : BlockData.fromBlock b.block b.height ∈ w₁.store.committed.blocks :=
      (mem_blocks_of_grown grown fresh).mpr (Or.inl rfl)
    have parent₁ : FirstParentOk w₁.store.committed chain := fun next head => by
      obtain ⟨chain, rfl⟩ := List.head?_eq_some_iff.mp head
      exact parentOk_of_links stored (List.isChain_cons_cons.mp adjacent).1
        (List.isChain_cons_cons.mp links).1
    have new₁ := (grown.newBlocks_append first).mp new
    obtain ⟨w', rans, h', upToDate', climbed⟩ :=
      ih h₁ upToDate₁ parent₁ adjacent.tail links.tail new₁
    refine ⟨w', ?_, h', upToDate', grown.append climbed.grown new₁ fun a ha c hc => ?_, ?_, ?_⟩
    · show (_ >>= fun _ => o.ingestAll offset chain).run World.handle w = _
      rw [Prog.run_bind_ok ran, rans]
    · cases List.mem_singleton.mp ha
      exact (List.pairwise_cons.mp h.ascending).1 c (List.mem_append_left _ hc)
    · rw [climbed.checkpoint, checkpoint]
      unfold tipCheckpoint
      cases chain with
      | nil => rfl
      | cons c chain =>
        rw [List.getLast?_cons_cons]
        cases found : (c :: chain).getLast? with
        | none => simp at found
        | some last => rfl
    · rw [List.map_cons, List.reverse_cons, List.foldl_append, List.foldl_cons, List.foldl_nil,
        Graph.bare_rollbackBlock, climbed.undone, ← Graph.bare_rollbackBlock]
      exact bare_rollbackBlock_grown grown h.sound fresh

/-! ## What the bare graph decides -/

/-- Equal bare graphs grow by the same blocks to equal bare graphs. -/
theorem Grown.bare_congr (h : o.Grown res g chain g') (h' : o.Grown res g₁ chain g'')
    (same : g.bare = g₁.bare) : g'.bare = g''.bare := by
  obtain ⟨blocks, transactions, outputs, inputs, nextBlock, includedIn, hasInput, hasOutput,
    lockedTo, spends, performs, benefitsTo⟩ := Graph.bare_eq_iff.mp same
  have grownBlocks : g'.blocks = g''.blocks := by rw [h.blocks, h'.blocks, blocks]
  refine Graph.bare_eq_iff.mpr ⟨grownBlocks, ?_, ?_, ?_, ?_, ?_, ?_, ?_, ?_, ?_, ?_, ?_⟩
  · rw [h.transactions, h'.transactions, transactions]
  · rw [h.outputs, h'.outputs, outputs]
  · rw [h.inputs, h'.inputs, inputs]
  · rw [h.nextBlock, h'.nextBlock, Graph.prevLink_congr grownBlocks, nextBlock]
  · rw [h.includedIn, h'.includedIn, includedIn]
  · rw [h.hasInput, h'.hasInput, hasInput]
  · rw [h.hasOutput, h'.hasOutput, hasOutput]
  · rw [h.lockedTo, h'.lockedTo, lockedTo]
  · rw [h.spends, h'.spends, spends]
  · rw [h.performs, h'.performs, performs]
  · rw [h.benefitsTo, h'.benefitsTo, benefitsTo]

/-- What is still to come fits a graph as it fits the same one with other addresses. -/
theorem Ready.bare_congr (h : o.Ready U w rest) (same : w'.store.committed.bare =
      w.store.committed.bare) (free : w'.store.active = none)
    (sound : Sound w'.store.committed) : o.Ready U w' rest := by
  obtain ⟨_, transactions, outputs, inputs, _, _, _, _, lockedTo, _, _, _⟩ :=
    Graph.bare_eq_iff.mp same
  exact {
    free := free
    faithful := h.faithful.congr outputs lockedTo
    sound := sound
    denoted := h.denoted
    rows := {
      outputIds := h.rows.outputIds
      outputs := outputs ▸ h.rows.outputs
      txids := h.rows.txids
      transactions := transactions ▸ h.rows.transactions
      inputIds := h.rows.inputIds
      inputs := inputs ▸ h.rows.inputs }
    spends := outputs ▸ h.spends
    ascending := h.ascending }

/-- A cache that is right about a graph is right about one that holds less of the same outputs. -/
theorem UpToDate.shrink {c : UtxoCache} (upToDate : UpToDate g' c) (faithful : o.Faithful U g')
    (less : o.Faithful U g) (sub : ∀ k, g.outputs.Has k → g'.outputs.Has k) : UpToDate g c := by
  intro k v present has
  rw [less.resolve has, ← faithful.resolve (sub k has)]
  exact upToDate k v present (sub k has)

/-! ## Chains from height 0 -/

/-- The heights of adjacent blocks count up. -/
theorem heights_of_adjacent {n : ℕ} (adjacent : chain.IsChain Adjacent)
    (head : ∀ b ∈ chain.head?, b.height = n) :
    chain.map (·.height) = List.range' n chain.length := by
  induction chain generalizing n with
  | nil => rfl
  | cons c chain ih =>
    have here : c.height = n := head c rfl
    rw [List.map_cons, List.length_cons, List.range'_succ, here,
      ih (n := n + 1) adjacent.tail fun b next => ?_]
    obtain ⟨chain, rfl⟩ := List.head?_eq_some_iff.mp next
    exact here ▸ (List.isChain_cons_cons.mp adjacent).1

/-- The height of the last block. -/
def tipHeight (chain : List LocatedBlock) : ℕ := (chain.getLast?.map (·.height)).getD 0

/-- The blocks up to a height. -/
def upTo (height : ℕ) (chain : List LocatedBlock) : List LocatedBlock :=
  chain.filter (·.height ≤ height)

/-- The blocks above a height. -/
def above (height : ℕ) (chain : List LocatedBlock) : List LocatedBlock :=
  chain.filter (height < ·.height)

theorem upTo_append_above (height : ℕ)
    (rising : chain.Pairwise fun a b => a.height < b.height) :
    upTo height chain ++ above height chain = chain := by
  induction chain with
  | nil => rfl
  | cons b chain ih =>
    obtain ⟨higher, rising⟩ := List.pairwise_cons.mp rising
    unfold upTo above at ih ⊢
    by_cases low : b.height ≤ height
    · rw [List.filter_cons_of_pos (by simpa using low),
        List.filter_cons_of_neg (by simpa using low), List.cons_append, ih rising]
    · have none : chain.filter (·.height ≤ height) = [] := by
        refine List.filter_eq_nil_iff.mpr fun c mem => ?_
        have := higher c mem
        simpa using by omega
      have all : chain.filter (height < ·.height) = chain := by
        refine List.filter_eq_self.mpr fun c mem => ?_
        have := higher c mem
        simpa using by omega
      rw [List.filter_cons_of_neg (by simpa using low),
        List.filter_cons_of_pos (by simpa using low), none, all]
      rfl

/-- A chain from height 0 has one block at each height. -/
theorem heights_of_fromGenesis (valid : FromGenesis chain) :
    chain.map (·.height) = List.range' 0 chain.length :=
  heights_of_adjacent valid.adjacent valid.genesis

theorem tipHeight_of_fromGenesis (valid : FromGenesis chain) :
    tipHeight chain = chain.length - 1 := by
  have last : (chain.map (·.height)).getLast? = chain.getLast?.map (·.height) := by simp
  rw [tipHeight, ← last, heights_of_fromGenesis valid, List.getLast?_range']
  split
  · rename_i none
    simp [none]
  · simp

theorem heights_above {fork : ℕ} (valid : FromGenesis chain) (inside : fork < chain.length) :
    (above fork chain).map (·.height) = List.range' (fork + 1) (chain.length - (fork + 1)) := by
  have split : List.range' 0 chain.length =
      List.range' 0 (fork + 1) ++ List.range' (fork + 1) (chain.length - (fork + 1)) := by
    have joined := List.range'_append_1 (s := 0) (m := fork + 1) (n := chain.length - (fork + 1))
    rw [Nat.zero_add] at joined
    rw [joined]
    congr 1
    omega
  have heights : (above fork chain).map (·.height) =
      (chain.map (·.height)).filter (fork < ·) := by
    rw [above, List.filter_map]
    rfl
  rw [heights, heights_of_fromGenesis valid, split, List.filter_append]
  have none : (List.range' 0 (fork + 1)).filter (fork < ·) = [] := by
    refine List.filter_eq_nil_iff.mpr fun i mem => ?_
    have := List.mem_range'_1.mp mem
    simpa using by omega
  have all : (List.range' (fork + 1) (chain.length - (fork + 1))).filter (fork < ·) =
      List.range' (fork + 1) (chain.length - (fork + 1)) := by
    refine List.filter_eq_self.mpr fun i mem => ?_
    have := List.mem_range'_1.mp mem
    simpa using by omega
  rw [none, all, List.nil_append]

theorem heights_upTo {fork : ℕ} (valid : FromGenesis chain) (inside : fork < chain.length) :
    (upTo fork chain).map (·.height) = List.range' 0 (fork + 1) := by
  have whole := congrArg (List.map (·.height))
    (upTo_append_above fork (rising_of_adjacent valid.adjacent))
  have joined := List.range'_append_1 (s := 0) (m := fork + 1) (n := chain.length - (fork + 1))
  rw [Nat.zero_add, Nat.add_sub_of_le inside] at joined
  rw [List.map_append, heights_of_fromGenesis valid, heights_above valid inside, ← joined] at whole
  exact List.append_cancel_right whole

/-- The heights a rollback to a fork goes through are those of the blocks above. -/
theorem heightsDown_above {fork : ℕ} (valid : FromGenesis chain) (below : fork < tipHeight chain) :
    heightsDown (fork + 1) (tipHeight chain) = ((above fork chain).map (·.height)).reverse := by
  rw [tipHeight_of_fromGenesis valid] at below ⊢
  rw [heights_above valid (by omega), heightsDown]
  congr 2
  omega

/-- There is nothing above the tip. -/
theorem above_tip {fork : ℕ} (valid : FromGenesis chain) (beyond : tipHeight chain ≤ fork) :
    above fork chain = [] := by
  refine List.filter_eq_nil_iff.mpr fun b mem => ?_
  have height : b.height ∈ chain.map (·.height) := List.mem_map_of_mem mem
  rw [tipHeight_of_fromGenesis valid] at beyond
  rw [heights_of_fromGenesis valid, List.mem_range'_1] at height
  simpa using by omega

/-- What is new to nothing. -/
theorem newBlocks_empty (valid : FromGenesis chain)
    (hashes : (chain.map (·.block.blockHash)).Nodup) : Graph.empty.NewBlocks (blockRows chain) where
  hashes := by
    rw [blockRows, List.map_map]
    exact hashes
  free _ _ := Table.not_has_empty _
  heights := by
    rw [blockRows, List.map_map]
    exact (heights_of_fromGenesis valid) ▸ List.nodup_range'
  unused _ _ n mem := absurd mem (Table.not_mem_empty n)

/-! ## The branch that is gone -/

theorem tipCheckpoint_ne_none (offset : LocatedBlock → Option ℕ) (nonempty : chain ≠ []) :
    tipCheckpoint offset chain ≠ none := by
  unfold tipCheckpoint
  rw [List.getLast?_eq_some_getLast nonempty]
  exact Option.some_ne_none _

/-- **A branch is undone** by a rollback to where it starts, and the checkpoint is there. -/
theorem rolled_back {fork : ℕ} {offset : LocatedBlock → Option ℕ} (valid : FromGenesis chain)
    (hashes : (chain.map (·.block.blockHash)).Nodup)
    (stem : o.Climbed res offset .empty (upTo fork chain) g)
    (branch : o.Climbed res offset g (above fork chain) g') :
    (g'.rollbackTo (tipHeight chain) fork).bare = g.bare ∧
      (g'.rollbackTo (tipHeight chain) fork).checkpoint.map Checkpoint.place =
        (tipCheckpoint offset (upTo fork chain)).map Checkpoint.place := by
  have split := upTo_append_above fork (rising_of_adjacent valid.adjacent)
  by_cases below : fork < tipHeight chain
  · have heights : (upTo fork chain).map (·.height) = List.range' 0 (fork + 1) := by
      rw [tipHeight_of_fromGenesis valid] at below
      exact heights_upTo valid (by omega)
    have last := congrArg List.getLast? heights
    rw [List.getLast?_map, List.getLast?_range', if_neg (Nat.succ_ne_zero fork),
      Option.map_eq_some_iff] at last
    obtain ⟨tip, found, height⟩ := last
    have up : tip.height = fork := by simpa using height
    have stored : BlockData.fromBlock tip.block tip.height ∈ g'.blocks := by
      have new : Graph.empty.NewBlocks (blockRows (upTo fork chain ++ above fork chain)) := by
        rw [split]
        exact newBlocks_empty valid hashes
      have stemNew : Graph.empty.NewBlocks (blockRows (upTo fork chain)) := by
        rw [blockRows_append] at new
        exact new.left
      have branchNew := (stem.grown.newBlocks_append stemNew).mp new
      rw [branch.grown.blocks, Table.mem_foldl_upsert_new branchNew.hashes branchNew.free,
        stem.grown.blocks, Table.mem_foldl_upsert_new stemNew.hashes stemNew.free]
      exact Or.inr (Or.inl (List.mem_map_of_mem (List.mem_of_getLast? found)))
    have here : g'.lookupBlockHash fork = some tip.block.blockHash :=
      Graph.lookupBlockHash_eq_some.mpr ⟨_, stored, up, rfl⟩
    refine ⟨?_, ?_⟩
    · rw [Graph.rollbackTo, if_neg (Nat.not_le.mpr below), heightsDown_above valid below,
        Graph.bare_checkpointAt]
      exact branch.undone
    · rw [Graph.checkpoint_rollbackTo below here, tipCheckpoint, found]
      simp [Checkpoint.place, Checkpoint.ofData, Graph.forkCheckpoint, blockCheckpoint, up]
  · have nothing : above fork chain = [] := above_tip valid (Nat.not_lt.mp below)
    have whole : g'.rollbackTo (tipHeight chain) fork = g' := by
      rw [Graph.rollbackTo, if_pos (Nat.not_lt.mp below)]
    rw [nothing] at branch
    rw [whole]
    refine ⟨branch.undone, ?_⟩
    rw [branch.checkpoint, stem.checkpoint]
    show ((tipCheckpoint offset (upTo fork chain)).or none).map _ = _
    rw [Option.or_none]

/-- The blocks above a height follow those up to it. -/
theorem firstParentOk_above {fork : ℕ} (valid : FromGenesis chain)
    (stored : ∀ a ∈ upTo fork chain, BlockData.fromBlock a.block a.height ∈ g.blocks) :
    FirstParentOk g (above fork chain) := by
  intro b head
  have mem : b ∈ above fork chain := List.mem_of_mem_head? head
  obtain ⟨inChain, high⟩ := List.mem_filter.mp mem
  have high : fork < b.height := by simpa using high
  rcases head_or_pred (isChain_and valid.adjacent valid.linked) inChain with
    first | ⟨a, before, next, link⟩
  · have := valid.genesis b first
    omega
  · refine parentOk_of_links (stored a ?_) next link
    have up : b.height = a.height + 1 := next
    refine List.mem_filter.mpr ⟨before, ?_⟩
    by_contra away
    have higher : a ∈ above fork chain := List.mem_filter.mpr ⟨before, by simpa using away⟩
    obtain ⟨later, same⟩ := List.head?_eq_some_iff.mp head
    have rising : (above fork chain).Pairwise fun a b => a.height < b.height :=
      (rising_of_adjacent valid.adjacent).filter _
    rw [same] at higher rising
    rcases List.mem_cons.mp higher with rfl | inLater
    · omega
    · have := (List.pairwise_cons.mp rising).1 a inLater
      omega

theorem newBlocks_upTo (valid : FromGenesis chain)
    (hashes : (chain.map (·.block.blockHash)).Nodup) (fork : ℕ) :
    Graph.empty.NewBlocks (blockRows (upTo fork chain)) := by
  have new := newBlocks_empty valid hashes
  rw [← upTo_append_above fork (rising_of_adjacent valid.adjacent), blockRows_append] at new
  exact new.left

/-- Once its blocks up to a height are stored, the others are ingested. -/
theorem Ready.ingestAbove {fork : ℕ} (h : o.Ready U w (above fork chain))
    (upToDate : UpToDate w.store.committed w.memory) (valid : FromGenesis chain)
    (hashes : (chain.map (·.block.blockHash)).Nodup)
    (stem : o.Grown res .empty (upTo fork chain) g)
    (blocks : w.store.committed.blocks = g.blocks) (offset : LocatedBlock → Option ℕ) :
    ∃ w', (o.ingestAll offset (above fork chain)).run World.handle w = (.ok (), w') ∧
      o.Ready U w' [] ∧ UpToDate w'.store.committed w'.memory ∧
      o.Climbed (o.valueOf U) offset w.store.committed (above fork chain)
        w'.store.committed := by
  have split := upTo_append_above fork (rising_of_adjacent valid.adjacent)
  have adjacent := valid.adjacent
  have links := valid.linked
  have all := newBlocks_empty valid hashes
  rw [← split] at adjacent links all
  have stemNew := newBlocks_upTo valid hashes fork
  have new := (stem.newBlocks_append stemNew).mp all
  have parent : FirstParentOk w.store.committed (above fork chain) := by
    refine firstParentOk_above valid fun a mem => ?_
    rw [blocks, stem.blocks]
    exact (Table.mem_foldl_upsert_new stemNew.hashes stemNew.free).mpr
      (Or.inl (List.mem_map_of_mem mem))
  have whole : o.Ready U w (above fork chain ++ []) := by
    rw [List.append_nil]
    exact h
  exact whole.ingestAll upToDate parent (List.isChain_append.mp adjacent).2.1
    (List.isChain_append.mp links).2.1
    ⟨new.hashes, blocks ▸ new.free, new.heights, blocks ▸ new.unused⟩ offset

/-- A chain from height 0 is ingested into nothing, in two parts. -/
theorem ingestAll_fromGenesis {c : UtxoCache} (valid : FromGenesis chain)
    (hashes : (chain.map (·.block.blockHash)).Nodup) (empty : ∀ k, c.peek k = none) (fork : ℕ)
    (offset : LocatedBlock → Option ℕ) :
    ∃ w₁ w₂, (o.ingestAll offset (upTo fork chain)).run World.handle ⟨⟨.empty, none⟩, c⟩ =
        (.ok (), w₁) ∧
      (o.ingestAll offset (above fork chain)).run World.handle w₁ = (.ok (), w₂) ∧
      o.Ready (outputsUnder chain) w₁ (above fork chain) ∧
      o.Climbed (o.valueOf (outputsUnder chain)) offset .empty (upTo fork chain)
        w₁.store.committed ∧
      o.Ready (outputsUnder chain) w₂ [] ∧ UpToDate w₂.store.committed w₂.memory ∧
      o.Climbed (o.valueOf (outputsUnder chain)) offset w₁.store.committed (above fork chain)
        w₂.store.committed := by
  have split := upTo_append_above fork (rising_of_adjacent valid.adjacent)
  have ready : o.Ready (outputsUnder chain) ⟨⟨.empty, none⟩, c⟩
      (upTo fork chain ++ above fork chain) := by
    rw [split]
    exact ready_of_fromGenesis valid
  have upToDate : UpToDate Graph.empty c := fun k v present => by
    rw [empty k] at present
    cases present
  have orphan : FirstParentOk .empty (upTo fork chain) := fun b _ => Or.inr fun hash found => by
    obtain ⟨n, mem, _⟩ := Graph.lookupBlockHash_eq_some.mp found
    exact absurd mem (Table.not_mem_empty n)
  have adjacent := valid.adjacent
  have links := valid.linked
  rw [← split] at adjacent links
  obtain ⟨w₁, ran, ready₁, upToDate₁, stem⟩ := ready.ingestAll upToDate orphan
    (List.isChain_append.mp adjacent).1 (List.isChain_append.mp links).1
    (newBlocks_upTo valid hashes fork) offset
  obtain ⟨w₂, rans, ready₂, upToDate₂, branch⟩ :=
    ready₁.ingestAbove upToDate₁ valid hashes stem.grown rfl offset
  exact ⟨w₁, w₂, ran, rans, ready₁, stem, ready₂, upToDate₂, branch⟩

/-! ## Path independence -/

/-- A chain, back to where it forks, and on along another. -/
def detour (o : IngestionOrchestrator) (offset offset' : LocatedBlock → Option ℕ)
    (A B : List LocatedBlock) (fork : ℕ) : Ingest Unit := do
  o.ingestAll offset A
  let _ ← io (o.rollbackToHeight (tipHeight A) fork)
  o.ingestAll offset' (above fork B)

theorem place_tipCheckpoint (offset offset' : LocatedBlock → Option ℕ)
    (chain : List LocatedBlock) : (tipCheckpoint offset chain).map Checkpoint.place =
      (tipCheckpoint offset' chain).map Checkpoint.place := by
  unfold tipCheckpoint
  cases chain.getLast? <;> rfl

/-- What was ready before a branch is ready again after it is rolled back. -/
theorem Ready.rolledBack {fork : ℕ} (h : o.Ready U w rest)
    (branched : o.Ready U' w' []) (stem : o.Faithful U' w.store.committed)
    (upToDate : UpToDate w'.store.committed w'.memory)
    (grown : o.Grown res w.store.committed chain w'.store.committed)
    (bare : (w'.store.committed.rollbackTo (tipHeight chain') fork).bare = w.store.committed.bare) :
    let w₁ : World neo4j UtxoCache :=
      ⟨⟨w'.store.committed.rollbackTo (tipHeight chain') fork, none⟩, w'.memory⟩
    (io (o.rollbackToHeight (tipHeight chain') fork)).run World.handle w' =
        (.ok (tipHeight chain' - fork), w₁) ∧
      o.Ready U w₁ rest ∧ UpToDate w₁.store.committed w₁.memory := by
  intro w₁
  obtain ⟨⟨g', active⟩, c'⟩ := w'
  obtain rfl : active = none := branched.free
  have ran : (io (o.rollbackToHeight (tipHeight chain') fork)).run World.handle ⟨⟨g', none⟩, c'⟩ =
      (.ok (tipHeight chain' - fork), w₁) := run_io_eq (run_rollbackToHeight ..)
  have sound := branched.sound.run (io (o.rollbackToHeight (tipHeight chain') fork)) c'
  rw [ran] at sound
  obtain ⟨_, _, outputs, _, _, _, _, _, lockedTo, _, _, _⟩ := Graph.bare_eq_iff.mp bare
  refine ⟨ran, h.bare_congr bare rfl sound, ?_⟩
  refine UpToDate.shrink upToDate branched.faithful (stem.congr outputs lockedTo) fun k has => ?_
  have before : w.store.committed.outputs.Has k := outputs ▸ has
  rw [grown.outputs]
  exact has_putOutputNodes.mpr (Or.inr before)

/-- **Path independence.** A chain that is rolled back to where it forks and followed along the
other branch leaves the graph of the other chain, whatever the cache holds room for. -/
theorem detour_alike {A B : List LocatedBlock} {fork : ℕ} {c c' : UtxoCache}
    (validA : FromGenesis A) (hashesA : (A.map (·.block.blockHash)).Nodup)
    (validB : FromGenesis B) (hashesB : (B.map (·.block.blockHash)).Nodup)
    (shared : upTo fork A = upTo fork B) (empty : ∀ k, c.peek k = none)
    (empty' : ∀ k, c'.peek k = none) (offset offset' : LocatedBlock → Option ℕ) :
    ∃ w w', (o.detour offset offset' A B fork).run World.handle ⟨⟨.empty, none⟩, c⟩ = (.ok (), w) ∧
      (o.ingestAll offset' B).run World.handle ⟨⟨.empty, none⟩, c'⟩ = (.ok (), w') ∧
      w.store.committed.Alike w'.store.committed ∧
      (above fork B ≠ [] → w.store.committed.checkpoint = w'.store.committed.checkpoint) := by
  obtain ⟨w₁, w₂, ran₁, ran₂, readyA, stem, branched, upToDate₂, branch⟩ :=
    ingestAll_fromGenesis (o := o) validA hashesA empty fork offset
  obtain ⟨w₁', _, ran₁', _, readyB, stemB, _⟩ :=
    ingestAll_fromGenesis (o := o) validB hashesB empty fork offset
  obtain ⟨w₅, w₆, ran₅, ran₆, _, stem', ready₆, _, branch'⟩ :=
    ingestAll_fromGenesis (o := o) validB hashesB empty' fork offset'
  -- the common blocks are ingested alike, whichever chain they are seen as part of
  obtain rfl : w₁ = w₁' := by
    rw [shared, ran₁'] at ran₁
    exact (congrArg Prod.snd ran₁).symm
  obtain ⟨bare, place⟩ := rolled_back validA hashesA stem branch
  obtain ⟨ran₃, ready₃, upToDate₃⟩ := readyB.rolledBack branched
    (readyA.faithful) upToDate₂ branch.grown bare
  obtain ⟨w₄, ran₄, ready₄, _, branchB⟩ := ready₃.ingestAbove upToDate₃ validB hashesB
    stemB.grown (Graph.bare_eq_iff.mp bare).1 offset'
  have splitA := upTo_append_above fork (rising_of_adjacent validA.adjacent)
  have splitB := upTo_append_above fork (rising_of_adjacent validB.adjacent)
  have ranA : (o.ingestAll offset A).run World.handle ⟨⟨.empty, none⟩, c⟩ = (.ok (), w₂) := by
    rw [← splitA, ingestAll_append, Prog.run_bind_ok ran₁, ran₂]
  have same : w₄.store.committed.bare = w₆.store.committed.bare := by
    refine branchB.grown.bare_congr branch'.grown (bare.trans ?_)
    exact stemB.grown.bare_congr stem'.grown rfl
  refine ⟨w₄, w₆, ?_, ?_, ⟨same, ?_, ?_⟩, fun further => ?_⟩
  · rw [detour, Prog.run_bind_ok ranA, Prog.run_bind_ok ran₃, ran₄]
  · rw [← splitB, ingestAll_append, Prog.run_bind_ok ran₅, ran₆]
  · rw [ready₄.sound.relatedAddresses, ready₆.sound.relatedAddresses, same]
  · rw [branchB.checkpoint, branch'.checkpoint]
    cases tipCheckpoint offset' (above fork B) with
    | some tip => rfl
    | none =>
      show (Option.or none (Graph.checkpoint _)).map _ = _
      rw [Option.none_or, Option.none_or, place, stem'.checkpoint, shared]
      show _ = ((tipCheckpoint offset' (upTo fork B)).or none).map _
      rw [Option.or_none]
      exact place_tipCheckpoint ..
  · rw [branchB.checkpoint, branch'.checkpoint]
    obtain ⟨tip, found⟩ := Option.ne_none_iff_exists'.mp (tipCheckpoint_ne_none offset' further)
    rw [found]
    rfl

end IngestionOrchestrator

/-- Another second block, with one of the transactions of the first one. -/
def Sample.other : LocatedBlock := Sample.block 1 102 100
  [Sample.coinbase 5 50 Sample.eaterScript, Sample.spend 3 ⟨1, 0⟩ 40 Sample.eaterScript]

theorem fromGenesis_first : FromGenesis [Sample.first] where
  genesis b head := by
    cases head
    rfl
  adjacent := List.isChain_singleton _
  linked := List.isChain_singleton _
  txids := by decide
  spends := spendsFrom_cons (by decide) (spendsFrom_nil _)

theorem fromGenesis_other : FromGenesis [Sample.first, Sample.other] where
  genesis b head := by
    cases head
    rfl
  adjacent := by simp [List.isChain_cons_cons, Adjacent, Sample.first, Sample.other, Sample.block]
  linked := by decide
  txids := by decide
  spends := by
    refine spendsFrom_cons (by decide) (spendsFrom_cons (by decide) (spendsFrom_cons ?_
      (spendsFrom_nil _)))
    intro k input
    cases List.mem_singleton.mp input
    simp [Sample.coinbase, UtxoKey.fromOutpoint]

/-- From one second block to the other, which has a transaction of the first one. -/
theorem detour_alike_sample :
    ∃ w w', ((Sample.orchestrator 1000000).detour (fun _ => none) (fun _ => none)
        [Sample.first, Sample.second] [Sample.first, Sample.other] 0).run World.handle
          ⟨⟨.empty, none⟩, .new 64⟩ = (.ok (), w) ∧
      ((Sample.orchestrator 1000000).ingestAll (fun _ => none)
        [Sample.first, Sample.other]).run World.handle ⟨⟨.empty, none⟩, .new 1⟩ = (.ok (), w') ∧
      w.store.committed.Alike w'.store.committed ∧
      (IngestionOrchestrator.above 0 [Sample.first, Sample.other] ≠ [] →
        w.store.committed.checkpoint = w'.store.committed.checkpoint) :=
  IngestionOrchestrator.detour_alike fromGenesis_sample (by decide) fromGenesis_other (by decide)
    (by decide +kernel) (UtxoCache.peek_new 64)
      (UtxoCache.peek_new 1) _ _

/-- Where the other chain ends at the fork, the offset of its last block is lost. -/
theorem detour_loses_offset :
    FromGenesis [Sample.first, Sample.second] ∧ FromGenesis [Sample.first] ∧
    IngestionOrchestrator.upTo 0 [Sample.first, Sample.second] =
      IngestionOrchestrator.upTo 0 [Sample.first] ∧
    (((Sample.orchestrator 1000000).detour (fun _ => some 7) (fun _ => some 7)
        [Sample.first, Sample.second] [Sample.first] 0).run World.handle
          ⟨⟨.empty, none⟩, .new 64⟩).2.store.committed.checkpoint.map
            (·.lastProcessedFileOffset) = some 0 ∧
    (((Sample.orchestrator 1000000).ingestAll (fun _ => some 7) [Sample.first]).run World.handle
      ⟨⟨.empty, none⟩, .new 64⟩).2.store.committed.checkpoint.map
        (·.lastProcessedFileOffset) = some 7 :=
  ⟨fromGenesis_sample, fromGenesis_first, by decide +kernel, by decide +kernel, by decide +kernel⟩

end ChainGraph

import ChainGraph.Laws.Detour
import ChainGraph.Laws.Sent
import ChainGraph.Laws.Synced

/-!
# Blocks torn by a crash

`ingest_block` commits the node of a block, its outputs, its transactions, what joins them and the
checkpoint one after the other. After a crash in between, `sync_checkpoint_with_db` takes the block
for complete if it counts all of its transactions, and otherwise deletes what it reaches from the
block's node. So it misses whatever was to come after the transactions, and leaves behind the
outputs that came before them.
-/

namespace ChainGraph

open Foundation Foundation.Store

namespace Query

/-- The transactions of a statement. -/
def transactions : Query → List TransactionData
  | createTransactions rows => rows
  | _ => []

/-- The statement writes outputs, or transactions of the block at the height. -/
def Early (height : ℕ) : Query → Prop
  | createOutputs _ => True
  | createLockedTo _ => True
  | createTransactions rows => ∀ tx ∈ rows, tx.blockHeight = height
  | _ => False

/-- The statement joins what is stored, or writes inputs. -/
def Joins : Query → Prop
  | createHasOutput _ => True
  | createInputs _ => True
  | createPerformsBulk _ => True
  | createBenefitsToBulk _ => True
  | _ => False

end Query

/-- `s` has the block and some of its transactions beyond `g`, and perhaps more. -/
structure Torn (g : Graph) (b : LocatedBlock) (txs : List TransactionData) (s : Graph) : Prop where
  blocks : s.blocks = g.blocks.upsert (.fromBlock b.block b.height)
  nextBlock : ∃ links : List (BlockHash × BlockHash), s.nextBlock = g.nextBlock + ↑links ∧
    ∀ e ∈ links, e.2 = b.block.blockHash
  transactions : s.transactions = (txs.map TransactionNode.ofData).foldl Table.upsert g.transactions
  includedIn : s.includedIn = g.includedIn + ↑(txs.map fun tx => (tx.txid, b.block.blockHash))

/-- Nothing beyond `g` is joined in `s`. -/
structure Unjoined (g s : Graph) : Prop where
  inputs : s.inputs = g.inputs
  hasInput : s.hasInput = g.hasInput
  hasOutput : s.hasOutput = g.hasOutput
  spends : s.spends = g.spends
  performs : s.performs = g.performs
  benefitsTo : s.benefitsTo = g.benefitsTo

namespace Graph

/-- Locking outputs changes the locks and the addresses. -/
theorem foldlM_mergeLockedTo_ok {rows : List OutputData} {g g' : Graph}
    (ok : rows.foldlM mergeLockedTo g = .ok g') : ∃ addresses lockedTo,
      g' = { g with addresses := addresses, lockedTo := lockedTo } := by
  induction rows generalizing g with
  | nil =>
    cases ok
    exact ⟨_, _, rfl⟩
  | cons out rows ih =>
    rw [List.foldlM_cons] at ok
    cases step : g.mergeLockedTo out with
    | error e =>
      rw [step] at ok
      cases ok
    | ok g₁ =>
      rw [step] at ok
      obtain ⟨addresses, lockedTo, rfl⟩ := ih ok
      unfold mergeLockedTo at step
      split at step
      · split at step
        · cases step
          exact ⟨_, _, rfl⟩
        · cases step
      · cases step
        exact ⟨_, _, rfl⟩

theorem foldl_mergeOutput_eq (rows : List OutputData) (g : Graph) :
    rows.foldl mergeOutput g = { g with
      outputs := (rows.map OutputNode.ofData).foldl Table.upsert g.outputs } := by
  induction rows generalizing g with
  | nil => rfl
  | cons out rows ih => exact ih (g.mergeOutput out)

end Graph

section Steps

variable {g s s' : Graph} {b : LocatedBlock} {txs : List TransactionData} {q : Query}

theorem Torn.blockAt (torn : Torn g b txs s) :
    s.blockAt b.height = some (.fromBlock b.block b.height) := by
  refine Graph.blockAt_eq_some.mpr ⟨?_, rfl⟩
  rw [torn.blocks]
  exact Table.mem_upsert.mpr (Or.inl rfl)

/-- The transactions of one more statement. -/
theorem Torn.putTransactions {rows : List TransactionData} (torn : Torn g b txs s)
    (heights : ∀ tx ∈ rows, tx.blockHeight = b.height)
    (txids : ((txs ++ rows).map (·.txid)).Nodup)
    (new : ∀ e ∈ g.includedIn, e.2 ≠ b.block.blockHash) :
    Torn g b (txs ++ rows) (rows.foldl (Graph.putTransaction mergeLink) s) := by
  have included : rows.filterMap s.inclusion = rows.map fun tx => (tx.txid, b.block.blockHash) := by
    rw [← List.filterMap_eq_map]
    refine List.filterMap_congr fun tx mem => ?_
    show (s.blockAt tx.blockHeight).map _ = _
    rw [heights tx mem, torn.blockAt]
    rfl
  rw [Graph.foldl_putTransaction_eq]
  refine ⟨torn.blocks, torn.nextBlock, ?_, ?_⟩
  · show _ = _
    rw [torn.transactions, List.map_append, List.foldl_append]
  · show (rows.filterMap s.inclusion).foldl mergeLink s.includedIn = _
    rw [included, torn.includedIn, List.map_append, ← Multiset.coe_add, ← add_assoc]
    rw [List.map_append, List.nodup_append] at txids
    refine foldl_mergeLink ?_ ?_
    · refine List.Nodup.of_map Prod.fst ?_
      rw [List.map_map]
      exact txids.2.1
    · intro e mem old
      obtain ⟨tx, inRows, rfl⟩ := List.mem_map.mp mem
      rcases Multiset.mem_add.mp old with before | early
      · exact new _ before rfl
      · obtain ⟨tx', inTxs, same⟩ := List.mem_map.mp (Multiset.mem_coe.mp early)
        exact txids.2.2 _ (List.mem_map_of_mem inTxs) _ (List.mem_map_of_mem inRows)
          (congrArg Prod.fst same)

/-- One more statement before the checkpoint's. -/
theorem Torn.exec (torn : Torn g b txs s) (sort : q.Early b.height ∨ q.Joins)
    (txids : ((txs ++ q.transactions).map (·.txid)).Nodup)
    (new : ∀ e ∈ g.includedIn, e.2 ≠ b.block.blockHash) (ok : q.exec s = .ok s') :
    Torn g b (txs ++ q.transactions) s' ∧ s'.checkpoint = s.checkpoint := by
  have same : ∀ {t : Graph}, t.blocks = s.blocks → t.nextBlock = s.nextBlock →
      t.transactions = s.transactions → t.includedIn = s.includedIn →
        t.checkpoint = s.checkpoint → Torn g b (txs ++ []) t ∧ t.checkpoint = s.checkpoint := by
    intro t blocks nextBlock transactions includedIn checkpoint
    rw [List.append_nil]
    exact ⟨⟨blocks.trans torn.blocks, nextBlock ▸ torn.nextBlock,
      transactions.trans torn.transactions, includedIn.trans torn.includedIn⟩, checkpoint⟩
  cases q with
  | createTransactions rows =>
    cases ok
    refine ⟨torn.putTransactions (sort.resolve_right id) txids new, ?_⟩
    rw [Graph.foldl_putTransaction_eq]
  | createOutputs rows =>
    cases ok
    rw [Graph.foldl_mergeOutput_eq]
    exact same rfl rfl rfl rfl rfl
  | createLockedTo rows =>
    obtain ⟨_, _, rfl⟩ := Graph.foldlM_mergeLockedTo_ok ok
    exact same rfl rfl rfl rfl rfl
  | createHasOutput rows =>
    cases ok
    rw [Graph.foldl_putHasOutput_eq]
    exact same rfl rfl rfl rfl rfl
  | createInputs rows =>
    cases ok
    rw [Graph.foldl_putInput_eq]
    exact same rfl rfl rfl rfl rfl
  | createPerformsBulk rows =>
    cases ok
    rw [Graph.foldl_mergePerforms_eq]
    exact same rfl rfl rfl rfl rfl
  | createBenefitsToBulk rows =>
    cases ok
    rw [Graph.foldl_mergeBenefitsTo_eq]
    exact same rfl rfl rfl rfl rfl
  | _ => exact (sort.elim id id).elim

/-- What is joined stays as it is until everything is there. -/
theorem Unjoined.exec (unjoined : Unjoined g s) {height : ℕ} (sort : q.Early height)
    (ok : q.exec s = .ok s') : Unjoined g s' := by
  obtain ⟨inputs, hasInput, hasOutput, spends, performs, benefitsTo⟩ := unjoined
  cases q with
  | createTransactions rows =>
    cases ok
    rw [Graph.foldl_putTransaction_eq]
    exact ⟨inputs, hasInput, hasOutput, spends, performs, benefitsTo⟩
  | createOutputs rows =>
    cases ok
    rw [Graph.foldl_mergeOutput_eq]
    exact ⟨inputs, hasInput, hasOutput, spends, performs, benefitsTo⟩
  | createLockedTo rows =>
    obtain ⟨_, _, rfl⟩ := Graph.foldlM_mergeLockedTo_ok ok
    exact ⟨inputs, hasInput, hasOutput, spends, performs, benefitsTo⟩
  | _ => exact sort.elim

/-- Some more statements before the checkpoint's. -/
theorem Torn.execAll {qs : List Query} (torn : Torn g b txs s)
    (sorts : ∀ q ∈ qs, q.Early b.height ∨ q.Joins)
    (txids : ((txs ++ qs.flatMap Query.transactions).map (·.txid)).Nodup)
    (new : ∀ e ∈ g.includedIn, e.2 ≠ b.block.blockHash) (ok : execAll neo4j qs s = .ok s') :
    Torn g b (txs ++ qs.flatMap Query.transactions) s' ∧ s'.checkpoint = s.checkpoint := by
  induction qs generalizing s txs with
  | nil =>
    cases ok
    rw [List.flatMap_nil, List.append_nil]
    exact ⟨torn, rfl⟩
  | cons q qs ih =>
    obtain ⟨mid, first, rest⟩ := execAll_cons_eq_ok.mp ok
    rw [List.flatMap_cons, ← List.append_assoc] at txids ⊢
    have early : ((txs ++ q.transactions).map (·.txid)).Nodup := by
      rw [List.map_append] at txids
      exact (List.nodup_append.mp txids).1
    obtain ⟨torn₁, checkpoint₁⟩ := torn.exec (sorts q List.mem_cons_self) early new first
    obtain ⟨torn', checkpoint⟩ := ih torn₁ (fun q mem => sorts q (List.mem_cons_of_mem _ mem))
      txids rest
    exact ⟨torn', checkpoint.trans checkpoint₁⟩

theorem Unjoined.execAll {qs : List Query} {height : ℕ} (unjoined : Unjoined g s)
    (sorts : ∀ q ∈ qs, q.Early height) (ok : execAll neo4j qs s = .ok s') : Unjoined g s' := by
  induction qs generalizing s with
  | nil =>
    cases ok
    exact unjoined
  | cons q qs ih =>
    obtain ⟨mid, first, rest⟩ := execAll_cons_eq_ok.mp ok
    exact ih (unjoined.exec (sorts q List.mem_cons_self) first)
      (fun q mem => sorts q (List.mem_cons_of_mem _ mem)) rest

end Steps

/-! ## Rolling a torn block back -/

section Rollback

variable {g s : Graph} {b : LocatedBlock} {txs : List TransactionData}

theorem Sound.includedIn_ne (sound : Sound g) (unhashed : ¬ g.blocks.Has b.block.blockHash) :
    ∀ e ∈ g.includedIn, e.2 ≠ b.block.blockHash := by
  intro e mem same
  exact unhashed (same ▸ (sound.includedIn e mem).2)

/-- The transactions of the block are those that were sent. -/
theorem Torn.inBlockAt (torn : Torn g b txs s)
    (new : ∀ e ∈ g.includedIn, e.2 ≠ b.block.blockHash) {t : Txid} :
    s.InBlockAt b.height t ↔ t ∈ txs.map (·.txid) := by
  have only : s.InBlockAt b.height t ↔ (t, b.block.blockHash) ∈ s.includedIn := by
    constructor
    · intro inBlock
      obtain ⟨n, mem, height, included⟩ := inBlock
      have here : s.blockAt b.height = some n := Graph.blockAt_eq_some.mpr ⟨mem, height⟩
      cases torn.blockAt.symm.trans here
      exact included
    · intro included
      exact ⟨_, (Graph.blockAt_eq_some.mp torn.blockAt).1, rfl, included⟩
  rw [only, torn.includedIn, Multiset.mem_add, Multiset.mem_coe, List.mem_map, List.mem_map]
  constructor
  · rintro (old | ⟨tx, mem, same⟩)
    · exact absurd rfl (new _ old)
    · exact ⟨tx, mem, congrArg Prod.fst same⟩
  · rintro ⟨tx, mem, rfl⟩
    exact Or.inr ⟨tx, mem, rfl⟩

/-- **A torn block** whose transactions are not joined to anything: deleting it leaves what there
was before exactly if no transaction and, in the end, no output was touched. -/
theorem Torn.bare_rollbackBlock_iff (torn : Torn g b txs s) (unjoined : Unjoined g s)
    (sound : Sound g) (unhashed : ¬ g.blocks.Has b.block.blockHash)
    (unused : ∀ n ∈ g.blocks, n.height ≠ b.height) (txids : (txs.map (·.txid)).Nodup) :
    (s.rollbackBlock b.height).bare = g.bare ↔
      s.outputs = g.outputs ∧ s.lockedTo = g.lockedTo ∧
        ∀ tx ∈ txs, ¬ g.transactions.Has tx.txid := by
  have new := sound.includedIn_ne (b := b) unhashed
  have inBlock := fun t => torn.inBlockAt new (t := t)
  -- once no transaction was stored before, nothing that was there belongs to the block
  have untouched : (∀ tx ∈ txs, ¬ g.transactions.Has tx.txid) →
      (∀ t, g.transactions.Has t → ¬ s.InBlockAt b.height t) ∧
      (∀ id, ¬ s.InputOfBlockAt b.height id) ∧ ∀ id, ¬ s.OutputOfBlockAt b.height id := by
    intro fresh
    have old : ∀ t, g.transactions.Has t → ¬ s.InBlockAt b.height t := by
      intro t has inside
      obtain ⟨tx, mem, rfl⟩ := List.mem_map.mp ((inBlock t).mp inside)
      exact fresh tx mem has
    refine ⟨old, ?_, ?_⟩
    · rintro id ⟨e, mem, -, inside⟩
      rw [unjoined.hasInput] at mem
      exact old _ (sound.hasInput e mem).1 inside
    · rintro id ⟨e, mem, -, inside⟩
      rw [unjoined.hasOutput] at mem
      exact old _ (sound.hasOutput e mem).1 inside
  rw [Graph.rollbackBlock_eq torn.blockAt, Graph.bare_eq_iff]
  constructor
  · rintro ⟨-, transactions, outputs, -, -, -, -, -, lockedTo, -, -, -⟩
    have fresh : ∀ tx ∈ txs, ¬ g.transactions.Has tx.txid := by
      rintro tx mem ⟨n, stored, same⟩
      rw [← transactions] at stored
      refine (Table.mem_delete.mp stored).2 ((inBlock _).mpr ?_)
      rw [same]
      exact List.mem_map_of_mem mem
    obtain ⟨-, -, kept⟩ := untouched fresh
    refine ⟨?_, ?_, fresh⟩
    · rw [← outputs]
      exact (Table.delete_eq_self fun n _ => kept _).symm
    · rw [← lockedTo]
      exact (Multiset.filter_eq_self.mpr fun e _ => kept _).symm
  · rintro ⟨outputs, lockedTo, fresh⟩
    obtain ⟨old, noInput, noOutput⟩ := untouched fresh
    have hashes : ∀ k, g.blocks.Has k → k ≠ b.block.blockHash := by
      rintro _ has rfl
      exact unhashed has
    refine ⟨?_, ?_, ?_, ?_, ?_, ?_, ?_, ?_, ?_, ?_, ?_, ?_⟩
    · show s.blocks.delete _ = g.blocks
      rw [torn.blocks]
      show ([BlockData.fromBlock b.block b.height].foldl Table.upsert g.blocks).delete _ = g.blocks
      refine Table.delete_foldl_upsert_new (List.nodup_singleton _) ?_ ?_ unused
      all_goals
        intro row mem
        cases List.mem_singleton.mp mem
      · exact unhashed
      · rfl
    · show s.transactions.delete _ = g.transactions
      rw [torn.transactions]
      refine Table.delete_foldl_upsert_new ?_ ?_ ?_ fun n mem => old _ (Table.has_of_mem mem)
      · rw [List.map_map]
        exact txids
      all_goals
        intro n mem
        obtain ⟨tx, inTxs, rfl⟩ := List.mem_map.mp mem
      · exact fresh tx inTxs
      · exact (inBlock _).mpr (List.mem_map_of_mem inTxs)
    · show s.outputs.delete _ = g.outputs
      rw [outputs]
      exact Table.delete_eq_self fun n _ => noOutput _
    · show s.inputs.delete _ = g.inputs
      rw [unjoined.inputs]
      exact Table.delete_eq_self fun n _ => noInput _
    · show s.nextBlock.filter _ = g.nextBlock
      obtain ⟨links, next, ends⟩ := torn.nextBlock
      rw [next]
      refine filter_add_new (fun e mem => ?_) fun e mem kept => kept.2 (ends e mem)
      exact ⟨hashes _ (sound.nextBlock e mem).1, hashes _ (sound.nextBlock e mem).2⟩
    · show (s.includedIn.filter _).filter _ = g.includedIn
      rw [torn.includedIn]
      refine filter_filter_add_new (fun e mem => ?_) fun e mem kept => ?_
      · exact ⟨old _ (sound.includedIn e mem).1, new e mem⟩
      · obtain ⟨tx, inTxs, rfl⟩ := List.mem_map.mp mem
        exact kept ((inBlock _).mpr (List.mem_map_of_mem inTxs))
    · show (s.hasInput.filter _).filter _ = g.hasInput
      rw [unjoined.hasInput, Multiset.filter_eq_self.mpr fun e _ => noInput _]
      exact Multiset.filter_eq_self.mpr fun e mem => old _ (sound.hasInput e mem).1
    · show (s.hasOutput.filter _).filter _ = g.hasOutput
      rw [unjoined.hasOutput, Multiset.filter_eq_self.mpr fun e _ => noOutput _]
      exact Multiset.filter_eq_self.mpr fun e mem => old _ (sound.hasOutput e mem).1
    · show s.lockedTo.filter _ = g.lockedTo
      rw [lockedTo]
      exact Multiset.filter_eq_self.mpr fun e _ => noOutput _
    · show (s.spends.filter _).filter _ = g.spends
      rw [unjoined.spends, Multiset.filter_eq_self.mpr fun e _ => noInput _]
      exact Multiset.filter_eq_self.mpr fun e _ => noOutput _
    · show s.performs.delete _ = g.performs
      rw [unjoined.performs]
      exact Table.delete_eq_self fun p mem => old _ (sound.performs p mem).2
    · show s.benefitsTo.delete _ = g.benefitsTo
      rw [unjoined.benefitsTo]
      exact Table.delete_eq_self fun p mem => old _ (sound.benefitsTo p mem).1

end Rollback

/-! ## Is it complete? -/

section Complete

variable {g s : Graph} {b : LocatedBlock} {txs : List TransactionData}

/-- A torn block counts as complete once all of its transactions are there. -/
theorem Torn.completeAt_iff (torn : Torn g b txs s)
    (new : ∀ e ∈ g.includedIn, e.2 ≠ b.block.blockHash) (small : b.block.txdata.length < 2 ^ 32)
    (within : txs.length ≤ b.block.txdata.length) : s.CompleteAt b.height ↔
      0 < b.block.txdata.length ∧ txs.length = b.block.txdata.length := by
  have counted : (s.includedIn.filter (·.2 = b.block.blockHash)).card = txs.length := by
    rw [torn.includedIn, Multiset.filter_add, Multiset.filter_eq_nil.mpr new,
      Multiset.filter_eq_self.mpr, zero_add, Multiset.coe_card, List.length_map]
    intro e mem
    obtain ⟨tx, _, rfl⟩ := List.mem_map.mp (Multiset.mem_coe.mp mem)
    rfl
  have checked : s.checkBlockComplete b.height = .ok (b.block.txdata.length, txs.length) := by
    unfold Graph.checkBlockComplete
    rw [torn.blockAt]
    show Except.ok (asU32 b.block.txdata.length,
      asU32 (s.includedIn.filter (·.2 = b.block.blockHash)).card) = _
    rw [counted, asU32_of_lt small, asU32_of_lt (Nat.lt_of_le_of_lt within small)]
  unfold Graph.CompleteAt
  rw [checked]
  constructor
  · rintro ⟨count, pos, same⟩
    obtain ⟨expected, actual⟩ := Prod.mk.inj (Except.ok.inj same)
    exact ⟨by omega, actual.trans expected.symm⟩
  · rintro ⟨pos, same⟩
    rw [same]
    exact ⟨_, pos, rfl⟩

theorem Graph.exists_getMaxBlockHeight {top : ℕ} (words : g.Words)
    (max : g.getMaxBlockHeight = some top) : ∃ n ∈ g.blocks, n.height = top := by
  unfold Graph.getMaxBlockHeight at max
  split at max
  · rename_i some
    obtain ⟨n, mem, height⟩ := Finset.exists_mem_eq_sup _ some fun n : BlockNode => n.height
    cases max
    refine ⟨n, mem, ?_⟩
    rw [height, asU32_of_lt (words n mem)]
  · cases max

theorem Torn.getMaxBlockHeight (torn : Torn g b txs s)
    (below : ∀ n ∈ g.blocks, n.height < b.height) (word : b.height < 2 ^ 32) :
    s.getMaxBlockHeight = some b.height := by
  refine Graph.getMaxBlockHeight_eq ?_ (fun n mem => ?_) word
  · rw [torn.blockAt]
    rfl
  · rw [torn.blocks] at mem
    rcases Table.mem_upsert.mp mem with rfl | ⟨old, _⟩
    · exact Nat.le_refl _
    · exact Nat.le_of_lt (below n old)

end Complete

/-! ## What the restart makes of it -/

/-- The same nodes and relationships, up to addresses without relationships. -/
structure Graph.Same (g g' : Graph) : Prop where
  bare : g.bare = g'.bare
  addresses : g.relatedAddresses = g'.relatedAddresses

theorem Sound.same_iff {g g' : Graph} (sound : Sound g) (sound' : Sound g') :
    g.Same g' ↔ g.bare = g'.bare := by
  refine ⟨Graph.Same.bare, fun bare => ⟨bare, ?_⟩⟩
  rw [sound.relatedAddresses, sound'.relatedAddresses, bare]

theorem Sound.runIo {α : Type} {g : Graph} (sound : Sound g) (p : Io α) :
    Sound (p.run handle ⟨g, none⟩).2.committed := by
  have lifted := sound.run (io p) (.new 1)
  rw [run_io] at lifted
  exact lifted

/-- The next block of a store that is complete up to its checkpoint. The stored height 255 is read
back as no checkpoint. -/
structure NextBlock (g : Graph) (b : LocatedBlock) : Prop where
  sound : Sound g
  checkpoint : g.readHeight = (b.height : ℤ) - 1 ∨ g.storedHeight = 255 ∧ b.height = 256
  complete : ∀ h < b.height, g.CompleteAt h
  below : ∀ n ∈ g.blocks, n.height < b.height
  unhashed : ¬ g.blocks.Has b.block.blockHash
  word : b.height < 2 ^ 31

theorem NextBlock.words {g : Graph} {b : LocatedBlock} (next : NextBlock g b) : g.Words := by
  intro n mem
  have low := next.below n mem
  have word := next.word
  omega

theorem NextBlock.readHeight {g : Graph} {b : LocatedBlock} (next : NextBlock g b) :
    g.readHeight = (b.height : ℤ) - 1 ∨ g.readHeight = -1 :=
  next.checkpoint.imp_right fun special => Graph.readHeight_255 special.1

namespace IngestionOrchestrator

variable {o : IngestionOrchestrator} {g s : Graph} {b : LocatedBlock}
  {txs : List TransactionData}

/-- If the highest stored block is complete, it is taken as it is. -/
theorem run_sync_complete {top : ℕ} (low : -1 ≤ s.readHeight)
    (max : s.getMaxBlockHeight = some top) (small : top < 2 ^ 31) (above : s.readHeight < top)
    (complete : s.CompleteAt top) :
    ∃ stored, o.syncCheckpointWithDb.run handle ⟨s, none⟩ =
      (.ok (top + 1), ⟨{ s with checkpoint := some stored }, none⟩) := by
  have synced := synced_above (o := o) low max small above
  have here : (s.rolledBack top (top + 1)).CompleteAt top := by
    rw [Graph.rolledBack_top]
    exact complete
  have reached : s.Reached top top := fun k above below => by omega
  generalize o.syncCheckpointWithDb.run handle ⟨s, none⟩ = r at synced
  cases synced with
  | found h stored low high reached' complete' height =>
    have same := reached'.unique reached high (Nat.le_refl _) (fun bad => bad.2 complete')
      fun bad => bad.2 here
    subst same
    rw [Graph.rolledBack_top]
    exact ⟨stored, rfl⟩
  | nothing skipped => exact absurd here (skipped top above (Nat.le_refl _)).2
  | hole e t h low high reached' none =>
    have same := reached'.unique reached high (Nat.le_refl _) (fun bad => by
      have some := bad.1
      rw [none] at some
      cases some) fun bad => bad.2 here
    subst same
    have some := here.isSome
    rw [none] at some
    cases some

/-- A torn block that does not is rolled back, and the restart resumes at it exactly if that leaves
what there was before. -/
theorem run_sync_incomplete (next : NextBlock g b) (torn : Torn g b txs s)
    (incomplete : ¬ s.CompleteAt b.height)
    (read : s.readHeight = (b.height : ℤ) - 1 ∨ s.readHeight = -1)
    {r : Except WriterError ℕ × Store neo4j}
    (ran : o.syncCheckpointWithDb.run handle ⟨s, none⟩ = r) :
    r.1 ≠ .ok (b.height + 1) ∧ (r.1 = .ok b.height ∧ r.2.committed.bare = g.bare ↔
      (s.rollbackBlock b.height).bare = g.bare) := by
  have word := next.word
  have max := torn.getMaxBlockHeight next.below (by omega)
  have synced := synced_above (o := o) (g := s) (by omega) max next.word (by omega)
  have rolled : s.rolledBack b.height b.height = s.rollbackBlock b.height := by
    rw [← Graph.rolledBack_step (Nat.le_refl _), Graph.rolledBack_top]
  -- if the rollback leaves what there was, the block below is complete
  have whole : ∀ h, h < b.height → (s.rollbackBlock b.height).bare = g.bare →
      (s.rollbackBlock b.height).CompleteAt h := by
    intro h below bare
    obtain ⟨blocks, _, _, _, _, includedIn, _⟩ := Graph.bare_eq_iff.mp bare
    exact (Graph.completeAt_congr blocks includedIn).mpr (next.complete h below)
  have stops : ∀ h, h ≤ b.height → s.Reached b.height h →
      ¬ (s.rolledBack b.height (h + 1)).IncompleteAt h →
        (s.rollbackBlock b.height).bare = g.bare → h + 1 = b.height := by
    intro h high reached stop bare
    have other : h ≠ b.height := by
      rintro rfl
      rw [Graph.rolledBack_top] at stop
      exact stop ⟨by rw [torn.blockAt]; rfl, incomplete⟩
    by_contra away
    have bad := reached (b.height - 1) (by omega) (by omega)
    rw [Nat.sub_add_cancel (by omega), rolled] at bad
    exact bad.2 (whole _ (by omega) bare)
  rw [ran] at synced
  cases synced with
  | found h stored low high reached complete height =>
    have other : h ≠ b.height := by
      rintro rfl
      rw [Graph.rolledBack_top] at complete
      exact incomplete complete
    refine ⟨fun same => other ?_, fun back => ?_, fun bare => ?_⟩
    · have := Except.ok.inj same
      omega
    · have up : h + 1 = b.height := Except.ok.inj back.1
      have left : (s.rolledBack b.height (h + 1)).bare = g.bare := back.2
      rw [up, rolled] at left
      exact left
    · have up := stops h high reached (fun bad => bad.2 complete) bare
      refine ⟨by rw [up], ?_⟩
      show (s.rolledBack b.height (h + 1)).bare = g.bare
      rw [up, rolled]
      exact bare
  | nothing skipped =>
    refine ⟨fun same => ?_, ?_⟩
    · have := Except.ok.inj same
      omega
    by_cases resume : (s.readHeight + 1).toNat = b.height
    · rw [resume, rolled]
      exact and_iff_right rfl
    · refine ⟨fun back => absurd (Except.ok.inj back.1) resume, fun bare => ?_⟩
      have bad := skipped (b.height - 1) (by omega) (by omega)
      rw [Nat.sub_add_cancel (by omega), rolled] at bad
      exact absurd (whole _ (by omega) bare) bad.2
  | hole e t h low high reached none =>
    have stop : ¬ (s.rolledBack b.height (h + 1)).IncompleteAt h := fun bad => by
      have some := bad.1
      rw [none] at some
      cases some
    refine ⟨fun same => ?_, fun back => ?_, fun bare => ?_⟩
    · cases same
    · cases back.1
    have up := stops h high reached stop bare
    rw [up, rolled] at none
    have some := (whole h (by omega) bare).isSome
    rw [none] at some
    cases some

end IngestionOrchestrator

end ChainGraph

import ChainGraph.Laws.Image

/-!
# Reorganization

A rollback deletes the blocks above the fork one by one, from the tip down. Deleting the block a
graph has last grown by leaves the graph there was before, except for addresses and the checkpoint,
which it does not touch. So a chain that is ingested after a rollback to where it forks from another
leaves the graph it would have left from the start.
-/

namespace ChainGraph

open Foundation Foundation.Store

namespace Graph

/-- The four delete statements of one height. -/
def rollbackBlock (g : Graph) (height : ℕ) : Graph :=
  let g := g.detachDeleteInputs (g.InputOfBlockAt height)
  let g := g.detachDeleteOutputs (g.OutputOfBlockAt height)
  let g := g.detachDeleteTransactions (g.InBlockAt height)
  g.detachDeleteBlockAt height

/-- The graph without what a rollback never touches. -/
def bare (g : Graph) : Graph := { g with addresses := ∅, checkpoint := none }

/-- What the four statements leave, all at once. -/
theorem rollbackBlock_eq {g : Graph} {height : ℕ} {n : BlockNode}
    (stored : g.blockAt height = some n) : g.rollbackBlock height =
      { g with
        blocks := g.blocks.delete fun c => c.height = height
        heightUnique := fun c hc d hd =>
          g.heightUnique c (Table.mem_delete.mp hc).1 d (Table.mem_delete.mp hd).1
        transactions := g.transactions.delete fun t => g.InBlockAt height t.txid
        outputs := g.outputs.delete fun o => g.OutputOfBlockAt height o.outputId
        inputs := g.inputs.delete fun i => g.InputOfBlockAt height i.inputId
        nextBlock := g.nextBlock.filter fun e => e.1 ≠ n.hash ∧ e.2 ≠ n.hash
        includedIn := (g.includedIn.filter fun e => ¬ g.InBlockAt height e.1).filter
          fun e => e.2 ≠ n.hash
        hasInput := (g.hasInput.filter fun e => ¬ g.InputOfBlockAt height e.2).filter
          fun e => ¬ g.InBlockAt height e.1
        hasOutput := (g.hasOutput.filter fun e => ¬ g.OutputOfBlockAt height e.2).filter
          fun e => ¬ g.InBlockAt height e.1
        lockedTo := g.lockedTo.filter fun e => ¬ g.OutputOfBlockAt height e.1
        spends := (g.spends.filter fun e => ¬ g.InputOfBlockAt height e.1).filter
          fun e => ¬ g.OutputOfBlockAt height e.2
        performs := g.performs.delete fun r => g.InBlockAt height r.toTxid
        benefitsTo := g.benefitsTo.delete fun r => g.InBlockAt height r.fromTxid } := by
  unfold rollbackBlock
  dsimp only
  unfold detachDeleteBlockAt
  rw [show (((g.detachDeleteInputs (g.InputOfBlockAt height)).detachDeleteOutputs
    ((g.detachDeleteInputs (g.InputOfBlockAt height)).OutputOfBlockAt
      height)).detachDeleteTransactions
    (((g.detachDeleteInputs (g.InputOfBlockAt height)).detachDeleteOutputs
      ((g.detachDeleteInputs (g.InputOfBlockAt height)).OutputOfBlockAt height)).InBlockAt
        height)).blockAt height = some n from stored]
  rfl

theorem bare_detachDeleteBlockAt (g : Graph) (height : ℕ) :
    (g.detachDeleteBlockAt height).bare = g.bare.detachDeleteBlockAt height := by
  unfold detachDeleteBlockAt
  rw [show g.bare.blockAt height = g.blockAt height from rfl]
  cases g.blockAt height <;> rfl

/-- A rollback sees and changes the bare graph only. -/
theorem bare_rollbackBlock (g : Graph) (height : ℕ) :
    (g.rollbackBlock height).bare = g.bare.rollbackBlock height :=
  bare_detachDeleteBlockAt ..

/-! ## Rolling back to a height -/

theorem mem_blocks_detachDeleteBlockAt {g : Graph} {height : ℕ} {n : BlockNode} :
    n ∈ (g.detachDeleteBlockAt height).blocks ↔ n ∈ g.blocks ∧ n.height ≠ height := by
  unfold detachDeleteBlockAt
  cases stored : g.blockAt height with
  | none => exact ⟨fun mem => ⟨mem, blockAt_eq_none.mp stored n mem⟩, And.left⟩
  | some b => exact Table.mem_delete

theorem mem_blocks_foldl_rollbackBlock {heights : List ℕ} {g : Graph} {n : BlockNode} :
    n ∈ (heights.foldl rollbackBlock g).blocks ↔ n ∈ g.blocks ∧ n.height ∉ heights := by
  induction heights generalizing g with
  | nil => simp
  | cons height heights ih =>
    rw [List.foldl_cons, ih, List.mem_cons, not_or, ← and_assoc]
    exact and_congr_left fun _ => mem_blocks_detachDeleteBlockAt

theorem checkpoint_foldl_rollbackBlock (heights : List ℕ) (g : Graph) :
    (heights.foldl rollbackBlock g).checkpoint = g.checkpoint := by
  induction heights generalizing g with
  | nil => rfl
  | cons height heights ih =>
    rw [List.foldl_cons, ih]
    unfold rollbackBlock detachDeleteBlockAt
    dsimp only
    split <;> rfl

/-- The checkpoint a rollback leaves at the fork point. -/
def forkCheckpoint (forkPoint : ℕ) (hash : BlockHash) : CheckpointData where
  lastProcessedHeight := asI32 forkPoint
  lastProcessedHash := some hash
  lastProcessedFile := "rpc"
  lastProcessedFileOffset := none
  status := "in_progress"

/-- The graph with its checkpoint at the fork point, if there is a block. -/
def checkpointAt (g : Graph) (forkPoint : ℕ) : Graph :=
  match g.lookupBlockHash forkPoint with
  | some hash => { g with checkpoint := some (.ofData (forkCheckpoint forkPoint hash)) }
  | none => g

@[simp] theorem blocks_checkpointAt (g : Graph) (forkPoint : ℕ) :
    (g.checkpointAt forkPoint).blocks = g.blocks := by
  unfold checkpointAt
  split <;> rfl

/-- What a rollback from a tip to a fork point leaves. -/
def rollbackTo (g : Graph) (currentTip forkPoint : ℕ) : Graph :=
  if forkPoint ≥ currentTip then g
  else ((IngestionOrchestrator.heightsDown (forkPoint + 1) currentTip).foldl rollbackBlock
    g).checkpointAt forkPoint

theorem mem_heightsDown {first last height : ℕ} :
    height ∈ IngestionOrchestrator.heightsDown first last ↔ first ≤ height ∧ height ≤ last := by
  unfold IngestionOrchestrator.heightsDown
  rw [List.mem_reverse, List.mem_range'_1]
  omega

/-- A rollback deletes the blocks above the fork point, up to the tip. -/
theorem mem_blocks_rollbackTo {g : Graph} {currentTip forkPoint : ℕ} {n : BlockNode} :
    n ∈ (g.rollbackTo currentTip forkPoint).blocks ↔
      n ∈ g.blocks ∧ ¬ (forkPoint < n.height ∧ n.height ≤ currentTip) := by
  unfold rollbackTo
  by_cases above : forkPoint ≥ currentTip
  · rw [if_pos above]
    refine ⟨fun mem => ⟨mem, by omega⟩, And.left⟩
  · rw [if_neg above, blocks_checkpointAt, mem_blocks_foldl_rollbackBlock, mem_heightsDown]
    rfl

theorem lookupBlockHash_eq_some {g : Graph} {height : ℕ} {hash : BlockHash} :
    g.lookupBlockHash height = some hash ↔ ∃ n ∈ g.blocks, n.height = height ∧ n.hash = hash := by
  unfold lookupBlockHash
  rw [Option.map_eq_some_iff]
  constructor
  · intro found
    obtain ⟨n, stored, same⟩ := found
    obtain ⟨mem, height⟩ := blockAt_eq_some.mp stored
    exact ⟨n, mem, height, same⟩
  · intro found
    obtain ⟨n, mem, height, same⟩ := found
    exact ⟨n, blockAt_eq_some.mpr ⟨mem, height⟩, same⟩

/-- A rollback that deletes something leaves the checkpoint at the fork point. -/
theorem checkpoint_rollbackTo {g : Graph} {currentTip forkPoint : ℕ} {hash : BlockHash}
    (below : forkPoint < currentTip) (stored : g.lookupBlockHash forkPoint = some hash) :
    (g.rollbackTo currentTip forkPoint).checkpoint =
      some (.ofData (forkCheckpoint forkPoint hash)) := by
  obtain ⟨n, mem, height, same⟩ := lookupBlockHash_eq_some.mp stored
  have kept : ((IngestionOrchestrator.heightsDown (forkPoint + 1) currentTip).foldl rollbackBlock
      g).lookupBlockHash forkPoint = some hash := by
    refine lookupBlockHash_eq_some.mpr ⟨n, ?_, height, same⟩
    rw [mem_blocks_foldl_rollbackBlock, mem_heightsDown]
    refine ⟨mem, fun above => ?_⟩
    omega
  unfold rollbackTo checkpointAt
  rw [if_neg (Nat.not_le.mpr below), kept]

end Graph

namespace IngestionOrchestrator

variable {o : IngestionOrchestrator} {res : Found} {g g' : Graph} {b : LocatedBlock}

theorem run_rollbackBlock (height : ℕ) (g : Graph) :
    (Neo4jWriter.rollbackBlock height).run handle ⟨g, none⟩ =
      (.ok (), ⟨g.rollbackBlock height, none⟩) :=
  (Neo4jWriter.direct_rollbackBlock height).ok rfl

theorem run_rollbackBlocks (heights : List ℕ) (g : Graph) :
    (heights.forM Neo4jWriter.rollbackBlock).run handle ⟨g, none⟩ =
      (.ok (), ⟨heights.foldl Graph.rollbackBlock g, none⟩) := by
  rw [List.forM_eq_forM]
  induction heights generalizing g with
  | nil => rfl
  | cons height heights ih =>
    rw [List.forM_cons, Prog.run_bind_ok (run_rollbackBlock height g), ih]
    rfl

theorem run_moveCheckpoint (forkPoint : ℕ) (g : Graph) :
    (o.moveCheckpoint forkPoint).run handle ⟨g, none⟩ =
      (.ok (), ⟨g.checkpointAt forkPoint, none⟩) := by
  unfold moveCheckpoint Graph.checkpointAt
  rw [Prog.run_bind, Neo4jWriter.run_lookupBlockHash]
  dsimp only
  cases g.lookupBlockHash forkPoint with
  | none => rfl
  | some hash => exact Neo4jWriter.direct_updateCheckpoint.ok rfl

/-- A rollback always succeeds. -/
theorem run_rollbackToHeight (currentTip forkPoint : ℕ) (g : Graph) :
    (o.rollbackToHeight currentTip forkPoint).run handle ⟨g, none⟩ =
      (.ok (currentTip - forkPoint), ⟨g.rollbackTo currentTip forkPoint, none⟩) := by
  unfold rollbackToHeight Graph.rollbackTo
  by_cases above : forkPoint ≥ currentTip
  · rw [if_pos above, if_pos above, Nat.sub_eq_zero_of_le above]
    rfl
  · rw [if_neg above, if_neg above, Prog.run_bind_ok (run_rollbackBlocks ..),
      Prog.run_bind_ok (run_moveCheckpoint ..)]
    rfl

/-! ## One block is undone -/

section Undo

variable (grown : o.Grown res g [b] g') (sound : Sound g) (fresh : o.Fresh [b] g)

include grown fresh

theorem mem_blocks_of_grown {n : BlockNode} :
    n ∈ g'.blocks ↔ n = .fromBlock b.block b.height ∨ n ∈ g.blocks := by
  rw [grown.blocks, Table.mem_foldl_upsert_new fresh.blocks.hashes fresh.blocks.free]
  exact or_congr_left List.mem_singleton

include sound

/-- The transactions of the new block. -/
theorem inBlockAt_grown {t : Txid} :
    g'.InBlockAt b.height t ↔ ∃ tx ∈ txsOf [b], tx.txid = t := by
  have own : (t, b.block.blockHash) ∈ g'.includedIn ↔ ∃ tx ∈ txsOf [b], tx.txid = t := by
    rw [grown.includedIn, Multiset.mem_add, Multiset.mem_coe]
    constructor
    · rintro (old | new)
      · exact absurd (sound.includedIn _ old).2 (fresh.blocks.free _ (List.mem_singleton.mpr rfl))
      · obtain ⟨c, hc, inBlock⟩ := List.mem_flatMap.mp new
        obtain ⟨tx, htx, same⟩ := List.mem_map.mp inBlock
        exact ⟨tx, List.mem_flatMap.mpr ⟨c, hc, htx⟩, congrArg Prod.fst same⟩
    · rintro ⟨tx, mem, rfl⟩
      rw [txsOf_singleton] at mem
      exact Or.inr (List.mem_flatMap.mpr
        ⟨b, List.mem_singleton.mpr rfl, List.mem_map.mpr ⟨tx, mem, rfl⟩⟩)
  rw [← own]
  constructor
  · rintro ⟨n, mem, height, included⟩
    rcases (mem_blocks_of_grown grown fresh).mp mem with rfl | old
    · exact included
    · exact absurd height (fresh.blocks.unused _ (List.mem_singleton.mpr rfl) n old)
  · exact fun included =>
      ⟨_, (mem_blocks_of_grown grown fresh).mpr (Or.inl rfl), rfl, included⟩

/-- A stored transaction is not one of them. -/
theorem not_inBlockAt_of_has {t : Txid} (stored : g.transactions.Has t) :
    ¬ g'.InBlockAt b.height t := by
  rw [inBlockAt_grown grown sound fresh]
  rintro ⟨tx, mem, rfl⟩
  exact fresh.rows.transactions tx mem stored

theorem inputOfBlockAt_grown {id : InputId} :
    g'.InputOfBlockAt b.height id ↔ id ∈ (inputRows [b]).map (·.inputId) := by
  unfold Graph.InputOfBlockAt
  rw [grown.hasInput]
  constructor
  · rintro ⟨e, mem, rfl, inBlock⟩
    rcases Multiset.mem_add.mp mem with old | new
    · exact absurd inBlock (not_inBlockAt_of_has grown sound fresh (sound.hasInput e old).1)
    · obtain ⟨inp, hinp, rfl⟩ := List.mem_map.mp (Multiset.mem_coe.mp new)
      exact List.mem_map_of_mem hinp
  · intro mem
    obtain ⟨inp, hinp, rfl⟩ := List.mem_map.mp mem
    obtain ⟨tx, inChain, same⟩ := txid_of_mem_inputRows hinp
    exact ⟨(inp.txid, inp.inputId), Multiset.mem_add.mpr (Or.inr (Multiset.mem_coe.mpr
      (List.mem_map.mpr ⟨inp, hinp, rfl⟩))), rfl,
      (inBlockAt_grown grown sound fresh).mpr ⟨tx, inChain, same⟩⟩

theorem outputOfBlockAt_grown {id : OutputId} :
    g'.OutputOfBlockAt b.height id ↔ id ∈ (o.outputRows [b]).map (·.outputId) := by
  unfold Graph.OutputOfBlockAt
  rw [grown.hasOutput]
  constructor
  · rintro ⟨e, mem, rfl, inBlock⟩
    rcases Multiset.mem_add.mp mem with old | new
    · exact absurd inBlock (not_inBlockAt_of_has grown sound fresh (sound.hasOutput e old).1)
    · obtain ⟨out, hout, rfl⟩ := List.mem_map.mp (Multiset.mem_coe.mp new)
      exact List.mem_map_of_mem hout
  · intro mem
    obtain ⟨out, hout, rfl⟩ := List.mem_map.mp mem
    obtain ⟨tx, inChain, same⟩ := txid_of_mem_outputRows hout
    exact ⟨(out.txid, out.outputId), Multiset.mem_add.mpr (Or.inr (Multiset.mem_coe.mpr
      (List.mem_map.mpr ⟨out, hout, rfl⟩))), rfl,
      (inBlockAt_grown grown sound fresh).mpr ⟨tx, inChain, same⟩⟩

theorem not_inputOfBlockAt_of_has {id : InputId} (stored : g.inputs.Has id) :
    ¬ g'.InputOfBlockAt b.height id := by
  rw [inputOfBlockAt_grown grown sound fresh]
  intro mem
  obtain ⟨inp, hinp, rfl⟩ := List.mem_map.mp mem
  exact fresh.rows.inputs inp hinp stored

theorem not_outputOfBlockAt_of_has {id : OutputId} (stored : g.outputs.Has id) :
    ¬ g'.OutputOfBlockAt b.height id := by
  rw [outputOfBlockAt_grown grown sound fresh]
  intro mem
  obtain ⟨out, hout, rfl⟩ := List.mem_map.mp mem
  exact fresh.rows.outputs out hout stored

end Undo

end IngestionOrchestrator

end ChainGraph

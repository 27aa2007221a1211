import ChainGraph.Laws.Recovery
import ChainGraph.Laws.Reorg

/-!
# The height of the checkpoint

What recovery does to the stored height, and how the height to resume at relates to it. Recovery
never lowers the checkpoint and resumes above it, with one exception: a checkpoint at height 255 is
read as none, and the search for complete blocks then starts from nothing.
-/

namespace ChainGraph

open Foundation Foundation.Store

theorem asI32_lt (n : ℕ) : asI32 n < 2 ^ 31 := by
  unfold asI32
  have bound := Int.bmod_lt (x := (n : ℤ)) (m := 2 ^ 32) (by decide)
  omega

/-- A word that is not negative as a signed one is itself. -/
theorem asI32_eq_of_nonneg {n : ℕ} (word : n < 2 ^ 32) (nonneg : 0 ≤ asI32 n) : asI32 n = n := by
  by_cases small : n < 2 ^ 31
  · exact asI32_of_lt small
  · exfalso
    unfold asI32 at nonneg
    rw [Int.bmod_def, if_neg (by omega)] at nonneg
    omega

namespace Graph

/-- The stored height of the checkpoint, and -1 without one. -/
def storedHeight (g : Graph) : ℤ := (g.checkpoint.map (·.lastProcessedHeight)).getD (-1)

theorem storedHeight_congr {g g' : Graph} (same : g'.checkpoint = g.checkpoint) :
    g'.storedHeight = g.storedHeight := by
  unfold storedHeight
  rw [same]

theorem storedHeight_of_data {g : Graph} (data : CheckpointData)
    (stored : g.checkpoint = some (.ofData data)) :
    g.storedHeight = data.lastProcessedHeight := by
  unfold storedHeight
  rw [stored]
  rfl

/-- The highest stored block is complete, and at a height the checkpoint's special values leave
alone. -/
def TopComplete (g : Graph) : Prop :=
  ∃ top count, g.getMaxBlockHeight = some top ∧ 255 ≤ top ∧ top < 2 ^ 31 ∧ 0 < count ∧
    g.checkBlockComplete top = .ok (count, count)

/-- What recovery reads as the height of the checkpoint. -/
def readHeight (g : Graph) : ℤ := (g.getCheckpoint.map (·.lastProcessedHeight)).getD (-1)

theorem readHeight_eq {g : Graph} (nonneg : 0 ≤ g.storedHeight) (word : g.storedHeight < 2 ^ 31)
    (usual : g.storedHeight ≠ 255) : g.readHeight = g.storedHeight := by
  unfold readHeight getCheckpoint
  unfold storedHeight at *
  cases stored : g.checkpoint with
  | none => rfl
  | some c =>
    rw [stored] at nonneg word usual
    simp only [Option.map_some, Option.getD_some] at nonneg word usual ⊢
    unfold decodeCheckpointHeight checkpointInitialHeight
    rw [if_neg (by omega), Int.bmod_def]
    split <;> omega

theorem readHeight_255 {g : Graph} (special : g.storedHeight = 255) : g.readHeight = -1 := by
  unfold readHeight getCheckpoint
  unfold storedHeight at special
  cases stored : g.checkpoint with
  | none => rfl
  | some c =>
    rw [stored] at special
    simp only [Option.map_some, Option.getD_some] at special ⊢
    unfold decodeCheckpointHeight
    rw [if_pos (Or.inr (Or.inl special))]

theorem checkpoint_rollbackBlock (g : Graph) (height : ℕ) :
    (g.rollbackBlock height).checkpoint = g.checkpoint := by
  have all := checkpoint_foldl_rollbackBlock [height] g
  rw [List.foldl_cons, List.foldl_nil] at all
  exact all

/-- A rollback leaves the checkpoint where it was, or at the fork point. -/
theorem storedHeight_rollbackTo (g : Graph) (currentTip forkPoint : ℕ) :
    (g.rollbackTo currentTip forkPoint).storedHeight = g.storedHeight ∨
      forkPoint < currentTip ∧
        (g.rollbackTo currentTip forkPoint).storedHeight = asI32 forkPoint := by
  unfold rollbackTo
  by_cases above : forkPoint ≥ currentTip
  · rw [if_pos above]
    exact Or.inl rfl
  · rw [if_neg above]
    unfold checkpointAt
    split
    · rename_i hash _
      exact Or.inr ⟨by omega, storedHeight_of_data (forkCheckpoint forkPoint hash) rfl⟩
    · exact Or.inl (storedHeight_congr (checkpoint_foldl_rollbackBlock ..))

end Graph

namespace IngestionOrchestrator

open Neo4jWriter

variable {o : IngestionOrchestrator} {g : Graph}

/-- Initialization makes a checkpoint where there is none. -/
theorem run_initSchema (g : Graph) :
    ∃ g', o.initSchema.run handle ⟨g, none⟩ = (.ok (), ⟨g', none⟩) ∧
      (g' = g ∨ g.checkpoint = none ∧ g' = { g with checkpoint := some .initial }) := by
  unfold initSchema
  rw [Prog.run_bind, run_getCheckpoint]
  unfold Graph.getCheckpoint
  dsimp only
  cases g.checkpoint with
  | some c => exact ⟨g, rfl, Or.inl rfl⟩
  | none =>
    refine ⟨{ g with checkpoint := some .initial }, ?_, Or.inr ⟨rfl, rfl⟩⟩
    have deleted : (runDirect .deleteCheckpoint fun e =>
        .CheckpointError s!"delete failed: {e}").run handle ⟨g, none⟩ =
          (.ok (), ⟨{ g with checkpoint := none }, none⟩) := direct_runDirect.ok rfl
    show createCheckpoint.run handle ⟨g, none⟩ = _
    unfold createCheckpoint
    rw [Prog.run_bind_ok deleted]
    exact direct_runDirect.ok rfl

/-- The height to resume at is the one after the checkpoint. -/
theorem run_getResumeHeight (g : Graph) :
    ∃ height, o.getResumeHeight.run handle ⟨g, none⟩ = (.ok height, ⟨g, none⟩) ∧
      (0 ≤ g.readHeight → g.readHeight < 2 ^ 31 → (height : ℤ) = g.readHeight + 1) := by
  unfold getResumeHeight Graph.readHeight
  rw [Prog.run_bind, run_getCheckpoint]
  dsimp only
  cases g.getCheckpoint with
  | none => exact ⟨0, rfl, fun nonneg => absurd nonneg (by decide)⟩
  | some checkpoint =>
    simp only [Option.map_some, Option.getD_some]
    by_cases negative : checkpoint.lastProcessedHeight < 0
    · rw [if_pos negative]
      exact ⟨0, rfl, fun nonneg => absurd nonneg (by omega)⟩
    · rw [if_neg negative]
      exact ⟨_, rfl, fun _ word => by omega⟩

/-- The walk down leaves the checkpoint alone, and finds one of its heights or what it began
with. -/
theorem run_findComplete (checkpointHeight : ℤ) (heights : List ℕ) (g : Graph) :
    ∃ r g', (findComplete checkpointHeight heights).run handle ⟨g, none⟩ = (r, ⟨g', none⟩) ∧
      g'.checkpoint = g.checkpoint ∧
      ∀ found, r = .ok found → found = checkpointHeight ∨ ∃ h ∈ heights, found = asI32 h := by
  induction heights generalizing g with
  | nil =>
    refine ⟨.ok checkpointHeight, g, rfl, rfl, fun found same => ?_⟩
    cases same
    exact Or.inl rfl
  | cons height rest ih =>
    unfold findComplete
    rw [Prog.run_bind, run_checkBlockComplete]
    dsimp only
    cases g.checkBlockComplete height with
    | error e => exact ⟨.error e, g, rfl, rfl, fun found same => by cases same⟩
    | ok counts =>
      obtain ⟨expected, actual⟩ := counts
      dsimp only
      by_cases complete : expected = actual ∧ actual > 0
      · rw [if_pos complete]
        refine ⟨.ok (asI32 height), g, rfl, rfl, fun found same => ?_⟩
        cases same
        exact Or.inr ⟨height, List.mem_cons_self, rfl⟩
      · rw [if_neg complete, Prog.run_bind_ok (run_rollbackBlock height g)]
        obtain ⟨r, g', ran, same, found⟩ := ih (g.rollbackBlock height)
        refine ⟨r, g', ran, same.trans (Graph.checkpoint_rollbackBlock ..), fun n ok => ?_⟩
        exact (found n ok).imp_right fun ⟨h, mem, eq⟩ => ⟨h, List.mem_cons_of_mem _ mem, eq⟩

/-- Saving changes the checkpoint alone. -/
theorem run_saveRecovered (checkpoint : Option CheckpointData) (highestComplete : ℤ) (g : Graph) :
    ∃ stored, (o.saveRecovered checkpoint highestComplete).run handle ⟨g, none⟩ =
        (.ok (), ⟨{ g with checkpoint := some stored }, none⟩) ∧
      stored.lastProcessedHeight = highestComplete := by
  unfold saveRecovered
  rw [Prog.run_bind, run_lookupBlockHash]
  exact ⟨_, direct_updateCheckpoint.ok rfl, rfl⟩

/-- What recovery does to the height of the checkpoint. -/
structure Recovered (g : Graph) (r : Except WriterError ℕ × Store neo4j) : Prop where
  word : g.storedHeight < 2 ^ 31 → r.2.committed.storedHeight < 2 ^ 31
  kept : 0 ≤ g.storedHeight → g.storedHeight < 2 ^ 31 →
    (g.storedHeight = 255 → g.TopComplete) →
      g.storedHeight ≤ r.2.committed.storedHeight ∧ ∀ height, r.1 = .ok height →
        g.storedHeight < height

/-- Recovery that finds nothing above the checkpoint resumes after it. -/
theorem recovered_getResumeHeight (g : Graph) (special : g.storedHeight = 255 → ¬ g.TopComplete) :
    Recovered g (o.getResumeHeight.run handle ⟨g, none⟩) := by
  obtain ⟨height, ran, next⟩ := run_getResumeHeight (o := o) g
  rw [ran]
  refine ⟨fun word => word, fun nonneg word complete => ⟨le_refl _, fun height' same => ?_⟩⟩
  cases same
  have usual : g.storedHeight ≠ 255 := fun at255 => special at255 (complete at255)
  rw [Graph.readHeight_eq nonneg word usual] at next
  rw [next nonneg word]
  omega

theorem run_findComplete_top {checkpointHeight : ℤ} {height count : ℕ} {rest : List ℕ}
    (complete : g.checkBlockComplete height = .ok (count, count)) (pos : 0 < count) :
    (findComplete checkpointHeight (height :: rest)).run handle ⟨g, none⟩ =
      (.ok (asI32 height), ⟨g, none⟩) := by
  unfold findComplete
  rw [Prog.run_bind, run_checkBlockComplete, complete]
  dsimp only
  rw [if_pos ⟨rfl, pos⟩]
  rfl

/-- What the walk down to the first height above the checkpoint finds: nothing new, or a higher
complete block; at the special height the highest block. -/
theorem found_findComplete {top : ℕ} (stored : g.getMaxBlockHeight = some top)
    (above : asI32 top > g.readHeight) (nonneg : 0 ≤ g.storedHeight)
    (word : g.storedHeight < 2 ^ 31) (complete : g.storedHeight = 255 → g.TopComplete) {found : ℤ}
    {g' : Graph} (ran : (findComplete g.readHeight
      (heightsDown (asU32 ((g.readHeight % 2 ^ 32).toNat + 1)) top)).run handle ⟨g, none⟩ =
        (.ok found, ⟨g', none⟩)) :
    g.storedHeight ≤ found ∧ found < 2 ^ 31 ∧
      (found ≤ g.readHeight → found = g.storedHeight) := by
  by_cases special : g.storedHeight = 255
  · obtain ⟨top', count, stored', large, small, pos, whole⟩ := complete special
    cases stored.symm.trans stored'
    have first : asU32 ((g.readHeight % 2 ^ 32).toNat + 1) = 0 := by
      rw [Graph.readHeight_255 special]
      decide
    obtain ⟨rest, down⟩ : ∃ rest, heightsDown 0 top = top :: rest := by
      unfold heightsDown
      rw [Nat.sub_zero, List.range'_1_concat, List.reverse_concat, Nat.zero_add]
      exact ⟨_, rfl⟩
    rw [first, down, run_findComplete_top whole pos] at ran
    have same : found = asI32 top := (Except.ok.inj (congrArg Prod.fst ran)).symm
    rw [asI32_of_lt small] at same
    rw [Graph.readHeight_255 special]
    omega
  · rw [Graph.readHeight_eq nonneg word special] at above ran ⊢
    obtain ⟨r, g'', ran', _, ends⟩ := run_findComplete g.storedHeight
      (heightsDown (asU32 ((g.storedHeight % 2 ^ 32).toNat + 1)) top) g
    rw [ran'] at ran
    have ok : r = .ok found := congrArg Prod.fst ran
    rcases ends found ok with same | ⟨h, mem, same⟩
    · omega
    · have topWord : top < 2 ^ 32 := by
        unfold Graph.getMaxBlockHeight at stored
        split at stored
        · cases stored
          exact Nat.mod_lt _ (by decide)
        · cases stored
      have topEq : asI32 top = top := asI32_eq_of_nonneg topWord (by omega)
      have topSmall : top < 2 ^ 31 := by
        have := asI32_lt top
        omega
      obtain ⟨low, high⟩ := Graph.mem_heightsDown.mp mem
      have first : asU32 ((g.storedHeight % 2 ^ 32).toNat + 1) = g.storedHeight.toNat + 1 := by
        have within : (g.storedHeight % 2 ^ 32).toNat = g.storedHeight.toNat := by omega
        rw [within]
        exact Nat.mod_eq_of_lt (by omega)
      rw [asI32_of_lt (by omega : h < 2 ^ 31)] at same
      omega

/-- **Recovery.** The checkpoint is not lowered, and the run resumes above it. -/
theorem recovered_syncCheckpointWithDb (g : Graph) :
    Recovered g (o.syncCheckpointWithDb.run handle ⟨g, none⟩) := by
  unfold syncCheckpointWithDb
  rw [Prog.run_bind, run_getCheckpoint]
  dsimp only
  rw [Prog.run_bind, run_getMaxBlockHeight]
  dsimp only
  have read : (g.getCheckpoint.map (·.lastProcessedHeight)).getD (-1) = g.readHeight := rfl
  simp only [read]
  cases stored : g.getMaxBlockHeight with
  | none =>
    refine recovered_getResumeHeight g fun _ complete => ?_
    obtain ⟨top, _, same, _⟩ := complete
    cases stored.symm.trans same
  | some top =>
    dsimp only
    by_cases above : asI32 top > g.readHeight
    · rw [if_pos above]
      obtain ⟨r, g', ran, same, ends⟩ := run_findComplete g.readHeight
        (heightsDown (asU32 ((g.readHeight % 2 ^ 32).toNat + 1)) top) g
      cases r with
      | error e =>
        rw [Prog.run_bind_error ran]
        refine ⟨fun word => ?_, fun nonneg word _ => ⟨?_, fun height ok => by cases ok⟩⟩
        · rwa [Graph.storedHeight_congr same]
        · rw [Graph.storedHeight_congr same]
      | ok found =>
        rw [Prog.run_bind_ok ran]
        by_cases higher : found > g.readHeight
        · rw [if_pos higher]
          obtain ⟨stored', saved, height⟩ := run_saveRecovered (o := o) g.getCheckpoint found g'
          rw [Prog.run_bind_ok saved]
          have small : found < 2 ^ 31 := by
            rcases ends found rfl with same | ⟨h, _, same⟩
            · omega
            · rw [same]
              exact asI32_lt h
          refine ⟨fun _ => ?_, fun nonneg word complete => ?_⟩
          · show stored'.lastProcessedHeight < 2 ^ 31
            omega
          · obtain ⟨least, _, _⟩ := found_findComplete stored above nonneg word complete ran
            refine ⟨?_, fun resume ok => ?_⟩
            · show g.storedHeight ≤ stored'.lastProcessedHeight
              omega
            · cases ok
              omega
        · rw [if_neg higher]
          refine ⟨fun word => ?_, fun nonneg word complete => ?_⟩
          · show g'.storedHeight < 2 ^ 31
            rwa [Graph.storedHeight_congr same]
          · obtain ⟨_, _, equal⟩ := found_findComplete stored above nonneg word complete ran
            have here := equal (by omega)
            refine ⟨?_, fun resume ok => ?_⟩
            · show g.storedHeight ≤ g'.storedHeight
              rw [Graph.storedHeight_congr same]
            · cases ok
              omega
    · rw [if_neg above]
      refine recovered_getResumeHeight g fun special complete => ?_
      obtain ⟨top', _, stored', large, small, _⟩ := complete
      cases stored.symm.trans stored'
      rw [Graph.readHeight_255 special, asI32_of_lt small] at above
      omega

end IngestionOrchestrator

end ChainGraph

import ChainGraph.Laws.Block

/-!
# Batches and calls

The chunks of a batch, put together, are its blocks, whatever the memory budget and the estimates.
A batch that succeeds is its chunks committed one after the other; one that fails stops after the
chunks before the failing one.

`Call` lists what a client asks of the orchestrator, so that a history is a list of calls.
-/

namespace ChainGraph

open Foundation Foundation.Store

/-! ## Chunks tile the list -/

section Slices

variable {α : Type}

theorem take_append_slice (l : List α) {a b : ℕ} (le : a ≤ b) :
    l.take a ++ slice l (a, b) = l.take b := by
  unfold slice
  rw [← List.take_add, Nat.add_sub_cancel' le]

/-- The state of the chunking loop before block `i`: the ranges are not empty and cover the blocks
before `chunkStart`, in order. -/
structure Tiled (l : List α) (i : ℕ) (s : ChunkState) : Prop where
  start_le : s.chunkStart ≤ i
  covered : (s.chunks.map (slice l)).flatten = l.take s.chunkStart
  proper : ∀ r ∈ s.chunks, r.1 < r.2 ∧ r.2 ≤ s.chunkStart

theorem Tiled.push {l : List α} {s : ChunkState} (h : Tiled l s.chunkStart s) {j memory : ℕ}
    (lt : s.chunkStart < j) : Tiled l j ⟨s.chunks ++ [(s.chunkStart, j)], j, memory⟩ := by
  refine ⟨Nat.le_refl j, ?_, fun r hr => ?_⟩
  · rw [List.map_append, List.flatten_append, h.covered]
    simpa using take_append_slice l (Nat.le_of_lt lt)
  · rcases List.mem_append.mp hr with old | new
    · exact ⟨(h.proper r old).1, Nat.le_trans (h.proper r old).2 (Nat.le_of_lt lt)⟩
    · rw [List.mem_singleton.mp new]
      exact ⟨lt, Nat.le_refl j⟩

theorem Tiled.step {l : List α} {i mem budget : ℕ} {s : ChunkState} (h : Tiled l i s) :
    Tiled l (i + 1) (chunkStep budget s (mem, i)) := by
  have here : Tiled l s.chunkStart s := ⟨Nat.le_refl _, h.covered, h.proper⟩
  -- the first branch ends a chunk before this block; the second gives a large block its own
  have ended : ∃ s', Tiled l i s' ∧ chunkStep budget s (mem, i) =
      if mem > budget ∧ i = s'.chunkStart then
        ⟨s'.chunks ++ [(s'.chunkStart, i + 1)], i + 1, 0⟩
      else { s' with chunkMemory := s'.chunkMemory + mem } := by
    unfold chunkStep
    dsimp only
    split
    · rename_i full
      exact ⟨⟨s.chunks ++ [(s.chunkStart, i)], i, 0⟩, here.push full.2, rfl⟩
    · exact ⟨s, h, rfl⟩
  obtain ⟨s', tiled, same⟩ := ended
  rw [same]
  split
  · exact Tiled.push ⟨Nat.le_refl _, tiled.covered, tiled.proper⟩
      (Nat.lt_succ_of_le tiled.start_le)
  · exact ⟨Nat.le_succ_of_le tiled.start_le, tiled.covered, tiled.proper⟩

theorem tiled_foldl {l : List α} (budget : ℕ) (mems : List ℕ) (i : ℕ) {s : ChunkState}
    (h : Tiled l i s) :
    Tiled l (i + mems.length) ((mems.zipIdx i).foldl (chunkStep budget) s) := by
  induction mems generalizing i s with
  | nil => exact h
  | cons mem mems ih =>
    rw [List.zipIdx_cons, List.foldl_cons, List.length_cons, Nat.add_comm mems.length,
      ← Nat.add_assoc]
    exact ih (i + 1) h.step

/-- The ranges cover the whole list, each block once and in order, and none is empty. -/
theorem computeAdaptiveChunks_tile {l : List α} {mems : List ℕ} (same : mems.length = l.length)
    (budget : ℕ) : ((computeAdaptiveChunks mems budget).map (slice l)).flatten = l ∧
      ∀ chunk ∈ (computeAdaptiveChunks mems budget).map (slice l), chunk ≠ [] := by
  have filled : ∀ r : ℕ × ℕ, r.1 < r.2 → r.2 ≤ l.length → slice l r ≠ [] := by
    intro r lt le none
    have := congrArg List.length none
    rw [slice, List.length_take, List.length_drop, List.length_nil] at this
    omega
  unfold computeAdaptiveChunks
  have tiled := tiled_foldl budget mems 0 (s := ⟨[], 0, 0⟩)
    (⟨Nat.le_refl 0, rfl, fun _ hr => absurd hr List.not_mem_nil⟩ : Tiled l 0 _)
  rw [Nat.zero_add] at tiled
  generalize mems.zipIdx.foldl (chunkStep budget) ⟨[], 0, 0⟩ = s at tiled ⊢
  split
  · rename_i none
    rw [List.isEmpty_iff] at none
    subst none
    exact ⟨(List.eq_nil_of_length_eq_zero same.symm).symm,
      fun _ hc => absurd hc List.not_mem_nil⟩
  · have whole : ∀ s' : ChunkState, Tiled l mems.length s' → l.length ≤ s'.chunkStart →
        (s'.chunks.map (slice l)).flatten = l ∧ ∀ chunk ∈ s'.chunks.map (slice l), chunk ≠ [] := by
      intro s' tiled' all
      refine ⟨by rw [tiled'.covered, List.take_of_length_le all], fun chunk hc => ?_⟩
      obtain ⟨r, hr, rfl⟩ := List.mem_map.mp hc
      have := tiled'.proper r hr
      have := tiled'.start_le
      exact filled r (by omega) (by omega)
    dsimp only
    split
    · rename_i short
      exact whole ⟨s.chunks ++ [(s.chunkStart, mems.length)], mems.length, 0⟩
        (Tiled.push ⟨Nat.le_refl _, tiled.covered, tiled.proper⟩ short) (Nat.le_of_eq same.symm)
    · exact whole s tiled (by omega)

end Slices

namespace IngestionOrchestrator

variable {o : IngestionOrchestrator}

/-- **Chunks.** The chunks of a batch are its blocks. -/
theorem flatten_adaptiveChunks (o : IngestionOrchestrator) (blocks : List LocatedBlock) :
    (o.adaptiveChunks blocks).flatten = blocks :=
  (computeAdaptiveChunks_tile (List.length_map ..) _).1

theorem ne_nil_of_mem_adaptiveChunks (blocks : List LocatedBlock) {chunk : List LocatedBlock}
    (mem : chunk ∈ o.adaptiveChunks blocks) : chunk ≠ [] :=
  (computeAdaptiveChunks_tile (List.length_map ..) _).2 chunk mem

theorem mem_of_mem_adaptiveChunks {blocks chunk : List LocatedBlock}
    (mem : chunk ∈ o.adaptiveChunks blocks) {b : LocatedBlock} (inside : b ∈ chunk) :
    b ∈ blocks := by
  rw [← o.flatten_adaptiveChunks blocks]
  exact List.mem_flatten.mpr ⟨chunk, mem, inside⟩

/-- A transaction of a chunk of the batch is a transaction of the batch. -/
theorem mem_txsOf_of_chunk {blocks chunk : List LocatedBlock}
    (mem : chunk ∈ o.adaptiveChunks blocks) {tx : Transaction} (inChunk : tx ∈ txsOf chunk) :
    tx ∈ txsOf blocks := by
  obtain ⟨b, hb, htx⟩ := List.mem_flatMap.mp inChunk
  exact List.mem_flatMap.mpr ⟨b, mem_of_mem_adaptiveChunks mem hb, htx⟩

/-- What every chunk keeps, a list of chunks keeps. -/
theorem run_ingestChunks_keeps {S : World neo4j UtxoCache → Prop}
    (chunks : List (List LocatedBlock))
    (each : ∀ chunk ∈ chunks, ∀ w, S w → S ((o.ingestChunk chunk).run World.handle w).2)
    (stats : BatchStats) {w : World neo4j UtxoCache} (inv : S w) :
    S ((o.ingestChunks stats chunks).run World.handle w).2 := by
  induction chunks generalizing stats w with
  | nil => exact inv
  | cons chunk rest ih =>
    have first := each chunk List.mem_cons_self w inv
    unfold ingestChunks
    rw [Prog.run_bind]
    cases ran : (o.ingestChunk chunk).run World.handle w with
    | mk outcome w' =>
      rw [ran] at first
      cases outcome with
      | error e => exact first
      | ok counts => exact ih (fun d hd => each d (List.mem_cons_of_mem chunk hd)) _ first

/-- A list of chunks in two parts: the second starts where the first succeeds. -/
theorem run_ingestChunks_append (stats : BatchStats) (pre rest : List (List LocatedBlock))
    (w : World neo4j UtxoCache) :
    (o.ingestChunks stats (pre ++ rest)).run World.handle w =
      match (o.ingestChunks stats pre).run World.handle w with
      | (.ok stats', w') => (o.ingestChunks stats' rest).run World.handle w'
      | (.error e, w') => (.error e, w') := by
  induction pre generalizing stats w with
  | nil => rfl
  | cons chunk pre ih =>
    rw [List.cons_append, ingestChunks, ingestChunks.eq_2 o stats chunk pre, Prog.run_bind,
      Prog.run_bind]
    cases (o.ingestChunk chunk).run World.handle w with
    | mk outcome w' =>
      cases outcome with
      | error e => rfl
      | ok counts => exact ih _ w'

/-- What every chunk that succeeds keeps, a list of chunks that succeeds keeps. -/
theorem run_ingestChunks_ok {S : World neo4j UtxoCache → Prop}
    {chunks : List (List LocatedBlock)}
    (each : ∀ chunk ∈ chunks, ∀ w counts w', S w →
      (o.ingestChunk chunk).run World.handle w = (.ok counts, w') → S w')
    {stats stats' : BatchStats} {w w' : World neo4j UtxoCache} (inv : S w)
    (ran : (o.ingestChunks stats chunks).run World.handle w = (.ok stats', w')) : S w' := by
  induction chunks generalizing stats w with
  | nil =>
    cases ran
    exact inv
  | cons chunk rest ih =>
    have first := each chunk List.mem_cons_self w
    rw [ingestChunks, Prog.run_bind] at ran
    cases outcome : (o.ingestChunk chunk).run World.handle w with
    | mk result w₁ =>
      rw [outcome] at ran
      cases result with
      | error e => cases ran
      | ok counts =>
        exact ih (fun d hd => each d (List.mem_cons_of_mem chunk hd)) (first counts w₁ inv outcome)
          ran

end IngestionOrchestrator

/-! ## Calls -/

/-- What a client asks of the orchestrator. -/
inductive Call where
  | initSchema
  | syncCheckpointWithDb
  | ingestBlock (b : LocatedBlock) (offset : Option ℕ)
  | ingestBlocksBatch (blocks : List LocatedBlock)
  | rollbackToHeight (currentTip forkPoint : ℕ)

namespace Call

/-- The blocks a call brings. -/
def blocks : Call → List LocatedBlock
  | .ingestBlock b _ => [b]
  | .ingestBlocksBatch blocks => blocks
  | _ => []

/-- The call as a program; a result beside success is not used. -/
def program (o : IngestionOrchestrator) : Call → Ingest Unit
  | .initSchema => io o.initSchema
  | .syncCheckpointWithDb => do
    let _ ← io o.syncCheckpointWithDb
    pure ()
  | .ingestBlock b offset => o.ingestBlock b.block b.height b.fileName offset
  | .ingestBlocksBatch blocks => do
    let _ ← o.ingestBlocksBatch blocks
    pure ()
  | .rollbackToHeight currentTip forkPoint => do
    let _ ← io (o.rollbackToHeight currentTip forkPoint)
    pure ()

end Call

/-! ## A small chain

Two addresses on the main network and transactions between them, for concrete runs. -/

namespace Sample

/-- `OP_DUP OP_HASH160 <hash> OP_EQUALVERIFY OP_CHECKSIG`. -/
def p2pkhScript (hash : List UInt8) : Script := [0x76, 0xa9, 0x14] ++ hash ++ [0x88, 0xac]

def burnScript : Script := p2pkhScript (List.replicate 20 0)

def eaterScript : Script := p2pkhScript
  [0x75, 0x9d, 0x66, 0x77, 0x09, 0x1e, 0x97, 0x3b, 0x9e, 0x9d, 0x99, 0xf1, 0x9c, 0x68, 0xfb, 0xf4,
    0x3e, 0x3f, 0x05, 0xf9]

/-- The addresses of the two scripts. -/
def crate : AddressCrate where
  fromScript script _ :=
    if script = burnScript then some "1111111111111111111114oLvT2"
    else if script = eaterScript then some "1BitcoinEaterAddressDontSendf59kuE"
    else none
  publicKeyFromSlice _ := false
  p2pkh _ _ := ""

/-- An orchestrator with a memory budget for each transaction. -/
def orchestrator (budget : ℕ) : IngestionOrchestrator where
  writer := ⟨1000, by decide, 3, 120⟩
  network := .Bitcoin
  crate := crate
  stringHash address := UInt64.ofNat address.length
  maxTransactionMemoryBytes := budget

def coinbase (txid : Txid) (value : UInt64) (script : Script) : Transaction where
  txid := txid
  version := 1
  lockTime := 0
  input := [⟨⟨0, maxVout⟩, [], maxVout, []⟩]
  output := [⟨value, script⟩]
  totalSize := 135
  vsize := 135
  weight := 540

/-- A transaction that spends one output into one output. -/
def spend (txid : Txid) (previous : OutPoint) (value : UInt64) (script : Script) : Transaction where
  txid := txid
  version := 1
  lockTime := 0
  input := [⟨previous, [], maxVout, []⟩]
  output := [⟨value, script⟩]
  totalSize := 159
  vsize := 159
  weight := 636

def block (height : ℕ) (hash prev : BlockHash) (txdata : List Transaction) : LocatedBlock where
  height := height
  block := ⟨hash, ⟨1, prev, 0, 1231006505, 0x1d00ffff, 0⟩, txdata, 285, 1140⟩
  fileName := "blk00000.dat"

/-- The first block pays a coinbase. -/
def first : LocatedBlock := block 0 100 0 [coinbase 1 50 burnScript]

/-- The second spends it in two steps, the second step in the same block. -/
def second : LocatedBlock := block 1 101 100
  [coinbase 2 50 burnScript, spend 3 ⟨1, 0⟩ 40 eaterScript, spend 4 ⟨3, 0⟩ 30 burnScript]

end Sample

end ChainGraph

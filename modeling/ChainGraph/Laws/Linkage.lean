import Mathlib.Data.List.Chain
import Mathlib.Logic.Relation
import ChainGraph.Laws.Growth
import ChainGraph.Laws.Recovery

/-!
# Chain linkage

A `NEXT_BLOCK` is made from the stored block one below, whatever its hash. It joins a block to its
parent if the two were compared. `ingest_block` compares every block with the stored one below it;
a batch compares the first block of every chunk. So the stored edges follow the hashes as long as
the blocks inside a chunk follow each other, and a stored block is not given another height.
-/

namespace ChainGraph

open Foundation Foundation.Store

namespace Graph

/-- Every `NEXT_BLOCK` joins a stored block to its parent one below. -/
def Linked (g : Graph) : Prop :=
  ∀ e ∈ g.nextBlock, ∃ p ∈ g.blocks.rows, ∃ b ∈ g.blocks.rows,
    p.hash = e.1 ∧ b.hash = e.2 ∧ b.previousHash = p.hash ∧ b.height = p.height + 1

instance (g : Graph) : Decidable g.Linked := Multiset.decidableForallMultiset

theorem linked_empty : Linked .empty := fun e mem => absurd mem (Multiset.notMem_zero e)

/-- Only the blocks and their links matter. -/
theorem Linked.congr {g g' : Graph} (h : g.Linked) (blocks : g'.blocks = g.blocks)
    (nextBlock : g'.nextBlock = g.nextBlock) : g'.Linked := by
  unfold Linked
  rw [blocks, nextBlock]
  exact h

/-- An edge between two blocks that are both still stored. -/
theorem Linked.detachDeleteBlockAt {g : Graph} (h : g.Linked) (height : ℕ) :
    (g.detachDeleteBlockAt height).Linked := by
  unfold Graph.detachDeleteBlockAt
  cases stored : g.blockAt height with
  | none => exact h
  | some b =>
    intro e mem
    obtain ⟨edge, from_b, to_b⟩ := Multiset.mem_filter.mp mem
    obtain ⟨p, hp, n, hn, from_p, to_n, parent, next⟩ := h e edge
    have kept : ∀ c ∈ g.blocks, c.hash ≠ b.hash → c ∈ g.blocks.delete fun c => c.height = height :=
      fun c hc other => Table.mem_delete.mpr ⟨hc, fun same => other
        (congrArg _ (g.heightUnique c hc b (blockAt_eq_some.mp stored).1
          (same.trans (blockAt_eq_some.mp stored).2.symm)))⟩
    exact ⟨p, kept p hp (from_p ▸ from_b), n, kept n hn (to_n ▸ to_b), from_p, to_n, parent, next⟩

end Graph

/-! ## Lists that follow -/

/-- The second block is one above the first. -/
def Adjacent (a b : LocatedBlock) : Prop := b.height = a.height + 1

/-- The second block names the first as its parent. -/
def Links (a b : LocatedBlock) : Prop := b.block.header.prevBlockhash = a.block.blockHash

instance (a b : LocatedBlock) : Decidable (Links a b) := inferInstanceAs (Decidable (_ = _))

section Lists

variable {α : Type} {R : α → α → Prop}

/-- Every element of a chain is its first or has a predecessor. -/
theorem head_or_pred {l : List α} (chain : l.IsChain R) {b : α} (mem : b ∈ l) :
    l.head? = some b ∨ ∃ a ∈ l, R a b := by
  induction l with
  | nil => cases mem
  | cons x l ih =>
    rcases List.mem_cons.mp mem with rfl | inside
    · exact Or.inl rfl
    · cases l with
      | nil => cases inside
      | cons y l =>
        obtain ⟨first, rest⟩ := List.isChain_cons_cons.mp chain
        rcases ih rest inside with head | ⟨a, ha, rel⟩
        · cases head
          exact Or.inr ⟨x, List.mem_cons_self, first⟩
        · exact Or.inr ⟨a, List.mem_cons_of_mem x ha, rel⟩

theorem isChain_and {S : α → α → Prop} {l : List α} (h : l.IsChain R) (h' : l.IsChain S) :
    l.IsChain fun a b => R a b ∧ S a b := by
  induction l with
  | nil => exact List.isChain_nil
  | cons x l ih =>
    cases l with
    | nil => exact List.isChain_singleton x
    | cons y l =>
      obtain ⟨first, rest⟩ := List.isChain_cons_cons.mp h
      obtain ⟨first', rest'⟩ := List.isChain_cons_cons.mp h'
      exact List.isChain_cons_cons.mpr ⟨⟨first, first'⟩, ih rest rest'⟩

/-- Lists joined to one that is not a chain: the first that does not continue a chain. -/
theorem exists_break {ls : List (List α)} (broken : ¬ ls.flatten.IsChain R) :
    ∃ pre l rest, ls = pre ++ l :: rest ∧ pre.flatten.IsChain R ∧
      ¬ (pre.flatten ++ l).IsChain R := by
  induction ls using List.reverseRecOn with
  | nil => exact absurd List.isChain_nil broken
  | append_singleton ls l ih =>
    by_cases before : ls.flatten.IsChain R
    · rw [List.flatten_append, List.flatten_singleton] at broken
      exact ⟨ls, l, [], rfl, before, broken⟩
    · obtain ⟨pre, m, rest, rfl, chain, apart⟩ := ih before
      exact ⟨pre, m, rest ++ [l], by simp, chain, apart⟩

/-- A part of a chain is a chain. -/
theorem isChain_of_mem_flatten {ls : List (List α)} (chain : ls.flatten.IsChain R) {l : List α}
    (mem : l ∈ ls) : l.IsChain R := by
  obtain ⟨pre, post, rfl⟩ := List.append_of_mem mem
  rw [List.flatten_append, List.flatten_cons, List.isChain_append, List.isChain_append] at chain
  exact chain.2.1.1

end Lists

/-- Heights one above the other rise along the list. -/
theorem rising_of_adjacent {chunk : List LocatedBlock} (adjacent : chunk.IsChain Adjacent) :
    chunk.Pairwise fun a b => a.height < b.height := by
  have steps : chunk.IsChain fun a b => a.height < b.height :=
    adjacent.imp fun a b (next : b.height = a.height + 1) => by omega
  have : Trans (fun a b : LocatedBlock => a.height < b.height)
      (fun a b : LocatedBlock => a.height < b.height)
      (fun a b : LocatedBlock => a.height < b.height) := ⟨Nat.lt_trans⟩
  exact List.isChain_iff_pairwise.mp steps

theorem ascending_blockRows {chunk : List LocatedBlock} (adjacent : chunk.IsChain Adjacent) :
    Graph.Ascending (blockRows chunk) :=
  List.pairwise_map.mpr (rising_of_adjacent adjacent)

/-- No block is below the first. -/
theorem head_le {chunk : List LocatedBlock} (adjacent : chunk.IsChain Adjacent)
    {first b : LocatedBlock} (head : chunk.head? = some first) (mem : b ∈ chunk) :
    first.height ≤ b.height := by
  obtain ⟨rest, rfl⟩ := List.head?_eq_some_iff.mp head
  rcases List.mem_cons.mp mem with rfl | inside
  · exact Nat.le_refl _
  · exact Nat.le_of_lt ((List.pairwise_cons.mp (rising_of_adjacent adjacent)).1 b inside)

namespace IngestionOrchestrator

variable {o : IngestionOrchestrator} {g g₁ g' : Graph} {c : UtxoCache} {b : LocatedBlock}
  {chunk : List LocatedBlock} {offset : Option ℕ} {res : Found}

/-! ## One step -/

/-- A link made for a block, read back. -/
theorem prevLink_eq_some {b : BlockData} {e : BlockHash × BlockHash} (h : g.prevLink b = some e) :
    0 < b.height ∧ ∃ p, g.blockAt (b.height - 1) = some p ∧ e = (p.hash, b.hash) := by
  unfold Graph.prevLink at h
  split at h
  · rename_i high
    obtain ⟨p, stored, rfl⟩ := Option.map_eq_some_iff.mp h
    exact ⟨high, p, stored, rfl⟩
  · cases h

/-- The stored block below a validated block is its parent. -/
theorem ParentOk.parent {p : BlockNode} (h : ParentOk g b.block b.height) (high : 0 < b.height)
    (stored : g.blockAt (b.height - 1) = some p) : b.block.header.prevBlockhash = p.hash := by
  rcases h with zero | same
  · omega
  · exact (same p.hash (by rw [Graph.lookupBlockHash, stored, Option.map_some])).symm

/-- **A chunk** whose blocks follow each other keeps the chain linked. -/
theorem Linked.chunkQueries (h : g.Linked) (parent : FirstParentOk g chunk)
    (adjacent : chunk.IsChain Adjacent) (links : chunk.IsChain Links)
    (sent : execAll neo4j (o.chunkQueries res chunk) g = .ok g') : g'.Linked := by
  obtain ⟨g₁, created, _, rfl⟩ := execAll_chunkQueries.mp sent
  obtain ⟨performs, benefits⟩ := chunkParts_perm o res chunk
  obtain ⟨sameBlocks, sameLinks⟩ := blocks_phases o res chunk (hasBip30 chunk) false performs
    benefits (lastCheckpoint chunk) g₁
  refine Graph.Linked.congr ?_ sameBlocks sameLinks
  obtain ⟨new, hu, next, rfl, made⟩ := Graph.execAll_createBlocksFast created
  have members : ∀ x, x ∈ (blockRows chunk).foldl Table.upsert g.blocks ↔
      x ∈ blockRows chunk ∨ x ∈ g.blocks :=
    fun x => Table.mem_foldl_upsert_new new.hashes new.free
  intro e mem
  change e ∈ next at mem
  rw [made (ascending_blockRows adjacent), Multiset.mem_add, Multiset.mem_coe] at mem
  rcases mem with old | fresh
  · obtain ⟨p, hp, n, hn, linked⟩ := h e old
    exact ⟨p, (members p).mpr (Or.inr hp), n, (members n).mpr (Or.inr hn), linked⟩
  obtain ⟨row, inRows, made⟩ := List.mem_filterMap.mp fresh
  obtain ⟨b, inChunk, rfl⟩ := List.mem_map.mp inRows
  obtain ⟨high, p, stored, rfl⟩ := prevLink_eq_some made
  obtain ⟨hp, below⟩ := Graph.blockAt_eq_some.mp stored
  change p ∈ (blockRows chunk).foldl Table.upsert g.blocks at hp
  change 0 < b.height at high
  change p.height = b.height - 1 at below
  refine ⟨p, hp, .fromBlock b.block b.height, (members _).mpr (Or.inl inRows), rfl, rfl, ?_, ?_⟩
  · -- the block is the first of its chunk, or its predecessor in the chunk is the one below
    rcases head_or_pred (isChain_and adjacent links) inChunk with head | ⟨a, inChunk', next, link⟩
    · refine (parent b head).parent high (Graph.blockAt_eq_some.mpr ⟨?_, below⟩)
      rcases (members p).mp hp with row | old
      · obtain ⟨a, inChunk', rfl⟩ := List.mem_map.mp row
        have le := head_le adjacent head inChunk'
        change a.height = b.height - 1 at below
        omega
      · exact old
    · have row : BlockData.fromBlock a.block a.height ∈
          (blockRows chunk).foldl Table.upsert g.blocks :=
        (members _).mpr (Or.inl (List.mem_map.mpr ⟨a, inChunk', rfl⟩))
      have same : BlockData.fromBlock a.block a.height = p := by
        refine hu _ row p hp ?_
        show a.height = p.height
        have : b.height = a.height + 1 := next
        omega
      rw [← same]
      exact link
  · show b.height = p.height + 1
    omega

/-- A stored block is only ever given again at its height, with its parent. -/
def SameIfStored (g : Graph) (b : LocatedBlock) : Prop :=
  ∀ n ∈ g.blocks, n.hash = b.block.blockHash →
    n.height = b.height ∧ n.previousHash = b.block.header.prevBlockhash

/-- **A validated block** that is new or unchanged keeps the chain linked. -/
theorem Linked.blockQuery (h : g.Linked) (parent : ParentOk g b.block b.height)
    (same : SameIfStored g b) (created : (blockQuery b).exec g = .ok g₁) : g₁.Linked := by
  obtain ⟨_, hu, next, rfl, made⟩ := Graph.exec_createBlocks_one.mp created
  let row := BlockData.fromBlock b.block b.height
  have here : row ∈ g.blocks.upsert row := Table.mem_upsert.mpr (Or.inl rfl)
  -- an old block is still there, or its row is the one that took its place
  have kept : ∀ n ∈ g.blocks, ∃ n' ∈ g.blocks.upsert row, n'.hash = n.hash ∧
      n'.height = n.height ∧ n'.previousHash = n.previousHash := by
    intro n hn
    by_cases again : n.hash = b.block.blockHash
    · obtain ⟨height, previous⟩ := same n hn again
      exact ⟨row, here, again.symm, height.symm, previous.symm⟩
    · exact ⟨n, Table.mem_upsert.mpr (Or.inr ⟨hn, again⟩), rfl, rfl, rfl⟩
  have old : ∀ e ∈ g.nextBlock, ∃ p ∈ g.blocks.upsert row, ∃ n ∈ g.blocks.upsert row,
      p.hash = e.1 ∧ n.hash = e.2 ∧ n.previousHash = p.hash ∧ n.height = p.height + 1 := by
    intro e mem
    obtain ⟨p, hp, n, hn, from_p, to_n, link, up⟩ := h e mem
    obtain ⟨p', hp', hash, height, _⟩ := kept p hp
    obtain ⟨n', hn', hash', height', previous'⟩ := kept n hn
    exact ⟨p', hp', n', hn', hash.trans from_p, hash'.trans to_n,
      previous'.trans (link.trans hash.symm), by rw [height', height, up]⟩
  intro e mem
  change e ∈ next at mem
  rw [made] at mem
  cases link : (g.withBlocks (g.blocks.upsert row) hu next).prevLink row with
  | none =>
    rw [List.filterMap_cons_none link] at mem
    exact old e mem
  | some e' =>
    rw [List.filterMap_cons_some link, List.filterMap_nil, List.foldl_cons, List.foldl_nil,
      mem_mergeLink] at mem
    rcases mem with rfl | mem
    · obtain ⟨high, p, stored, rfl⟩ := prevLink_eq_some link
      obtain ⟨hp, below⟩ := Graph.blockAt_eq_some.mp stored
      change p ∈ g.blocks.upsert row at hp
      change 0 < b.height at high
      change p.height = b.height - 1 at below
      refine ⟨p, hp, row, here, rfl, rfl, parent.parent high (Graph.blockAt_eq_some.mpr
        ⟨?_, below⟩), ?_⟩
      · rcases Table.mem_upsert.mp hp with rfl | ⟨inside, _⟩
        · change b.height = b.height - 1 at below
          omega
        · exact inside
      · show b.height = p.height + 1
        omega
    · exact old e mem

theorem linked_ingestBlock (h : g.Linked) (same : SameIfStored g b) :
    ((o.ingestBlock b.block b.height b.fileName offset).run World.handle
      ⟨⟨g, none⟩, c⟩).2.store.committed.Linked := by
  have outputs : ∀ g : Graph, (o.putOutputs b g).blocks = g.blocks ∧
      (o.putOutputs b g).nextBlock = g.nextBlock := fun g => by
    rw [putOutputs, Graph.foldl_putOutput_eq]
    exact ⟨rfl, rfl⟩
  have outcome := run_ingestBlock_outcome o b offset g c
  generalize (o.ingestBlock b.block b.height b.fileName offset).run World.handle
    ⟨⟨g, none⟩, c⟩ = result at outcome ⊢
  cases outcome with
  | orphan err unlinked => exact h
  | refused err fault parent refusal => exact h
  | missing err g₁ c' parent created looked =>
    exact (Linked.blockQuery h parent same created).congr (outputs g₁).1 (outputs g₁).2
  | stored g₁ res c' parent created looked =>
    rw [finishBlock_eq]
    obtain ⟨performs, benefits⟩ := blockParts_perm o res b
    obtain ⟨blocks, links⟩ := blocks_phases o res [b] true true performs benefits _ g₁
    exact (Linked.blockQuery h parent same created).congr blocks links

/-- One chunk leaves the slot free and the chain linked. -/
theorem linked_ingestChunk {w : World neo4j UtxoCache} (free : w.store.active = none)
    (h : w.store.committed.Linked) (adjacent : chunk.IsChain Adjacent)
    (links : chunk.IsChain Links) :
    ((o.ingestChunk chunk).run World.handle w).2.store.active = none ∧
      ((o.ingestChunk chunk).run World.handle w).2.store.committed.Linked := by
  obtain ⟨⟨g, active⟩, c⟩ := w
  dsimp only at free h
  subst free
  obtain ⟨found, c₁, fetched⟩ := run_prefetchUtxos_total g none c (spentKeys chunk)
  have outcome := run_ingestChunk_outcome (o := o) fetched
  generalize (o.ingestChunk chunk).run World.handle ⟨⟨g, none⟩, c⟩ = result at outcome ⊢
  cases outcome with
  | orphan err unlinked => exact ⟨rfl, h⟩
  | refused err g' c' parent outside =>
    refine ⟨rfl, ?_⟩
    rcases outside with rfl | rfl
    · exact h
    · refine h.congr ?_ ?_ <;>
      · unfold besideChunk
        split
        · rw [Graph.foldl_putOutput_eq]
        · rfl
  | committed g' parent sent => exact ⟨rfl, Linked.chunkQueries h parent adjacent links sent⟩

/-- Rollback and recovery statements delete blocks with their edges, or leave both alone. -/
theorem linked_recovers {α : Type} {p : Io α} (sends : Neo4jWriter.OnlySends Query.Recovers p)
    (h : g.Linked) : ((io p).run World.handle ⟨⟨g, none⟩, c⟩).2.store.committed.Linked := by
  have onC : ∀ (q : Query) (g g' : Graph), q.Recovers → g.Linked → q.exec g = .ok g' →
      g'.Linked := by
    intro q g g' recovers h ok
    cases q <;> cases recovers <;> cases ok
    case rollbackDeleteBlock height => exact h.detachDeleteBlockAt height
    all_goals exact h.congr rfl rfl
  have start : Store.Keeps (E := neo4j) Graph.Linked (fun _ => True) false ⟨g, none⟩ :=
    ⟨h, fun _ _ => trivial, rfl⟩
  exact (World.keeps_run onC (fun _ _ _ _ _ _ => trivial) (World.always_lift sends)
    (w := ⟨⟨g, none⟩, c⟩) start).committed

/-! ## Chunks -/

/-- What a part of a batch does to the stored blocks: it adds only its rows, and on success all of
them. -/
structure AddsBlocks {α : Type} (g : Graph) (rows : List BlockData)
    (r : Except WriterError α × World neo4j UtxoCache) : Prop where
  free : r.2.store.active = none
  sub : ∀ n ∈ r.2.store.committed.blocks, n ∈ g.blocks ∨ n ∈ rows
  sup : r.1.isOk → ∀ n, n ∈ g.blocks ∨ n ∈ rows → n ∈ r.2.store.committed.blocks

theorem addsBlocks_ingestChunk (g : Graph) (c : UtxoCache) (chunk : List LocatedBlock) :
    AddsBlocks g (blockRows chunk) ((o.ingestChunk chunk).run World.handle ⟨⟨g, none⟩, c⟩) := by
  obtain ⟨found, c₁, fetched⟩ := run_prefetchUtxos_total g none c (spentKeys chunk)
  have outcome := run_ingestChunk_outcome (o := o) fetched
  generalize (o.ingestChunk chunk).run World.handle ⟨⟨g, none⟩, c⟩ = result at outcome ⊢
  cases outcome with
  | orphan err unlinked => exact ⟨rfl, fun n hn => Or.inl hn, fun ok => nomatch ok⟩
  | refused err g' c' parent outside =>
    refine ⟨rfl, fun n hn => Or.inl ?_, fun ok => nomatch ok⟩
    rcases outside with rfl | rfl
    · exact hn
    · dsimp only at hn
      unfold besideChunk at hn
      split at hn
      · rw [Graph.foldl_putOutput_eq] at hn
        exact hn
      · exact hn
  | committed g' parent sent =>
    obtain ⟨g₁, created, _, rfl⟩ := execAll_chunkQueries.mp sent
    obtain ⟨performs, benefits⟩ := chunkParts_perm o (resolvedChunk o chunk found c₁).2 chunk
    obtain ⟨sameBlocks, _⟩ := blocks_phases o (resolvedChunk o chunk found c₁).2 chunk
      (hasBip30 chunk) false performs benefits (lastCheckpoint chunk) g₁
    obtain ⟨new, hu, next, rfl, _⟩ := Graph.execAll_createBlocksFast created
    have members := fun n => Table.mem_foldl_upsert_new new.hashes new.free (x := n)
    refine ⟨rfl, fun n hn => ?_, fun _ n either => ?_⟩
    · rw [show (afterBlocks o _ chunk _).blocks = _ from sameBlocks] at hn
      exact ((members n).mp hn).symm
    · rw [show (afterBlocks o _ chunk _).blocks = _ from sameBlocks]
      exact (members n).mpr either.symm

theorem addsBlocks_ingestChunks (chunks : List (List LocatedBlock)) (stats : BatchStats)
    (g : Graph) (c : UtxoCache) :
    AddsBlocks g (blockRows chunks.flatten)
      ((o.ingestChunks stats chunks).run World.handle ⟨⟨g, none⟩, c⟩) := by
  induction chunks generalizing stats g c with
  | nil =>
    refine ⟨rfl, fun n hn => Or.inl hn, fun _ n either => ?_⟩
    rcases either with old | row
    · exact old
    · cases row
  | cons chunk rest ih =>
    have rows : blockRows (chunk :: rest).flatten = blockRows chunk ++ blockRows rest.flatten := by
      rw [List.flatten_cons, blockRows, List.map_append]
      rfl
    rw [ingestChunks, Prog.run_bind, rows]
    have first := addsBlocks_ingestChunk (o := o) g c chunk
    generalize (o.ingestChunk chunk).run World.handle ⟨⟨g, none⟩, c⟩ = ran at first ⊢
    obtain ⟨outcome, ⟨g', active⟩, c'⟩ := ran
    obtain ⟨free, sub, sup⟩ := first
    dsimp only at free sub sup
    subst free
    cases outcome with
    | error e =>
      refine ⟨rfl, fun n hn => ?_, fun ok => by cases ok⟩
      exact (sub n hn).imp_right (List.mem_append_left _)
    | ok counts =>
      dsimp only
      obtain ⟨free', sub', sup'⟩ := ih { stats with
        transactions := stats.transactions + counts.1
        outputs := stats.outputs + counts.2.1
        inputs := stats.inputs + counts.2.2 } g' c'
      refine ⟨free', fun n hn => ?_, fun ok n either => ?_⟩
      · rcases sub' n hn with old | row
        · exact (sub n old).imp_right (List.mem_append_left _)
        · exact Or.inr (List.mem_append_right _ row)
      · rw [List.mem_append, ← or_assoc] at either
        exact sup' ok n (either.imp_left (sup rfl n))

/-- What a list of chunks did. -/
structure LinkedChunks {α : Type} (g : Graph) (blocks : List LocatedBlock)
    (pre : List (List LocatedBlock)) (r : Except WriterError α × World neo4j UtxoCache) :
    Prop where
  linked : r.2.store.committed.Linked
  parent : r.1.isOk → pre ≠ [] → FirstParentOk g blocks
  chain : r.1.isOk → pre.flatten.IsChain Links

/-- The condition on a batch: if its first block fits the stored chain, the first of its blocks that
does not name its predecessor, if there is one, is the first block of a chunk. -/
def BreaksBetween (o : IngestionOrchestrator) (g : Graph) (blocks : List LocatedBlock) : Prop :=
  FirstParentOk g blocks → ∀ pre chunk rest, o.adaptiveChunks blocks = pre ++ chunk :: rest →
    pre.flatten.IsChain Links → (∀ a ∈ pre.flatten.getLast?, ∀ b ∈ chunk.head?, Links a b) →
      chunk.IsChain Links

/-- Batches whose chunks are linked inside, in particular. -/
theorem breaksBetween_of_chunks {blocks : List LocatedBlock}
    (links : ∀ chunk ∈ o.adaptiveChunks blocks, chunk.IsChain Links) : o.BreaksBetween g blocks :=
  fun _ pre chunk rest split _ _ => links chunk (split ▸ by simp)

/-- A block stored below the first block of a validated chunk is its parent. -/
theorem links_of_stored {a : LocatedBlock} (parent : FirstParentOk g chunk)
    (stored : BlockData.fromBlock a.block a.height ∈ g.blocks) (head : b ∈ chunk.head?)
    (next : Adjacent a b) : Links a b := by
  have up : b.height = a.height + 1 := next
  refine (parent b head).parent (p := .fromBlock a.block a.height) (by omega) ?_
  refine Graph.blockAt_eq_some.mpr ⟨stored, ?_⟩
  show a.height = b.height - 1
  omega

/-- The last block before a chunk is one below its first. -/
theorem adjacent_join {pre rest : List (List LocatedBlock)} {a : LocatedBlock}
    (adjacent : (pre ++ chunk :: rest).flatten.IsChain Adjacent)
    (last : a ∈ pre.flatten.getLast?) (head : b ∈ chunk.head?) : Adjacent a b := by
  rw [List.flatten_append, List.flatten_cons, List.isChain_append] at adjacent
  refine adjacent.2.2 a last b ?_
  rw [List.head?_append, Option.mem_def.mp head]
  rfl

theorem head?_flatten_of_ne_nil {chunks : List (List LocatedBlock)} (full : chunk ≠ []) :
    (chunk :: chunks).flatten.head? = chunk.head? := by
  cases chunk with
  | nil => exact absurd rfl full
  | cons b chunk => rfl

/-- The chunks of a batch up to any of them keep the chain linked. -/
theorem linked_ingestChunks {blocks : List LocatedBlock} (adjacent : blocks.IsChain Adjacent)
    (between : o.BreaksBetween g blocks) (h : g.Linked) (stats : BatchStats)
    (pre rest : List (List LocatedBlock)) (split : o.adaptiveChunks blocks = pre ++ rest) :
    LinkedChunks g blocks pre
      ((o.ingestChunks stats pre).run World.handle ⟨⟨g, none⟩, c⟩) := by
  induction pre using List.reverseRecOn generalizing rest with
  | nil => exact ⟨h, fun _ none => absurd rfl none, fun _ => List.isChain_nil⟩
  | append_singleton pre chunk ih =>
    rw [List.append_assoc, List.singleton_append] at split
    have before := ih (chunk :: rest) split
    have spent := addsBlocks_ingestChunks (o := o) pre stats g c
    have start : pre = [] → (o.ingestChunks stats pre).run World.handle ⟨⟨g, none⟩, c⟩ =
        (.ok stats, ⟨⟨g, none⟩, c⟩) := fun none => none ▸ rfl
    rw [run_ingestChunks_append]
    generalize (o.ingestChunks stats pre).run World.handle ⟨⟨g, none⟩, c⟩ = ran
      at before spent start ⊢
    obtain ⟨outcome, ⟨g', active⟩, c'⟩ := ran
    obtain ⟨free, sub, sup⟩ := spent
    dsimp only at free
    subst free
    cases outcome with
    | error e => exact ⟨before.linked, fun ok => (by cases ok), fun ok => (by cases ok)⟩
    | ok stats' =>
      dsimp only
      by_cases parent : FirstParentOk g' chunk
      case neg =>
        have orphan : ¬ FirstParentOk (Store.committed (E := neo4j) ⟨g', none⟩) chunk := parent
        obtain ⟨b, actual, _, _, stopped⟩ := run_ingestChunk_orphan (o := o) (c := c') orphan
        rw [ingestChunks, Prog.run_bind_error stopped]
        exact ⟨before.linked, fun ok => (by cases ok), fun ok => (by cases ok)⟩
      have whole := o.flatten_adaptiveChunks blocks
      have full : chunk ≠ [] := ne_nil_of_mem_adaptiveChunks blocks (o := o) (by
        rw [split]
        exact List.mem_append_right _ List.mem_cons_self)
      rw [split] at whole
      rw [← whole] at adjacent
      have fits : FirstParentOk g blocks := by
        by_cases first : pre = []
        · subst first
          cases start rfl
          intro b head
          rw [← whole, List.nil_append, head?_flatten_of_ne_nil full] at head
          exact parent b head
        · exact before.parent rfl first
      have join : ∀ a ∈ pre.flatten.getLast?, ∀ b ∈ chunk.head?, Links a b :=
        fun a last b head => links_of_stored parent
          (sup rfl _ (Or.inr (List.mem_map.mpr ⟨a, List.mem_of_getLast? last, rfl⟩))) head
          (adjacent_join adjacent last head)
      have inside := between fits pre chunk rest split (before.chain rfl) join
      have chain : (pre ++ [chunk]).flatten.IsChain Links := by
        rw [List.flatten_append, List.flatten_singleton, List.isChain_append]
        exact ⟨before.chain rfl, inside, join⟩
      have step := linked_ingestChunk (o := o) (w := ⟨⟨g', none⟩, c'⟩) rfl before.linked
        (isChain_of_mem_flatten adjacent (List.mem_append_right _ List.mem_cons_self)) inside
      rw [ingestChunks, Prog.run_bind]
      generalize (o.ingestChunk chunk).run World.handle ⟨⟨g', none⟩, c'⟩ = result at step ⊢
      obtain ⟨outcome, w⟩ := result
      cases outcome with
      | error e => exact ⟨step.2, fun _ _ => fits, fun _ => chain⟩
      | ok counts => exact ⟨step.2, fun _ _ => fits, fun _ => chain⟩

/-! ## Runs -/

/-- The calls that keep the chain linked: a block that is new or unchanged; a list of blocks at
consecutive heights that does not break inside a chunk. -/
def KeepsLinkage (o : IngestionOrchestrator) (g : Graph) : Call → Prop
  | .ingestBlock b _ => SameIfStored g b
  | .ingestBlocksBatch blocks => blocks.IsChain Adjacent ∧ o.BreaksBetween g blocks
  | _ => True

/-- One such call, with any cache; it may fail. -/
def LinkingStep (o : IngestionOrchestrator) (g g' : Graph) : Prop :=
  ∃ (call : Call) (c : UtxoCache), o.KeepsLinkage g call ∧
    ((call.program o).run World.handle ⟨⟨g, none⟩, c⟩).2.store.committed = g'

/-- What one call keeps. -/
theorem linked_step (h : g.Linked) (step : o.LinkingStep g g') : g'.Linked := by
  obtain ⟨call, c, keeps, rfl⟩ := step
  cases call with
  | initSchema => exact linked_recovers sends_initSchema h
  | syncCheckpointWithDb =>
    rw [Call.program, Prog.run_discard]
    exact linked_recovers sends_syncCheckpointWithDb h
  | ingestBlock b offset => exact linked_ingestBlock h keeps
  | ingestBlocksBatch blocks =>
    rw [Call.program, Prog.run_discard]
    exact (linked_ingestChunks keeps.1 keeps.2 h _ _ [] (List.append_nil _).symm).linked
  | rollbackToHeight currentTip forkPoint =>
    rw [Call.program, Prog.run_discard]
    exact linked_recovers (sends_rollbackToHeight currentTip forkPoint) h

theorem linked_run (reached : Relation.ReflTransGen o.LinkingStep .empty g) : g.Linked := by
  induction reached with
  | refl => exact Graph.linked_empty
  | tail _ step h => exact linked_step h step

/-! ## Rejection -/

/-- The list is rejected at the first block of a chunk: only the chunks before it, which are linked,
may be stored, and unless one of them failed the error is `ReorgDetected` with the hash that the
block below has. -/
def Rejected (o : IngestionOrchestrator) (g : Graph) (c : UtxoCache)
    (blocks : List LocatedBlock) : Prop :=
  ∃ pre chunk rest b actual, o.adaptiveChunks blocks = pre ++ chunk :: rest ∧
    pre.flatten.IsChain Links ∧ chunk.head? = some b ∧
    b.block.header.prevBlockhash ≠ actual ∧
    let r := (o.ingestBlocksBatch blocks).run World.handle ⟨⟨g, none⟩, c⟩
    let before := (o.ingestChunks ⟨0, 0, 0, (o.adaptiveChunks blocks).length⟩ pre).run
      World.handle ⟨⟨g, none⟩, c⟩
    r.2.store.committed = before.2.store.committed ∧
      (∀ n ∈ r.2.store.committed.blocks, n ∈ g.blocks ∨ n ∈ blockRows pre.flatten) ∧
      r.1 = (match before.1 with
        | .ok _ => .error (.ReorgDetected b.height b.block.header.prevBlockhash actual)
        | .error e => .error e)

/-- Rejection at a chunk whose first block does not fit what the chunks before it leave. -/
theorem rejected_of_orphan {blocks : List LocatedBlock} (pre : List (List LocatedBlock))
    {rest : List (List LocatedBlock)} (actual : BlockHash)
    (split : o.adaptiveChunks blocks = pre ++ chunk :: rest)
    (chain : pre.flatten.IsChain Links) (head : chunk.head? = some b) (high : 0 < b.height)
    (other : b.block.header.prevBlockhash ≠ actual)
    (below : ∀ g' : Graph, (∀ n, n ∈ g.blocks ∨ n ∈ blockRows pre.flatten → n ∈ g'.blocks) →
      g'.lookupBlockHash (b.height - 1) = some actual) : o.Rejected g c blocks := by
  refine ⟨pre, chunk, rest, b, actual, split, chain, head, other, ?_⟩
  have both := run_ingestChunks_append (o := o) ⟨0, 0, 0, (o.adaptiveChunks blocks).length⟩ pre
    (chunk :: rest) ⟨⟨g, none⟩, c⟩
  rw [← split] at both
  intro r before
  have same : (o.ingestChunks ⟨0, 0, 0, (o.adaptiveChunks blocks).length⟩ pre).run World.handle
      ⟨⟨g, none⟩, c⟩ = before := rfl
  rw [same] at both
  have both : r = _ := both
  have spent : AddsBlocks g (blockRows pre.flatten) before := addsBlocks_ingestChunks pre _ g c
  clear_value before r
  obtain ⟨outcome, ⟨g', active⟩, c'⟩ := before
  obtain ⟨free, sub, sup⟩ := spent
  dsimp only at free sub sup
  subst free
  cases outcome with
  | error e =>
    rw [both]
    exact ⟨rfl, sub, rfl⟩
  | ok stats =>
    have found := below g' (sup rfl)
    have orphan : ¬ FirstParentOk (Store.committed (E := neo4j) ⟨g', none⟩) chunk := by
      intro parent
      rcases parent b head with zero | same
      · omega
      · exact other (same _ found).symm
    obtain ⟨b', actual', head', found', ran⟩ := run_ingestChunk_orphan (o := o) (c := c') orphan
    rw [head] at head'
    cases head'
    cases found.symm.trans found'
    have stopped : r = (.error (.ReorgDetected b.height b.block.header.prevBlockhash actual),
        ⟨⟨g', none⟩, c'⟩) := by
      rw [both]
      dsimp only
      rw [ingestChunks]
      exact Prog.run_bind_error ran
    rw [stopped]
    exact ⟨rfl, sub, rfl⟩

/-- Lists that break, but not inside a chunk, are rejected. -/
theorem rejected_of_broken {blocks : List LocatedBlock} (adjacent : blocks.IsChain Adjacent)
    (between : o.BreaksBetween g blocks) (broken : ¬ blocks.IsChain Links) (c : UtxoCache) :
    o.Rejected g c blocks := by
  have whole := o.flatten_adaptiveChunks blocks
  by_cases fits : FirstParentOk g blocks
  · rw [← whole] at broken adjacent
    obtain ⟨pre, chunk, rest, split, chain, apart⟩ := exists_break broken
    have join : ¬ ∀ a ∈ pre.flatten.getLast?, ∀ b ∈ chunk.head?, Links a b := fun join =>
      apart (List.isChain_append.mpr ⟨chain, between fits pre chunk rest split chain join, join⟩)
    push Not at join
    obtain ⟨a, last, b, head, other⟩ := join
    have next : b.height = a.height + 1 := adjacent_join (split ▸ adjacent) last head
    refine rejected_of_orphan pre a.block.blockHash split chain head (by omega) other ?_
    -- the last block before the break is stored, and it is not the parent
    intro g' sup
    have stored := sup _ (Or.inr (List.mem_map.mpr ⟨a, List.mem_of_getLast? last, rfl⟩))
    rw [Graph.lookupBlockHash, Graph.blockAt_eq_some.mpr ⟨stored, by
      show a.height = b.height - 1
      omega⟩]
    rfl
  · have orphan := fits
    unfold FirstParentOk at orphan
    push Not at orphan
    obtain ⟨b, head, unlinked⟩ := orphan
    cases split : o.adaptiveChunks blocks with
    | nil =>
      rw [split] at whole
      cases whole
      cases head
    | cons chunk rest =>
      have full : chunk ≠ [] := ne_nil_of_mem_adaptiveChunks blocks (o := o) (by
        rw [split]
        exact List.mem_cons_self)
      rw [split] at whole
      rw [← whole, head?_flatten_of_ne_nil full] at head
      unfold ParentOk at unlinked
      push Not at unlinked
      obtain ⟨high, actual, found, other⟩ := unlinked
      obtain ⟨p, stored, rfl⟩ := Option.map_eq_some_iff.mp found
      obtain ⟨hp, below⟩ := Graph.blockAt_eq_some.mp stored
      refine rejected_of_orphan [] _ split List.isChain_nil head (Nat.pos_of_ne_zero high)
        other.symm fun g' sup => ?_
      rw [Graph.lookupBlockHash, Graph.blockAt_eq_some.mpr ⟨sup p (Or.inl hp), below⟩]
      rfl

/-- **Stored chain linkage.** In every run whose calls do not break inside a chunk, the stored edges
follow the hashes, and a list with a block that does not name its predecessor is rejected. -/
theorem chain_linked (reached : Relation.ReflTransGen o.LinkingStep .empty g) :
    g.Linked ∧ ∀ blocks c, blocks.IsChain Adjacent → o.BreaksBetween g blocks →
      ¬ blocks.IsChain Links → o.Rejected g c blocks :=
  ⟨linked_run reached, fun _ c adjacent between broken =>
    rejected_of_broken adjacent between broken c⟩

end IngestionOrchestrator

/-- A block at height 1 that names no stored block as its parent. -/
def Sample.stray : LocatedBlock := block 1 101 999 [coinbase 2 50 burnScript]

/-- Within one chunk, a block that does not name its predecessor is stored and linked to it. -/
theorem chain_unlinked :
    let r := ((Sample.orchestrator 1000000).ingestBlocksBatch [Sample.first, Sample.stray]).run
      World.handle ⟨⟨.empty, none⟩, .new 1000⟩
    Adjacent Sample.first Sample.stray ∧ ¬ Links Sample.first Sample.stray ∧
      r.1.isOk ∧ ¬ r.2.store.committed.Linked := by
  refine ⟨rfl, by decide, ?_, ?_⟩ <;> decide +kernel

/-- The chain of two blocks, and the list that strays from it in a chunk of its own. -/
theorem chain_linked_sample :
    let o := Sample.orchestrator 0
    let g := ((o.ingestBlocksBatch [Sample.first, Sample.second]).run World.handle
      ⟨⟨.empty, none⟩, .new 1000⟩).2.store.committed
    g.nextBlock = {(100, 101)} ∧ g.Linked ∧
      o.Rejected .empty (.new 1000) [Sample.first, Sample.stray] := by
  intro o g
  have single : ∀ b : LocatedBlock, [b].IsChain Links := List.isChain_singleton
  have chunks : ∀ b ∈ [Sample.second, Sample.stray],
      o.adaptiveChunks [Sample.first, b] = [[Sample.first], [b]] := by
    decide +kernel
  have between : ∀ b ∈ [Sample.second, Sample.stray], ∀ g,
      o.BreaksBetween g [Sample.first, b] := fun b hb g =>
    IngestionOrchestrator.breaksBetween_of_chunks fun chunk mem => by
      rw [chunks b hb] at mem
      rcases List.mem_cons.mp mem with rfl | mem
      · exact single _
      · exact List.mem_singleton.mp mem ▸ single _
  have step : o.LinkingStep .empty g :=
    ⟨.ingestBlocksBatch [Sample.first, Sample.second], .new 1000,
      ⟨List.isChain_pair.mpr rfl, between _ (by decide) _⟩, by rw [Call.program, Prog.run_discard]⟩
  refine ⟨by decide +kernel, (IngestionOrchestrator.chain_linked (.single step)).1, ?_⟩
  exact (IngestionOrchestrator.chain_linked .refl).2 _ _ (List.isChain_pair.mpr rfl)
    (between _ (by decide) _) (fun chain => absurd (List.isChain_pair.mp chain) (by decide))

end ChainGraph

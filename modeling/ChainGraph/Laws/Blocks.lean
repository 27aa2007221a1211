import ChainGraph.Laws.Effects

/-!
# Creating blocks

A list of blocks is created iff its hashes and heights are all new and all different. The links to
the previous blocks are made part by part: a part links its blocks in the graph they complete.
Blocks with ascending heights have their predecessors by then, so their links are those of the
finished graph, however the list is cut into parts.
-/

namespace ChainGraph

open Foundation Foundation.Store

namespace Graph

/-- The same graph with other blocks and links between them. -/
def withBlocks (g : Graph) (t : Table BlockNode BlockData.hash)
    (hu : ∀ a ∈ t, ∀ b ∈ t, a.height = b.height → a = b)
    (next : Multiset (BlockHash × BlockHash)) : Graph :=
  { g with blocks := t, heightUnique := hu, nextBlock := next }

/-- The `NEXT_BLOCK` of a block, if it has a predecessor by height. -/
def prevLink (g : Graph) (b : BlockData) : Option (BlockHash × BlockHash) :=
  if b.height > 0 then (g.blockAt (b.height - 1)).map fun prev => (prev.hash, b.hash) else none

/-- Blocks by height depend on the blocks alone. -/
theorem blockAt_congr {g g' : Graph} (h : g.blocks = g'.blocks) : g.blockAt = g'.blockAt := by
  funext height
  unfold blockAt
  rw [h]

theorem prevLink_congr {g g' : Graph} (h : g.blocks = g'.blocks) : g.prevLink = g'.prevLink := by
  funext b
  unfold prevLink
  rw [blockAt_congr h]

theorem foldl_linkPrev_eq {add : Multiset (BlockHash × BlockHash) → BlockHash × BlockHash →
      Multiset (BlockHash × BlockHash)} (rows : List BlockData) (g : Graph) :
    rows.foldl (linkPrev add) g =
      { g with nextBlock := (rows.filterMap g.prevLink).foldl add g.nextBlock } := by
  induction rows generalizing g with
  | nil => rfl
  | cons b rows ih =>
    have same : (linkPrev add g b).prevLink = g.prevLink := by
      apply prevLink_congr
      unfold linkPrev
      split
      · split <;> rfl
      · rfl
    rw [List.foldl_cons, ih, same, List.filterMap_cons]
    by_cases high : b.height > 0
    · cases stored : g.blockAt (b.height - 1) <;>
        simp only [linkPrev, prevLink, if_pos high, stored, Option.map_none, Option.map_some,
          List.foldl_cons]
    · simp only [linkPrev, prevLink, if_neg high]

/-- A block is merged iff no other block has its height. -/
theorem mergeBlock_eq_ok {g g' : Graph} {b : BlockData} :
    g.mergeBlock b = .ok g' ↔
      (∀ c ∈ g.blocks, c.height = b.height → c.hash = b.hash) ∧
        ∃ hu, g' = g.withBlocks (g.blocks.upsert b) hu g.nextBlock := by
  unfold mergeBlock
  constructor
  · intro h
    split at h
    · rename_i free
      cases h
      exact ⟨free, (g.putBlock b free).heightUnique, rfl⟩
    · cases h
  · rintro ⟨free, hu, rfl⟩
    exact dif_pos (c := ∀ c ∈ g.blocks.rows, c.height = b.height → c.hash = b.hash) free

/-- The rows of blocks that can be created: new hashes, all different, at new heights, all
different. -/
structure NewBlocks (g : Graph) (rows : List BlockData) : Prop where
  hashes : (rows.map (·.hash)).Nodup
  free : ∀ b ∈ rows, ¬ g.blocks.Has b.hash
  heights : (rows.map (·.height)).Nodup
  unused : ∀ b ∈ rows, ∀ c ∈ g.blocks, c.height ≠ b.height

theorem NewBlocks.left {g : Graph} {rows s : List BlockData}
    (h : g.NewBlocks (rows ++ s)) : g.NewBlocks rows where
  hashes := (List.nodup_append.mp (List.map_append ▸ h.hashes)).1
  free b mem := h.free b (List.mem_append_left _ mem)
  heights := (List.nodup_append.mp (List.map_append ▸ h.heights)).1
  unused b mem := h.unused b (List.mem_append_left _ mem)

theorem createBlock_eq_ok {g g' : Graph} {b : BlockData} :
    g.createBlock b = .ok g' ↔
      (¬ g.blocks.Has b.hash ∧ ∀ c ∈ g.blocks, c.height ≠ b.height) ∧
        ∃ hu, g' = g.withBlocks (g.blocks.upsert b) hu g.nextBlock := by
  unfold createBlock
  by_cases taken : g.blocks.Has b.hash
  · rw [if_pos taken]
    constructor
    · intro h
      cases h
    · rintro ⟨⟨free, _⟩, _⟩
      exact absurd taken free
  · rw [if_neg taken, mergeBlock_eq_ok]
    refine and_congr_left fun _ => ⟨fun free => ⟨taken, fun c hc same => ?_⟩, fun free c hc same =>
      absurd same (free.2 c hc)⟩
    exact taken ⟨c, hc, free c hc same⟩

/-- Blocks are created iff their hashes and heights are new and different. -/
theorem foldlM_createBlock {rows : List BlockData} {g g' : Graph} :
    rows.foldlM createBlock g = .ok g' ↔
      g.NewBlocks rows ∧
        ∃ hu, g' = g.withBlocks (rows.foldl Table.upsert g.blocks) hu g.nextBlock := by
  induction rows generalizing g with
  | nil =>
    constructor
    · intro h
      cases h
      exact ⟨⟨List.nodup_nil, by simp, List.nodup_nil, by simp⟩, g'.heightUnique, rfl⟩
    · rintro ⟨_, hu, rfl⟩
      rfl
  | cons b rows ih =>
    rw [List.foldlM_cons]
    constructor
    · intro h
      cases first : g.createBlock b with
      | error e =>
        rw [first] at h
        cases h
      | ok g₁ =>
        rw [first] at h
        obtain ⟨rest, hu, rfl⟩ := ih.mp h
        obtain ⟨⟨free, unused⟩, hu₁, rfl⟩ := createBlock_eq_ok.mp first
        refine ⟨⟨List.nodup_cons.mpr ⟨fun mem => ?_, rest.hashes⟩, ?_,
          List.nodup_cons.mpr ⟨fun mem => ?_, rest.heights⟩, ?_⟩, hu, rfl⟩
        · obtain ⟨c, hc, same⟩ := List.mem_map.mp mem
          exact rest.free c hc (Table.has_upsert.mpr (Or.inl same.symm))
        · intro c hc
          rcases List.mem_cons.mp hc with rfl | hc
          · exact free
          · exact fun has => rest.free c hc (Table.has_upsert.mpr (Or.inr has))
        · obtain ⟨c, hc, same⟩ := List.mem_map.mp mem
          exact rest.unused c hc b (Table.mem_upsert.mpr (Or.inl rfl)) same.symm
        · intro c hc d hd
          rcases List.mem_cons.mp hc with rfl | hc
          · exact unused d hd
          · refine rest.unused c hc d (Table.mem_upsert.mpr (Or.inr ⟨hd, fun same => ?_⟩))
            exact free ⟨d, hd, same⟩
    · rintro ⟨new, hu, rfl⟩
      obtain ⟨other, hashes⟩ := List.nodup_cons.mp new.hashes
      obtain ⟨apart, heights⟩ := List.nodup_cons.mp new.heights
      have unused := new.unused b List.mem_cons_self
      have free := new.free b List.mem_cons_self
      have apart' : ∀ c ∈ g.blocks.rows, c.height = b.height → c.hash = b.hash :=
        fun c hc same => absurd same (unused c hc)
      have first : g.createBlock b = .ok (g.putBlock b apart') :=
        createBlock_eq_ok.mpr ⟨⟨free, unused⟩, (g.putBlock b apart').heightUnique, rfl⟩
      rw [first]
      refine ih.mpr ⟨⟨hashes, fun c hc has => ?_, heights, fun c hc d hd same => ?_⟩, hu, rfl⟩
      · rcases Table.has_upsert.mp has with same | old
        · exact other (List.mem_map.mpr ⟨c, hc, same.symm⟩)
        · exact new.free c (List.mem_cons_of_mem b hc) old
      · rcases Table.mem_upsert.mp hd with rfl | ⟨old, _⟩
        · exact apart (List.mem_map.mpr ⟨c, hc, same.symm⟩)
        · exact new.unused c (List.mem_cons_of_mem b hc) d old same

/-- Blocks by height are stable: created blocks leave the other heights alone. -/
theorem blockAt_withBlocks {g : Graph} {rows : List BlockData} (new : g.NewBlocks rows)
    {hu : ∀ a ∈ rows.foldl Table.upsert g.blocks, ∀ b ∈ rows.foldl Table.upsert g.blocks,
      a.height = b.height → a = b} {next : Multiset (BlockHash × BlockHash)} {height : ℕ}
    (other : ∀ b ∈ rows, b.height ≠ height) :
    (g.withBlocks (rows.foldl Table.upsert g.blocks) hu next).blockAt height =
      g.blockAt height := by
  ext b
  show _ = some b ↔ _ = some b
  rw [blockAt_eq_some, blockAt_eq_some]
  have members := Table.mem_foldl_upsert_new new.hashes new.free (x := b)
  constructor
  · rintro ⟨mem, same⟩
    rcases members.mp mem with fresh | old
    · exact absurd same (other b fresh)
    · exact ⟨old, same⟩
  · rintro ⟨old, same⟩
    exact ⟨members.mpr (Or.inr old), same⟩

/-- Created blocks have different heights. -/
theorem NewBlocks.heightUnique {g : Graph} {rows : List BlockData} (new : g.NewBlocks rows) :
    ∀ a ∈ rows.foldl Table.upsert g.blocks, ∀ b ∈ rows.foldl Table.upsert g.blocks,
      a.height = b.height → a = b := by
  intro a ha b hb same
  rcases (Table.mem_foldl_upsert_new new.hashes new.free).mp ha with na | oa <;>
    rcases (Table.mem_foldl_upsert_new new.hashes new.free).mp hb with nb | ob
  · exact List.inj_on_of_nodup_map new.heights na nb same
  · exact absurd same.symm (new.unused a na b ob)
  · exact absurd same (new.unused b nb a oa)
  · exact g.heightUnique a oa b ob same

theorem newBlocks_append {g : Graph} {rows rows' : List BlockData}
    (first : g.NewBlocks rows)
    (hu : ∀ a ∈ rows.foldl Table.upsert g.blocks, ∀ b ∈ rows.foldl Table.upsert g.blocks,
      a.height = b.height → a = b) (next : Multiset (BlockHash × BlockHash)) :
    g.NewBlocks (rows ++ rows') ↔
      (g.withBlocks (rows.foldl Table.upsert g.blocks) hu next).NewBlocks rows' := by
  have members : ∀ x, x ∈ rows.foldl Table.upsert g.blocks ↔ x ∈ rows ∨ x ∈ g.blocks :=
    fun x => Table.mem_foldl_upsert_new first.hashes first.free
  have has : ∀ k, (rows.foldl Table.upsert g.blocks).Has k ↔
      k ∈ rows.map (·.hash) ∨ g.blocks.Has k := fun k => Table.has_foldl_upsert rows g.blocks
  constructor
  · intro all
    have hashes := all.hashes
    have heights := all.heights
    rw [List.map_append] at hashes heights
    obtain ⟨_, hashes', apart⟩ := List.nodup_append.mp hashes
    obtain ⟨_, heights', apart'⟩ := List.nodup_append.mp heights
    refine ⟨hashes', fun b hb taken => ?_, heights', fun b hb c hc same => ?_⟩
    · rcases (has b.hash).mp taken with mem | old
      · exact apart _ mem _ (List.mem_map_of_mem hb) rfl
      · exact all.free b (List.mem_append_right rows hb) old
    · rcases (members c).mp hc with mem | old
      · exact apart' _ (List.mem_map_of_mem mem) _ (List.mem_map_of_mem hb) same
      · exact all.unused b (List.mem_append_right rows hb) c old same
  · intro rest
    refine ⟨?_, fun b hb => ?_, ?_, fun b hb c hc => ?_⟩
    · rw [List.map_append]
      refine List.nodup_append.mpr ⟨first.hashes, rest.hashes, fun h mem h' mem' same => ?_⟩
      obtain ⟨b, hb, rfl⟩ := List.mem_map.mp mem'
      exact rest.free b hb ((has b.hash).mpr (Or.inl (same ▸ mem)))
    · rcases List.mem_append.mp hb with hb | hb
      · exact first.free b hb
      · exact fun old => rest.free b hb ((has b.hash).mpr (Or.inr old))
    · rw [List.map_append]
      refine List.nodup_append.mpr ⟨first.heights, rest.heights, fun h mem h' mem' same => ?_⟩
      obtain ⟨b, hb, rfl⟩ := List.mem_map.mp mem
      obtain ⟨c, hc, rfl⟩ := List.mem_map.mp mem'
      exact rest.unused c hc b ((members b).mpr (Or.inl hb)) same
    · rcases List.mem_append.mp hb with hb | hb
      · exact first.unused b hb c hc
      · exact rest.unused b hb c ((members c).mpr (Or.inr hc))

/-- Heights that rise along a list. -/
def Ascending (rows : List BlockData) : Prop := rows.Pairwise (·.height < ·.height)

/-- Creating the blocks of one query. -/
theorem exec_createBlocksFast {rows : List BlockData} {g g' : Graph} :
    Query.exec (.createBlocksFast rows) g = .ok g' ↔
      g.NewBlocks rows ∧ ∃ hu next,
        g' = g.withBlocks (rows.foldl Table.upsert g.blocks) hu next ∧
          next = g.nextBlock + ↑(rows.filterMap
            (g.withBlocks (rows.foldl Table.upsert g.blocks) hu next).prevLink) := by
  have unfolded : Query.exec (.createBlocksFast rows) g =
      (rows.foldlM createBlock g >>= fun g => .ok (rows.foldl (linkPrev link) g)) := rfl
  rw [unfolded]
  constructor
  · intro h
    cases created : rows.foldlM createBlock g with
    | error e =>
      rw [created] at h
      cases h
    | ok g₁ =>
      rw [created] at h
      obtain ⟨new, hu, rfl⟩ := foldlM_createBlock.mp created
      have done := (Except.ok.inj h).symm
      rw [foldl_linkPrev_eq, foldl_link] at done
      exact ⟨new, hu, _, done, rfl⟩
  · rintro ⟨new, hu, next, rfl, links⟩
    rw [foldlM_createBlock.mpr ⟨new, hu, rfl⟩]
    show Except.ok _ = _
    rw [foldl_linkPrev_eq, foldl_link]
    exact congrArg Except.ok (congrArg (g.withBlocks _ hu) links.symm)

/-- Merging one block. -/
theorem exec_createBlocks_one {b : BlockData} {g g' : Graph} :
    Query.exec (.createBlocks [b]) g = .ok g' ↔
      (∀ c ∈ g.blocks, c.height = b.height → c.hash = b.hash) ∧ ∃ hu next,
        g' = g.withBlocks (g.blocks.upsert b) hu next ∧
          next = ([b].filterMap (g.withBlocks (g.blocks.upsert b) hu next).prevLink).foldl
            mergeLink g.nextBlock := by
  have unfolded : Query.exec (.createBlocks [b]) g =
      (g.mergeBlock b >>= fun g => .ok ([b].foldl (linkPrev mergeLink) g)) := by
    show ((g.mergeBlock b >>= fun g => .ok g) >>= _) = _
    cases g.mergeBlock b <;> rfl
  rw [unfolded]
  constructor
  · intro h
    cases merged : g.mergeBlock b with
    | error e =>
      rw [merged] at h
      cases h
    | ok g₁ =>
      rw [merged] at h
      obtain ⟨free, hu, rfl⟩ := mergeBlock_eq_ok.mp merged
      have done := (Except.ok.inj h).symm
      rw [foldl_linkPrev_eq] at done
      exact ⟨free, hu, _, done, rfl⟩
  · rintro ⟨free, hu, next, rfl, links⟩
    rw [mergeBlock_eq_ok.mpr ⟨free, hu, rfl⟩]
    show Except.ok _ = _
    rw [foldl_linkPrev_eq]
    exact congrArg Except.ok (congrArg (g.withBlocks _ hu) links.symm)

/-- A block whose height is free can be merged. -/
theorem exec_createBlocks_one_ok {b : BlockData} {g : Graph}
    (free : ∀ c ∈ g.blocks, c.height = b.height → c.hash = b.hash) :
    ∃ g', Query.exec (.createBlocks [b]) g = .ok g' :=
  ⟨_, exec_createBlocks_one.mpr ⟨free, (g.putBlock b free).heightUnique, _, rfl,
    (congrArg (fun link => ([b].filterMap link).foldl mergeLink g.nextBlock)
      (prevLink_congr (g := g.putBlock b free) rfl) : _)⟩⟩

/-- Merging a block that was merged already, its links too. -/
theorem exec_createBlocks_one_again {b : BlockData} {g g₁ g' : Graph}
    (created : Query.exec (.createBlocks [b]) g = .ok g₁) (blocks : g'.blocks = g₁.blocks)
    (next : g'.nextBlock = g₁.nextBlock) : Query.exec (.createBlocks [b]) g' = .ok g' := by
  obtain ⟨-, hu, links, rfl, linked⟩ := exec_createBlocks_one.mp created
  have stored : g'.blocks = g.blocks.upsert b := blocks
  have linked' : g'.nextBlock = links := next
  have free : ∀ c ∈ g'.blocks, c.height = b.height → c.hash = b.hash := by
    intro c hc same
    rw [stored] at hc
    rw [hu c hc b (Table.mem_upsert.mpr (Or.inl rfl)) same]
  have twice : g'.blocks.upsert b = g'.blocks := by
    rw [stored]
    exact Table.foldl_upsert_twice [b] g.blocks
  refine exec_createBlocks_one.mpr ⟨free, (g'.putBlock b free).heightUnique, g'.nextBlock, ?_, ?_⟩
  · exact Graph.ext twice.symm rfl rfl rfl rfl rfl rfl rfl rfl rfl rfl rfl rfl rfl
  · have same : (g'.withBlocks (g'.blocks.upsert b) (g'.putBlock b free).heightUnique
        g'.nextBlock).prevLink = (g.withBlocks (g.blocks.upsert b) hu links).prevLink :=
      prevLink_congr (twice.trans stored)
    rw [same, linked']
    refine (foldl_mergeLink_of_mem ?_).symm
    intro e mem
    rw [linked]
    exact mem_foldl_mergeLink.mpr (Or.inl mem)

/-- The links of rows under ascending heights do not change as later rows come in. -/
theorem filterMap_prevLink_withBlocks {g : Graph} {rows rows' : List BlockData}
    (new : g.NewBlocks rows') (below : ∀ b ∈ rows, ∀ c ∈ rows', b.height < c.height)
    (hu : ∀ a ∈ rows'.foldl Table.upsert g.blocks, ∀ b ∈ rows'.foldl Table.upsert g.blocks,
      a.height = b.height → a = b) (next : Multiset (BlockHash × BlockHash)) :
    rows.filterMap (g.withBlocks (rows'.foldl Table.upsert g.blocks) hu next).prevLink =
      rows.filterMap g.prevLink := by
  refine List.filterMap_congr fun b hb => ?_
  unfold prevLink
  split
  · rw [blockAt_withBlocks new fun c hc => ?_]
    have := below b hb c hc
    omega
  · rfl

/-- Creating the blocks of several queries, one after the other. -/
theorem execAll_createBlocksFast_parts {cs : List (List BlockData)} {g g' : Graph}
    (ok : execAll neo4j (cs.flatMap fun c => [.createBlocksFast c]) g = .ok g') :
    g.NewBlocks cs.flatten ∧ ∃ hu next,
      g' = g.withBlocks (cs.flatten.foldl Table.upsert g.blocks) hu next ∧
        (Ascending cs.flatten → next = g.nextBlock + ↑(cs.flatten.filterMap
          (g.withBlocks (cs.flatten.foldl Table.upsert g.blocks) hu next).prevLink)) := by
  induction cs generalizing g with
  | nil =>
    cases ok
    exact ⟨⟨List.nodup_nil, by simp, List.nodup_nil, by simp⟩, g'.heightUnique, g'.nextBlock, rfl,
      fun _ => by simp⟩
  | cons c cs ih =>
    rw [List.flatMap_cons, execAll_append_eq_ok] at ok
    obtain ⟨g₁, first, rest⟩ := ok
    rw [execAll_singleton] at first
    obtain ⟨new, hu, next₁, rfl, same⟩ := exec_createBlocksFast.mp first
    obtain ⟨new', hu', next, rfl, links⟩ := ih rest
    have chained : (c :: cs).flatten.foldl Table.upsert g.blocks =
        cs.flatten.foldl Table.upsert (c.foldl Table.upsert g.blocks) := by
      rw [List.flatten_cons, List.foldl_append]
    have all : g.NewBlocks (c :: cs).flatten := by
      rw [List.flatten_cons]
      exact (newBlocks_append new hu _).mpr new'
    refine ⟨all, ?_⟩
    rw [chained, List.flatten_cons]
    refine ⟨hu', next, rfl, fun ascending => ?_⟩
    obtain ⟨_, ascending', below⟩ := List.pairwise_append.mp ascending
    have links' := links ascending'
    have stable := filterMap_prevLink_withBlocks new' below hu' next
    calc next = _ := links'
      _ = _ := by
        rw [List.filterMap_append, ← Multiset.coe_add, ← add_assoc]
        exact congrArg₂ _ (same.trans (congrArg _ (congrArg _ stable.symm))) rfl

/-- **Creating blocks** in sub-batches. -/
theorem execAll_createBlocksFast {w : Neo4jWriter} {rows : List BlockData} {g g' : Graph}
    (ok : execAll neo4j (w.batchQueries .createBlocksFast rows) g = .ok g') :
    g.NewBlocks rows ∧ ∃ hu next,
      g' = g.withBlocks (rows.foldl Table.upsert g.blocks) hu next ∧
        (Ascending rows → next = g.nextBlock + ↑(rows.filterMap
          (g.withBlocks (rows.foldl Table.upsert g.blocks) hu next).prevLink)) := by
  have parts := execAll_createBlocksFast_parts ok
  rw [flatten_chunks w.batchSize_pos] at parts
  exact parts

/-- The highest stored block. -/
theorem getMaxBlockHeight_eq {g : Graph} {top : ℕ} (here : (g.blockAt top).isSome)
    (members : ∀ n ∈ g.blocks, n.height ≤ top) (word : top < 2 ^ 32) :
    g.getMaxBlockHeight = some top := by
  obtain ⟨node, found⟩ := Option.isSome_iff_exists.mp here
  obtain ⟨stored, height⟩ := blockAt_eq_some.mp found
  have max : g.blocks.rows.sup (·.height) = top := by
    refine Nat.le_antisymm (Finset.sup_le members) ?_
    have high := Finset.le_sup (f := fun n : BlockNode => n.height) stored
    rw [height] at high
    exact high
  unfold getMaxBlockHeight
  rw [if_pos ⟨_, stored⟩, max, asU32_of_lt word]

end Graph

end ChainGraph

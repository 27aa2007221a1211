import ChainGraph.Laws.Torn

/-!
# Interrupted rollbacks

`rollback_to_height` deletes the blocks above the fork point from the tip down, each with four
statements that are committed on their own, and moves the checkpoint at the very end. After a crash
in between the checkpoint still stands at the old tip, so `sync_checkpoint_with_db`, which looks for
blocks above the checkpoint only, resumes above everything that has been deleted.

What the statements sent so far leave is told by four heights: from which on the inputs, the
outputs, the transactions and the blocks are gone. A transaction two blocks share goes with the
higher one.
-/

namespace ChainGraph

open Foundation Foundation.Store

namespace Graph

variable {g c : Graph} {a b d e k top tip h f n : ℕ} {t : Txid}

/-! ## Shared transactions -/

/-- The transaction is included in a block at a height or above it. -/
def InBlockFrom (g : Graph) (height : ℕ) (txid : Txid) : Prop :=
  ∃ b ∈ g.blocks.rows, height ≤ b.height ∧ (txid, b.hash) ∈ g.includedIn

instance (g : Graph) (height : ℕ) (txid : Txid) : Decidable (g.InBlockFrom height txid) :=
  inferInstanceAs (Decidable (∃ b ∈ g.blocks.rows, _))

/-- No transaction is in a block below a height and in another one from there on. -/
def Apart (g : Graph) (height : ℕ) : Prop :=
  ∀ k < height, ∀ t, g.InBlockAt k t → ¬ g.InBlockFrom height t

/-- Where no transaction is included twice, all heights are. -/
theorem apart_of_nodup (once : (g.includedIn.map Prod.fst).Nodup) (h : ℕ) : g.Apart h := by
  intro k low t inBlock above
  obtain ⟨n, mem, height, included⟩ := inBlock
  obtain ⟨n', mem', high, included'⟩ := above
  have same := congrArg Prod.snd (Multiset.inj_on_of_nodup_map once _ included _ included' rfl)
  have node : n = n' := g.blocks.unique n mem n' mem' same
  rw [← node] at high
  omega

theorem InBlockAt.from (inBlock : g.InBlockAt k t) : g.InBlockFrom k t := by
  obtain ⟨n, mem, height, included⟩ := inBlock
  exact ⟨n, mem, Nat.le_of_eq height.symm, included⟩

theorem InBlockFrom.mono (inBlock : g.InBlockFrom d t) (le : a ≤ d) : g.InBlockFrom a t := by
  obtain ⟨n, mem, height, included⟩ := inBlock
  exact ⟨n, mem, Nat.le_trans le height, included⟩

/-- In a block from a height on: in the one there, or further up. -/
theorem inBlockFrom_iff (low : k ≤ a) (high : a ≤ k + 1) :
    g.InBlockFrom k t ↔ g.InBlockAt k t ∨ g.InBlockFrom a t := by
  constructor
  · intro inBlock
    obtain ⟨n, mem, height, included⟩ := inBlock
    by_cases here : n.height = k
    · exact Or.inl ⟨n, mem, here, included⟩
    · exact Or.inr ⟨n, mem, by omega, included⟩
  · intro inBlock
    rcases inBlock with here | above
    · exact here.from
    · exact above.mono low

/-! ## What is left -/

/-- The inputs, outputs, transactions and blocks from these heights on are gone, and the rest is
there. -/
structure Peeled (g : Graph) (a b d e : ℕ) (c : Graph) : Prop where
  blocks : ∀ n, n ∈ c.blocks ↔ n ∈ g.blocks ∧ n.height < e
  includedIn : c.includedIn = g.includedIn.filter fun x => ¬ g.InBlockFrom d x.1
  hasInput : ∀ x, x ∈ c.hasInput ↔ x ∈ g.hasInput ∧ ¬ g.InBlockFrom a x.1
  hasOutput : ∀ x, x ∈ c.hasOutput ↔ x ∈ g.hasOutput ∧ ¬ g.InBlockFrom b x.1
  transactions : ∀ x ∈ g.transactions, ¬ g.InBlockFrom d x.txid → x ∈ c.transactions
  inputs : ∀ x ∈ g.inputs, ¬ g.InBlockFrom a x.inputId.txid → x ∈ c.inputs
  outputs : ∀ x ∈ g.outputs, ¬ g.InBlockFrom b x.outputId.txid → x ∈ c.outputs

/-- An input or an output belongs to the transaction its identifier names. -/
structure OwnIds (g : Graph) : Prop where
  inputs : ∀ x ∈ g.hasInput, x.2.txid = x.1
  outputs : ∀ x ∈ g.hasOutput, x.2.txid = x.1

/-- Nothing is gone above the highest block. -/
theorem peeled_start (above : ∀ n ∈ g.blocks, n.height < h) : Peeled g h h h h g := by
  have nowhere : ∀ t, ¬ g.InBlockFrom h t := by
    intro t inBlock
    obtain ⟨n, mem, height, -⟩ := inBlock
    have below := above n mem
    omega
  refine ⟨fun n => ?_, ?_, fun x => ?_, fun x => ?_, fun _ mem _ => mem, fun _ mem _ => mem,
    fun _ mem _ => mem⟩
  · exact ⟨fun mem => ⟨mem, above n mem⟩, And.left⟩
  · exact (Multiset.filter_eq_self.mpr fun x _ => nowhere x.1).symm
  · exact ⟨fun mem => ⟨mem, nowhere x.1⟩, And.left⟩
  · exact ⟨fun mem => ⟨mem, nowhere x.1⟩, And.left⟩

theorem Peeled.inBlockAt (peeled : Peeled g a b d e c) (below : k < e) :
    c.InBlockAt k t ↔ g.InBlockAt k t ∧ ¬ g.InBlockFrom d t := by
  constructor
  · intro inBlock
    obtain ⟨n, mem, height, included⟩ := inBlock
    rw [peeled.includedIn, Multiset.mem_filter] at included
    exact ⟨⟨n, ((peeled.blocks n).mp mem).1, height, included.1⟩, included.2⟩
  · intro inBlock
    obtain ⟨⟨n, mem, height, included⟩, kept⟩ := inBlock
    refine ⟨n, (peeled.blocks n).mpr ⟨mem, by omega⟩, height, ?_⟩
    rw [peeled.includedIn]
    exact Multiset.mem_filter.mpr ⟨included, kept⟩

/-- The inputs or outputs of a block are deleted: what is left of the edges to them. -/
theorem Peeled.strip (peeled : Peeled g a b d e c) {links kept : Multiset (Txid × OutPoint)}
    (own : ∀ x ∈ links, x.2.txid = x.1)
    (keeps : ∀ x, x ∈ kept ↔ x ∈ links ∧ ¬ g.InBlockFrom n x.1) (below : k < e) (low : k ≤ n)
    (high : n ≤ k + 1) (le : n ≤ d) (x : Txid × OutPoint) :
    (x ∈ kept ∧ ¬ ∃ y ∈ kept, y.2 = x.2 ∧ c.InBlockAt k y.1) ↔
      x ∈ links ∧ ¬ g.InBlockFrom k x.1 := by
  rw [inBlockFrom_iff low high]
  constructor
  · intro stays
    obtain ⟨mem, alone⟩ := stays
    obtain ⟨old, above⟩ := (keeps x).mp mem
    refine ⟨old, fun deleted => ?_⟩
    rcases deleted with here | higher
    · refine alone ⟨x, mem, rfl, (peeled.inBlockAt below).mpr ⟨here, fun gone => ?_⟩⟩
      exact above (gone.mono le)
    · exact above higher
  · intro stays
    obtain ⟨old, away⟩ := stays
    refine ⟨(keeps x).mpr ⟨old, fun higher => away (Or.inr higher)⟩, fun taken => ?_⟩
    obtain ⟨y, mem, same, inBlock⟩ := taken
    have owner : y.1 = x.1 := by
      rw [← own y ((keeps y).mp mem).1, ← own x old, same]
    rw [owner] at inBlock
    exact away (Or.inl ((peeled.inBlockAt below).mp inBlock).1)

/-- A node is no input or output of the block if its transaction is not in the block. -/
theorem Peeled.not_taken (peeled : Peeled g a b d e c) {links kept : Multiset (Txid × OutPoint)}
    (own : ∀ x ∈ links, x.2.txid = x.1)
    (keeps : ∀ x, x ∈ kept ↔ x ∈ links ∧ ¬ g.InBlockFrom n x.1) (below : k < e)
    {id : OutPoint} (away : ¬ g.InBlockFrom k id.txid) :
    ¬ ∃ y ∈ kept, y.2 = id ∧ c.InBlockAt k y.1 := by
  intro taken
  obtain ⟨y, mem, same, inBlock⟩ := taken
  have owner : y.1 = id.txid := by
    rw [← own y ((keeps y).mp mem).1, same]
  rw [owner] at inBlock
  exact away ((peeled.inBlockAt below).mp inBlock).1.from

/-! ## The four statements -/

theorem Peeled.deleteInputs (own : g.OwnIds) (peeled : Peeled g a b d e c) (below : k < e)
    (low : k ≤ a) (high : a ≤ k + 1) (le : a ≤ d) :
    Peeled g k b d e (c.detachDeleteInputs (c.InputOfBlockAt k)) := by
  refine { peeled with hasInput := fun x => ?_, inputs := fun x mem away => ?_ }
  · rw [← peeled.strip own.inputs peeled.hasInput below low high le x]
    exact Multiset.mem_filter
  · refine Table.mem_delete.mpr ⟨peeled.inputs x mem fun higher => away (higher.mono low), ?_⟩
    exact peeled.not_taken own.inputs peeled.hasInput below away

theorem Peeled.deleteOutputs (own : g.OwnIds) (peeled : Peeled g a b d e c) (below : k < e)
    (low : k ≤ b) (high : b ≤ k + 1) (le : b ≤ d) :
    Peeled g a k d e (c.detachDeleteOutputs (c.OutputOfBlockAt k)) := by
  refine { peeled with hasOutput := fun x => ?_, outputs := fun x mem away => ?_ }
  · rw [← peeled.strip own.outputs peeled.hasOutput below low high le x]
    exact Multiset.mem_filter
  · refine Table.mem_delete.mpr ⟨peeled.outputs x mem fun higher => away (higher.mono low), ?_⟩
    exact peeled.not_taken own.outputs peeled.hasOutput below away

theorem Peeled.deleteTransactions (peeled : Peeled g k k d e c) (below : k < e)
    (low : k ≤ d) (high : d ≤ k + 1) :
    Peeled g k k k e (c.detachDeleteTransactions (c.InBlockAt k)) := by
  have away : ∀ {t}, ¬ g.InBlockFrom k t → ¬ c.InBlockAt k t := by
    intro t away inBlock
    exact away ((peeled.inBlockAt below).mp inBlock).1.from
  refine { peeled with
    includedIn := ?_
    hasInput := fun x => ?_
    hasOutput := fun x => ?_
    transactions := fun x mem kept => ?_ }
  · show c.includedIn.filter _ = _
    rw [peeled.includedIn, Multiset.filter_filter]
    refine Multiset.filter_congr fun x _ => ?_
    rw [peeled.inBlockAt below, inBlockFrom_iff low high]
    tauto
  · refine Multiset.mem_filter.trans ⟨fun stays => (peeled.hasInput x).mp stays.1, fun stays => ?_⟩
    exact ⟨(peeled.hasInput x).mpr stays, away stays.2⟩
  · refine Multiset.mem_filter.trans ⟨fun stays => (peeled.hasOutput x).mp stays.1, fun stays => ?_⟩
    exact ⟨(peeled.hasOutput x).mpr stays, away stays.2⟩
  · refine Table.mem_delete.mpr ⟨peeled.transactions x mem fun higher => ?_, away kept⟩
    exact kept (higher.mono low)

theorem Peeled.deleteBlock (peeled : Peeled g k k k (k + 1) c) :
    Peeled g k k k k (c.detachDeleteBlockAt k) := by
  have blocks : ∀ n, n ∈ (c.detachDeleteBlockAt k).blocks ↔ n ∈ g.blocks ∧ n.height < k := by
    intro n
    rw [mem_blocks_detachDeleteBlockAt, peeled.blocks, and_assoc]
    exact and_congr_right fun _ => by omega
  revert blocks
  unfold detachDeleteBlockAt
  cases stored : c.blockAt k with
  | none =>
    intro blocks
    exact { peeled with blocks := blocks }
  | some b =>
    intro blocks
    obtain ⟨mem, height⟩ := blockAt_eq_some.mp stored
    refine { peeled with blocks := blocks, includedIn := ?_ }
    show c.includedIn.filter _ = _
    rw [peeled.includedIn]
    refine Multiset.filter_eq_self.mpr fun x left => ?_
    obtain ⟨included, away⟩ := Multiset.mem_filter.mp left
    intro same
    refine away ⟨b, ((peeled.blocks b).mp mem).1, by omega, ?_⟩
    rw [← same]
    exact included

/-- The four of them. -/
theorem Peeled.rollbackBlock (own : g.OwnIds) (peeled : Peeled g a b d (k + 1) c) (low : k ≤ a)
    (le : a ≤ b) (le' : b ≤ d) (high : d ≤ k + 1) : Peeled g k k k k (c.rollbackBlock k) :=
  (((peeled.deleteInputs own (by omega) low (by omega) (by omega)).deleteOutputs own (by omega)
    (by omega) (by omega) (by omega)).deleteTransactions (by omega) (by omega) high).deleteBlock

/-- What is left after a walk has come down to a height from the highest block. -/
theorem Peeled.rolledBack (own : g.OwnIds) (peeled : Peeled g a b d (top + 1) c) (low : top ≤ a)
    (le : a ≤ b) (le' : b ≤ d) (high : d ≤ top + 1) (below : k ≤ top) :
    Peeled g (min a (k + 1)) (min b (k + 1)) (min d (k + 1)) (k + 1)
      (c.rolledBack top (k + 1)) := by
  obtain ⟨n, rfl⟩ := Nat.exists_eq_add_of_le below
  induction n generalizing k with
  | zero =>
    rw [Nat.add_zero, rolledBack_top, Nat.min_eq_left (by omega), Nat.min_eq_left (by omega),
      Nat.min_eq_left (by omega)]
    exact peeled
  | succ n ih =>
    have next : k + (n + 1) = k + 1 + n := by omega
    rw [next] at peeled low high ⊢
    have before := ih peeled low high (by omega)
    rw [← rolledBack_step (by omega), Nat.min_eq_right (by omega), Nat.min_eq_right (by omega),
      Nat.min_eq_right (by omega)]
    exact before.rollbackBlock own (by omega) (by omega) (by omega) (by omega)

/-! ## Stored chains -/

/-- A chain of blocks stored from the start up to a height, where the checkpoint is. -/
structure StoredChain (g : Graph) (tip : ℕ) : Prop where
  sound : Sound g
  own : g.OwnIds
  stored : ∀ k ≤ tip, (g.blockAt k).isSome
  above : ∀ n ∈ g.blocks, n.height ≤ tip
  counts : ∀ n ∈ g.blocks, 0 < n.txCount ∧ n.txCount < 2 ^ 32 ∧
    (g.includedIn.filter (·.2 = n.hash)).card = n.txCount
  inputs : ∀ k ≤ tip, ∃ id, g.InputOfBlockAt k id
  checkpoint : g.storedHeight = tip
  word : tip < 2 ^ 31

/-- Nothing of the block at a height is gone: neither its node, nor its transactions and their
inclusion, nor their inputs and outputs. -/
structure Intact (g : Graph) (height : ℕ) (c : Graph) : Prop where
  block : (c.blockAt height).isSome
  same : c.blockAt height = g.blockAt height
  transactions : ∀ x ∈ g.transactions, g.InBlockAt height x.txid →
    x ∈ c.transactions ∧ c.InBlockAt height x.txid
  inputs : ∀ x ∈ g.inputs, g.InputOfBlockAt height x.inputId →
    x ∈ c.inputs ∧ c.InputOfBlockAt height x.inputId
  outputs : ∀ x ∈ g.outputs, g.OutputOfBlockAt height x.outputId →
    x ∈ c.outputs ∧ c.OutputOfBlockAt height x.outputId

/-- The checkpoint is no part of a block. -/
theorem intact_checkpoint {x : Option Checkpoint} :
    Intact g k { c with checkpoint := x } ↔ Intact g k c :=
  ⟨fun i => ⟨i.block, i.same, i.transactions, i.inputs, i.outputs⟩,
    fun i => ⟨i.block, i.same, i.transactions, i.inputs, i.outputs⟩⟩

theorem Peeled.blockAt (peeled : Peeled g a b d e c) (below : k < e) :
    c.blockAt k = g.blockAt k := by
  cases stored : g.blockAt k with
  | some n =>
    obtain ⟨mem, height⟩ := blockAt_eq_some.mp stored
    exact blockAt_eq_some.mpr ⟨(peeled.blocks n).mpr ⟨mem, by omega⟩, height⟩
  | none =>
    refine blockAt_eq_none.mpr fun n mem => ?_
    exact blockAt_eq_none.mp stored n ((peeled.blocks n).mp mem).1

/-- A block is complete as long as none of its transactions is gone. -/
theorem Peeled.completeAt (chain : StoredChain g tip) (peeled : Peeled g a b d e c) (below : k < e)
    (inside : k ≤ tip) : c.CompleteAt k ↔ ∀ t, g.InBlockAt k t → ¬ g.InBlockFrom d t := by
  obtain ⟨n, here⟩ := Option.isSome_iff_exists.mp (chain.stored k inside)
  obtain ⟨mem, height⟩ := blockAt_eq_some.mp here
  obtain ⟨pos, word, count⟩ := chain.counts n mem
  have counted : c.checkBlockComplete k =
      .ok (n.txCount, asU32 (c.includedIn.filter (·.2 = n.hash)).card) := by
    unfold checkBlockComplete
    rw [peeled.blockAt below, here]
  have part : c.includedIn.filter (·.2 = n.hash) ≤ g.includedIn.filter (·.2 = n.hash) := by
    rw [peeled.includedIn]
    exact Multiset.filter_le_filter _ (Multiset.filter_le ..)
  have fewer := Multiset.card_le_card part
  rw [asU32_of_lt (by omega)] at counted
  constructor
  · intro complete t inBlock
    obtain ⟨m, -, same⟩ := complete
    rw [counted] at same
    obtain ⟨expected, actual⟩ := Prod.mk.inj (Except.ok.inj same)
    have all : c.includedIn.filter (·.2 = n.hash) = g.includedIn.filter (·.2 = n.hash) :=
      Multiset.eq_of_le_of_card_le part (by omega)
    obtain ⟨n', mem', height', included⟩ := inBlock
    obtain rfl := g.heightUnique n mem n' mem' (by omega)
    have left : (t, n.hash) ∈ c.includedIn.filter (·.2 = n.hash) := by
      rw [all]
      exact Multiset.mem_filter.mpr ⟨included, rfl⟩
    rw [peeled.includedIn] at left
    exact (Multiset.mem_filter.mp (Multiset.mem_filter.mp left).1).2
  · intro kept
    refine ⟨n.txCount, pos, ?_⟩
    have all : c.includedIn.filter (·.2 = n.hash) = g.includedIn.filter (·.2 = n.hash) := by
      rw [peeled.includedIn, Multiset.filter_filter]
      refine Multiset.filter_congr fun x mem' => ?_
      constructor
      · exact And.left
      · intro same
        refine ⟨same, kept x.1 ⟨n, mem, height, ?_⟩⟩
        rw [← same]
        exact mem'
    rw [counted, all, count]

theorem Peeled.intact (peeled : Peeled g a b d e c) (chain : StoredChain g tip) (below : k < e)
    (inside : k ≤ tip) (le : a ≤ b) (le' : b ≤ d)
    (kept : ∀ t, g.InBlockAt k t → ¬ g.InBlockFrom a t) : Intact g k c := by
  have here := peeled.blockAt below
  have inBlockAt : ∀ {t}, g.InBlockAt k t → c.InBlockAt k t := by
    intro t inBlock
    exact (peeled.inBlockAt below).mpr ⟨inBlock, fun gone => kept t inBlock (gone.mono (by omega))⟩
  refine ⟨?_, here, fun x mem inBlock => ?_, fun x mem inBlock => ?_, fun x mem inBlock => ?_⟩
  · rw [here]
    exact chain.stored k inside
  · refine ⟨peeled.transactions x mem fun gone => ?_, inBlockAt inBlock⟩
    exact kept _ inBlock (gone.mono (by omega))
  · obtain ⟨y, link, same, inBlock⟩ := inBlock
    have away := kept _ inBlock
    refine ⟨peeled.inputs x mem ?_, y, (peeled.hasInput y).mpr ⟨link, away⟩, same,
      inBlockAt inBlock⟩
    rw [← same, chain.own.inputs y link]
    exact away
  · obtain ⟨y, link, same, inBlock⟩ := inBlock
    have away : ¬ g.InBlockFrom b y.1 := fun gone => kept _ inBlock (gone.mono le)
    refine ⟨peeled.outputs x mem ?_, y, (peeled.hasOutput y).mpr ⟨link, away⟩, same,
      inBlockAt inBlock⟩
    rw [← same, chain.own.outputs y link]
    exact away

/-- An intact block has its transactions. -/
theorem Peeled.kept_of_intact (peeled : Peeled g a b d e c) (chain : StoredChain g tip)
    (intact : Intact g k c) : k < e ∧ ∀ t, g.InBlockAt k t → ¬ g.InBlockFrom d t := by
  obtain ⟨n, here⟩ := Option.isSome_iff_exists.mp intact.block
  obtain ⟨mem, height⟩ := blockAt_eq_some.mp here
  have below : k < e := by
    have low := ((peeled.blocks n).mp mem).2
    omega
  refine ⟨below, fun t inBlock => ?_⟩
  obtain ⟨n', mem', height', included⟩ := inBlock
  obtain ⟨x, stored, same⟩ := (chain.sound.includedIn _ included).1
  have left := (intact.transactions x stored (by rw [same]; exact ⟨n', mem', height', included⟩)).2
  rw [same] at left
  exact ((peeled.inBlockAt below).mp left).2

/-- An intact block has its inputs. -/
theorem Peeled.above_of_intact (peeled : Peeled g a b d e c) (chain : StoredChain g tip)
    (inside : k ≤ tip) (intact : Intact g k c) : k < a := by
  obtain ⟨id, x, link, same, inBlock⟩ := chain.inputs k inside
  obtain ⟨i, stored, key⟩ := (chain.sound.hasInput x link).2
  obtain ⟨y, kept, same', -⟩ := (intact.inputs i stored ⟨x, link, key.symm, inBlock⟩).2
  obtain ⟨old, away⟩ := (peeled.hasInput y).mp kept
  have owner : y.1 = x.1 := by
    rw [← chain.own.inputs y old, ← chain.own.inputs x link, same', key]
  rw [owner] at away
  by_contra gone
  exact away (inBlock.from.mono (by omega))

end Graph

namespace IngestionOrchestrator

open Neo4jWriter

variable {o : IngestionOrchestrator} {g c : Graph} {f h n m first : ℕ} {hash : BlockHash}

/-! ## Where a rollback can be interrupted -/

/-- The delete statements of a rollback. -/
def deletes (tip forkPoint : ℕ) : List Query :=
  (heightsDown (forkPoint + 1) tip).flatMap rollbackQueries

theorem length_deletes (tip forkPoint : ℕ) :
    (deletes tip forkPoint).length = 4 * (tip - forkPoint) := by
  have four : (fun height => (rollbackQueries height).length) = fun _ => 4 := rfl
  unfold deletes heightsDown
  rw [List.length_flatMap, four, List.map_const', List.sum_replicate, List.length_reverse,
    List.length_range']
  show (tip + 1 - (forkPoint + 1)) * 4 = _
  omega

/-- The delete statements among the first calls of a rollback. -/
def deletesSent (tip forkPoint n : ℕ) : ℕ := min n (4 * (tip - forkPoint))

/-- The highest block whose node is left. -/
def topLeft (tip forkPoint n : ℕ) : ℕ := tip - deletesSent tip forkPoint n / 4

/-- The checkpoint has been moved within the first calls: after the deletes there are the lookup of
the block at the fork point and the attempt to use a transaction. -/
def Moved (tip forkPoint n : ℕ) : Prop := 4 * (tip - forkPoint) + 3 ≤ n

instance (tip forkPoint n : ℕ) : Decidable (Moved tip forkPoint n) :=
  inferInstanceAs (Decidable (_ ≤ _))

/-- Where the checkpoint is left. -/
def checkpointLeft (tip forkPoint n : ℕ) : ℕ := if Moved tip forkPoint n then forkPoint else tip

theorem deletesSent_le (tip forkPoint n : ℕ) :
    deletesSent tip forkPoint n ≤ 4 * (tip - forkPoint) :=
  Nat.min_le_right ..

theorem deletesSent_of_moved (moved : Moved h f n) : deletesSent h f n = 4 * (h - f) := by
  unfold Moved at moved
  unfold deletesSent
  omega

theorem trace_rollbackBlock (height : ℕ) (g : Graph) :
    (rollbackBlock height).trace handle ⟨g, none⟩ =
      (rollbackQueries height).map (Session.Op.autoRun (E := neo4j)) :=
  rfl

theorem trace_rollbackBlocks (heights : List ℕ) (g : Graph) :
    (heights.forM rollbackBlock).trace handle ⟨g, none⟩ =
      (heights.flatMap rollbackQueries).map (Session.Op.autoRun (E := neo4j)) := by
  rw [List.forM_eq_forM]
  induction heights generalizing g with
  | nil => rfl
  | cons height heights ih =>
    rw [List.forM_cons, Prog.trace_bind_ok (run_rollbackBlock height g), ih, trace_rollbackBlock,
      List.flatMap_cons, List.map_append]

theorem trace_moveCheckpoint (stored : g.lookupBlockHash f = some hash) :
    (o.moveCheckpoint f).trace handle ⟨g, none⟩ =
      [.read, .txnRun (.updateCheckpoint (Graph.forkCheckpoint f hash)),
        .autoRun (.updateCheckpoint (Graph.forkCheckpoint f hash))] := by
  unfold moveCheckpoint
  rw [Prog.trace_bind_ok (run_lookupBlockHash ..), stored]
  rfl

/-- What the first delete statements leave. -/
theorem exec_deletes (own : g.OwnIds) (within : m ≤ 4 * n)
    (peeled : g.Peeled (first + n) (first + n) (first + n) (first + n) c) :
    ∃ c', execAll neo4j (((List.range' first n).reverse.flatMap rollbackQueries).take m) c =
        .ok c' ∧
      g.Peeled (first + n - (m + 3) / 4) (first + n - (m + 2) / 4) (first + n - (m + 1) / 4)
        (first + n - m / 4) c' ∧ c'.checkpoint = c.checkpoint := by
  induction n generalizing m c with
  | zero =>
    obtain rfl : m = 0 := by omega
    exact ⟨c, rfl, peeled, rfl⟩
  | succ n ih =>
    rw [List.range'_1_concat, List.reverse_concat, List.flatMap_cons]
    rw [← Nat.add_assoc] at peeled ⊢
    have one := peeled.deleteInputs own (k := first + n) (by omega) (by omega) (by omega) (by omega)
    have two := one.deleteOutputs own (k := first + n) (by omega) (by omega) (by omega) (by omega)
    have three := two.deleteTransactions (by omega) (by omega) (by omega)
    have four := three.deleteBlock
    match m, within with
    | 0, _ => exact ⟨c, rfl, peeled, rfl⟩
    | 1, _ => exact ⟨_, rfl, one, rfl⟩
    | 2, _ => exact ⟨_, rfl, two, rfl⟩
    | 3, _ => exact ⟨_, rfl, three, rfl⟩
    | m + 4, within =>
      obtain ⟨c', ran, left, same⟩ := ih (m := m) (by omega) four
      rw [show first + n + 1 - (m + 4 + 3) / 4 = first + n - (m + 3) / 4 by omega,
        show first + n + 1 - (m + 4 + 2) / 4 = first + n - (m + 2) / 4 by omega,
        show first + n + 1 - (m + 4 + 1) / 4 = first + n - (m + 1) / 4 by omega,
        show first + n + 1 - (m + 4) / 4 = first + n - m / 4 by omega]
      exact ⟨c', ran, left, same.trans (Graph.checkpoint_rollbackBlock c (first + n))⟩

/-- The block at the fork point is still there after the deletes. -/
theorem lookupBlockHash_forkPoint (stored : g.lookupBlockHash f = some hash) :
    ((heightsDown (f + 1) h).foldl Graph.rollbackBlock g).lookupBlockHash f = some hash := by
  obtain ⟨n, mem, height, same⟩ := Graph.lookupBlockHash_eq_some.mp stored
  refine Graph.lookupBlockHash_eq_some.mpr ⟨n, ?_, height, same⟩
  rw [Graph.mem_blocks_foldl_rollbackBlock, Graph.mem_heightsDown]
  exact ⟨mem, by omega⟩

/-- **A crash** of a rollback leaves the graph after the delete statements sent so far, with the
checkpoint moved if the last statement was sent, too. -/
theorem crash_rollbackToHeight (below : f < h) (stored : g.lookupBlockHash f = some hash)
    (ran : execAll neo4j ((deletes h f).take n) g = .ok c) :
    (o.rollbackToHeight h f).crash handle n ⟨g, none⟩ =
      ⟨if Moved h f n then c.checkpointAt f else c, none⟩ := by
  have left := lookupBlockHash_forkPoint (h := h) stored
  have trace : (o.rollbackToHeight h f).trace handle ⟨g, none⟩ =
      (deletes h f).map (Session.Op.autoRun (E := neo4j)) ++
        [.read, .txnRun (.updateCheckpoint (Graph.forkCheckpoint f hash)),
          .autoRun (.updateCheckpoint (Graph.forkCheckpoint f hash))] := by
    unfold rollbackToHeight
    rw [if_neg (by omega), Prog.trace_bind_ok (run_rollbackBlocks ..), trace_rollbackBlocks,
      Prog.trace_bind_ok (run_moveCheckpoint ..), trace_moveCheckpoint left]
    rfl
  have count : ((deletes h f).map (Session.Op.autoRun (E := neo4j))).length = 4 * (h - f) := by
    rw [List.length_map, length_deletes]
  have first : (((deletes h f).take n).map (Session.Op.autoRun (E := neo4j))).foldl
      (fun s o => (handle o s).2) ⟨g, none⟩ = ⟨c, none⟩ := by
    refine foldl_handle (fun o mem => ?_) ?_
    · obtain ⟨q, -, rfl⟩ := List.mem_map.mp mem
      trivial
    · rw [List.flatMap_map]
      simpa [Session.Op.direct] using ran
  rw [Prog.crash_eq_foldl, trace]
  by_cases early : n ≤ 4 * (h - f)
  · have unmoved : ¬ Moved h f n := by
      unfold Moved
      omega
    rw [List.take_append_of_le_length (by omega), if_neg unmoved, ← List.map_take, first]
  · have all : (deletes h f).take n = deletes h f :=
      List.take_of_length_le (by rw [length_deletes]; omega)
    rw [all] at first ran
    have state : c = (heightsDown (f + 1) h).foldl Graph.rollbackBlock g := by
      have sent := (Posts.forM posts_rollbackBlock (heightsDown (f + 1) h)).toDirect.ok ran
      have same := sent.symm.trans (run_rollbackBlocks ..)
      cases same
      rfl
    rw [← state] at left
    rw [List.take_append, List.take_of_length_le (by omega), List.foldl_append, first, count]
    by_cases last : Moved h f n
    · rw [if_pos last]
      unfold Moved at last
      unfold Graph.checkpointAt
      rw [List.take_of_length_le (by simp; omega), left]
      rfl
    · rw [if_neg last]
      unfold Moved at last
      have two : n - 4 * (h - f) = 1 ∨ n - 4 * (h - f) = 2 := by omega
      rcases two with two | two <;> rw [two] <;> rfl

end IngestionOrchestrator

/-! ## What is promised, and when -/

namespace Graph

variable {g c : Graph} {a b d top tip : ℕ}

/-- Where a walk down from a block stops when the transactions from a height on are gone: at the
first block that none of its transactions is missing from by the time its turn comes. -/
structure StopsAt (g : Graph) (gone top q : ℕ) : Prop where
  inside : q ≤ top
  clear : ∀ t, g.InBlockAt q t → ¬ g.InBlockFrom (min gone (q + 1)) t
  passed : ∀ i, q < i → i ≤ top → ∃ t, g.InBlockAt i t ∧ g.InBlockFrom (min gone (i + 1)) t

theorem StopsAt.unique {gone top q q' : ℕ} (stops : g.StopsAt gone top q)
    (stops' : g.StopsAt gone top q') : q = q' := by
  rcases Nat.lt_trichotomy q q' with lt | same | gt
  · obtain ⟨t, inBlock, missing⟩ := stops.passed q' lt stops'.inside
    exact absurd missing (stops'.clear t inBlock)
  · exact same
  · obtain ⟨t, inBlock, missing⟩ := stops'.passed q gt stops.inside
    exact absurd missing (stops.clear t inBlock)

/-- All blocks up to the highest one are intact, exactly if no input is gone from it and no
transaction of them is. -/
theorem Peeled.intact_iff (peeled : Peeled g a b d (top + 1) c) (chain : StoredChain g tip)
    (inside : top ≤ tip) (le : a ≤ b) (le' : b ≤ d) (high : d ≤ top + 1) :
    (∀ k < top + 1, Intact g k c) ↔ a = top + 1 ∧ g.Apart (top + 1) := by
  constructor
  · intro all
    have above := peeled.above_of_intact chain inside (all top (by omega))
    refine ⟨by omega, fun k low t inBlock gone => ?_⟩
    exact (peeled.kept_of_intact chain (all k low)).2 t inBlock (gone.mono (by omega))
  · intro parts k low
    obtain ⟨all, apart⟩ := parts
    refine peeled.intact chain low (by omega) le le' fun t inBlock => ?_
    rw [all]
    exact apart k low t inBlock

end Graph

namespace IngestionOrchestrator

variable {o : IngestionOrchestrator} {g c : Graph} {a b d top tip f h n : ℕ}

/-- The restart resumes, and all blocks below the height it resumes at are intact. -/
def RestartsClean (o : IngestionOrchestrator) (g : Graph) (s : Store neo4j) : Prop :=
  ∃ resume s', o.syncCheckpointWithDb.run handle s = (.ok resume, s') ∧
    ∀ k < resume, g.Intact k s'.committed

/-- The highest block that is left. -/
theorem getMaxBlockHeight_peeled (chain : g.StoredChain tip) (peeled : g.Peeled a b d (top + 1) c)
    (inside : top ≤ tip) : c.getMaxBlockHeight = some top := by
  have word := chain.word
  refine Graph.getMaxBlockHeight_eq ?_ (fun n mem => ?_) (by omega)
  · rw [peeled.blockAt (by omega)]
    exact chain.stored top inside
  · have below := ((peeled.blocks n).mp mem).2
    omega

/-- With a checkpoint at or above the highest block, the restart resumes after it. -/
theorem restartsClean_beside (chain : g.StoredChain tip) (peeled : g.Peeled a b d (top + 1) c)
    (inside : top ≤ tip) (read : c.readHeight = h) (below : top ≤ h) :
    o.RestartsClean g ⟨c, none⟩ ↔ ∀ k < h + 1, g.Intact k c := by
  have word := chain.word
  have max := getMaxBlockHeight_peeled chain peeled inside
  have ran : o.syncCheckpointWithDb.run handle ⟨c, none⟩ = (.ok (h + 1), ⟨c, none⟩) := by
    have beside := run_sync_beside (o := o) (g := c) (by omega) fun top' some => by
      cases max.symm.trans some
      rw [asI32_of_lt (by omega)]
      omega
    rw [beside, read]
    rfl
  constructor
  · intro clean
    obtain ⟨resume, s, same, intact⟩ := clean
    cases ran.symm.trans same
    exact intact
  · intro intact
    exact ⟨_, _, ran, intact⟩

/-- Without one it walks down from the highest block. -/
theorem restartsClean_walk (chain : g.StoredChain tip) (peeled : g.Peeled a b d (top + 1) c)
    (inside : top ≤ tip) (low : top ≤ a) (le : a ≤ b) (le' : b ≤ d) (high : d ≤ top + 1)
    (read : c.readHeight = -1) :
    o.RestartsClean g ⟨c, none⟩ ↔
      ∀ q, g.StopsAt d top q → g.Apart (q + 1) ∧ (q = top → a = top + 1) := by
  have word := chain.word
  have max := getMaxBlockHeight_peeled chain peeled inside
  have left : ∀ {k}, k ≤ top → g.Peeled (min a (k + 1)) (min b (k + 1)) (min d (k + 1)) (k + 1)
      (c.rolledBack top (k + 1)) := fun {k} within =>
    peeled.rolledBack chain.own low le le' high within
  have complete : ∀ {k}, k ≤ top → ((c.rolledBack top (k + 1)).CompleteAt k ↔
      ∀ t, g.InBlockAt k t → ¬ g.InBlockFrom (min d (k + 1)) t) := fun {k} within =>
    (left within).completeAt chain (by omega) (by omega)
  have present : ∀ {k}, k ≤ top → ((c.rolledBack top (k + 1)).blockAt k).isSome := by
    intro k within
    rw [(left within).blockAt (by omega)]
    exact chain.stored k (by omega)
  have intact : ∀ {q}, q ≤ top → ((∀ k < q + 1, g.Intact k (c.rolledBack top (q + 1))) ↔
      g.Apart (q + 1) ∧ (q = top → a = top + 1)) := by
    intro q within
    rw [(left within).intact_iff chain (by omega) (by omega) (by omega) (by omega), and_comm]
    exact and_congr_right fun _ => by omega
  have synced := synced_above (o := o) (g := c) (by omega) max (by omega) (by omega)
  unfold RestartsClean
  generalize o.syncCheckpointWithDb.run handle ⟨c, none⟩ = r at synced
  cases synced with
  | hole e s k first last reached none =>
    have some := present last
    rw [none] at some
    cases some
  | nothing skipped =>
    constructor
    · intro _ q stops
      exact absurd ((complete stops.inside).mpr stops.clear) (skipped q (by omega) stops.inside).2
    · intro _
      exact ⟨_, _, rfl, fun k low => by omega⟩
  | found q stored first last reached whole height =>
    have stops : g.StopsAt d top q := by
      refine ⟨last, (complete last).mp whole, fun i above within => ?_⟩
      have torn := (reached i above within).2
      rw [complete within] at torn
      push Not at torn
      exact torn
    constructor
    · intro clean q' stops'
      obtain ⟨resume, s, same, all⟩ := clean
      cases same
      rw [stops'.unique stops]
      exact (intact last).mp fun k low => Graph.intact_checkpoint.mp (all k low)
    · intro safe
      have all := (intact last).mpr (safe q stops)
      exact ⟨_, _, rfl, fun k low => Graph.intact_checkpoint.mpr (all k low)⟩

/-- What a crash leaves. -/
theorem crashed_rollbackToHeight (chain : g.StoredChain tip) (below : f < tip) (n : ℕ) :
    ∃ c, (o.rollbackToHeight tip f).crash handle n ⟨g, none⟩ = ⟨c, none⟩ ∧
      g.Peeled (tip + 1 - (deletesSent tip f n + 3) / 4)
        (tip + 1 - (deletesSent tip f n + 2) / 4) (tip + 1 - (deletesSent tip f n + 1) / 4)
        (topLeft tip f n + 1) c ∧
      c.storedHeight = checkpointLeft tip f n := by
  have most := deletesSent_le tip f n
  obtain ⟨b, stored⟩ := Option.isSome_iff_exists.mp (chain.stored f (by omega))
  have hash : g.lookupBlockHash f = some b.hash := by
    unfold Graph.lookupBlockHash
    rw [stored]
    rfl
  have whole : f + 1 + (tip - f) = tip + 1 := by omega
  have start := Graph.peeled_start fun n mem => Nat.lt_succ_of_le (chain.above n mem)
  rw [Nat.succ_eq_add_one, ← whole] at start
  obtain ⟨c, ran, peeled, same⟩ := exec_deletes chain.own most start
  have sent : (deletes tip f).take n =
      ((List.range' (f + 1) (tip - f)).reverse.flatMap Neo4jWriter.rollbackQueries).take
        (deletesSent tip f n) := by
    unfold deletesSent
    rw [← length_deletes tip f, List.take_eq_take_min]
    unfold deletes heightsDown
    rw [Nat.add_sub_add_right]
  have height : tip + 1 - deletesSent tip f n / 4 = topLeft tip f n + 1 := by
    unfold topLeft
    omega
  rw [← sent] at ran
  rw [whole, height] at peeled
  rw [crash_rollbackToHeight below hash ran]
  unfold checkpointLeft
  by_cases moved : Moved tip f n
  · have all := deletesSent_of_moved moved
    have kept : Graph.lookupBlockHash c f = some b.hash := by
      unfold Graph.lookupBlockHash
      rw [peeled.blockAt (by omega), stored]
      rfl
    have small : asI32 f = f := asI32_of_lt (by have word := chain.word; omega)
    rw [if_pos moved, if_pos moved]
    unfold Graph.checkpointAt
    rw [kept]
    refine ⟨_, rfl, ⟨peeled.blocks, peeled.includedIn, peeled.hasInput, peeled.hasOutput,
      peeled.transactions, peeled.inputs, peeled.outputs⟩, ?_⟩
    rw [Graph.storedHeight_of_data (Graph.forkCheckpoint f b.hash) rfl, ← small]
    rfl
  · rw [if_neg moved, if_neg moved]
    refine ⟨c, rfl, peeled, ?_⟩
    rw [Graph.storedHeight_congr same, chain.checkpoint]

/-- When a restart after the first calls of a rollback resumes above intact blocks only. With a
checkpoint that is read back: if nothing has been deleted yet; or if the checkpoint has been moved,
and no block below it shares a transaction with a deleted one. A checkpoint at 255 is read back as
none, and the restart walks down from the highest block: the block it stops at must have its inputs
and outputs, and no transaction may be in a block up to there and in another one above. -/
structure RestartSafe (g : Graph) (tip forkPoint n : ℕ) : Prop where
  read : checkpointLeft tip forkPoint n ≠ 255 →
    n = 0 ∨ Moved tip forkPoint n ∧ g.Apart (forkPoint + 1)
  unread : checkpointLeft tip forkPoint n = 255 →
    ∀ q, g.StopsAt (tip + 1 - (deletesSent tip forkPoint n + 1) / 4) (topLeft tip forkPoint n) q →
      g.Apart (q + 1) ∧ (q = topLeft tip forkPoint n → deletesSent tip forkPoint n % 4 = 0)

section Read

variable (chain : g.StoredChain tip) (below : f < tip)
  (peeled : g.Peeled (tip + 1 - (deletesSent tip f n + 3) / 4)
    (tip + 1 - (deletesSent tip f n + 2) / 4) (tip + 1 - (deletesSent tip f n + 1) / 4)
    (topLeft tip f n + 1) c)

include chain below peeled

/-- All blocks up to the fork point are intact after the whole rollback. -/
theorem intact_moved_iff (moved : Moved tip f n) :
    (∀ k < f + 1, g.Intact k c) ↔ g.Apart (f + 1) := by
  have all := deletesSent_of_moved moved
  have last : topLeft tip f n = f := by
    unfold topLeft
    omega
  rw [last] at peeled
  rw [peeled.intact_iff chain (by omega) (by omega) (by omega) (by omega)]
  exact and_iff_right (by omega)

/-- All blocks up to the old tip are intact as long as nothing has been deleted. -/
theorem intact_unmoved_iff : (∀ k < tip + 1, g.Intact k c) ↔ n = 0 := by
  have most := deletesSent_le tip f n
  constructor
  · intro all
    have whole := all tip (Nat.lt_succ_self tip)
    have present := (peeled.kept_of_intact chain whole).1
    have above := peeled.above_of_intact chain (Nat.le_refl tip) whole
    unfold topLeft at present
    unfold deletesSent at present above most
    omega
  · intro none
    have nothing : deletesSent tip f n = 0 := by
      rw [none]
      exact Nat.zero_min _
    have last : topLeft tip f n = tip := by
      unfold topLeft
      omega
    rw [last] at peeled
    refine (peeled.intact_iff chain (by omega) (by omega) (by omega) (by omega)).mpr
      ⟨by omega, fun k _ t _ above => ?_⟩
    obtain ⟨b, mem, high, -⟩ := above
    have low := chain.above b mem
    omega

end Read

/-- **Restarting after an interrupted rollback.** Exactly these crashes leave a store whose restart
resumes above intact blocks only. -/
theorem rollbackToHeight_restarts_iff (chain : g.StoredChain tip) (below : f < tip) (n : ℕ) :
    o.RestartsClean g ((o.rollbackToHeight tip f).crash handle n ⟨g, none⟩) ↔
      RestartSafe g tip f n := by
  obtain ⟨c, state, peeled, height⟩ := crashed_rollbackToHeight (o := o) chain below n
  have most := deletesSent_le tip f n
  have word := chain.word
  have inside : topLeft tip f n ≤ tip := Nat.sub_le ..
  have last : topLeft tip f n + deletesSent tip f n / 4 = tip := by
    unfold topLeft
    omega
  rw [state]
  by_cases read : checkpointLeft tip f n = 255
  · rw [read] at height
    rw [restartsClean_walk chain peeled inside (by omega) (by omega) (by omega) (by omega)
      (Graph.readHeight_255 height)]
    constructor
    · intro walk
      refine ⟨fun usual => absurd read usual, fun _ q stops => ⟨(walk q stops).1, fun here => ?_⟩⟩
      have whole := (walk q stops).2 here
      omega
    · intro safe q stops
      obtain ⟨apart, whole⟩ := safe.unread read q stops
      refine ⟨apart, fun here => ?_⟩
      have even := whole here
      omega
  · have only : RestartSafe g tip f n ↔ n = 0 ∨ Moved tip f n ∧ g.Apart (f + 1) :=
      ⟨fun safe => safe.read read, fun safe => ⟨fun _ => safe, fun special => absurd special read⟩⟩
    have usual : c.readHeight = checkpointLeft tip f n := by
      have bound : checkpointLeft tip f n < 2 ^ 31 := by
        unfold checkpointLeft
        split <;> omega
      rw [Graph.readHeight_eq] <;> rw [height] <;> omega
    rw [only]
    unfold checkpointLeft at usual
    by_cases moved : Moved tip f n
    · have all := deletesSent_of_moved moved
      have started : n ≠ 0 := by
        unfold Moved at moved
        omega
      rw [if_pos moved] at usual
      rw [restartsClean_beside chain peeled inside usual (by omega),
        intact_moved_iff chain below peeled moved, or_iff_right started, and_iff_right moved]
    · rw [if_neg moved] at usual
      rw [restartsClean_beside chain peeled inside usual inside,
        intact_unmoved_iff chain below peeled]
      exact (or_iff_left fun done => moved done.1).symm

/-! ## Chains that have been ingested -/

/-- Every block has transactions, fewer than a word counts, and an input. -/
def Filled (chain : List LocatedBlock) : Prop :=
  ∀ b ∈ chain, b.block.txdata.length < 2 ^ 32 ∧ ∃ tx ∈ b.block.txdata, tx.input ≠ []

section Chains

variable {chain : List LocatedBlock} {res : Found}

theorem ownIds_of_grown (grown : o.Grown res .empty chain g) : g.OwnIds where
  inputs x mem := by
    rw [grown.hasInput] at mem
    rcases Multiset.mem_add.mp mem with old | new
    · exact absurd old (Multiset.notMem_zero x)
    · obtain ⟨inp, row, rfl⟩ := List.mem_map.mp (Multiset.mem_coe.mp new)
      obtain ⟨b, -, inBlock⟩ := List.mem_flatMap.mp row
      obtain ⟨tx, -, inTx⟩ := List.mem_flatMap.mp inBlock
      obtain ⟨_, -, rfl⟩ := List.mem_map.mp inTx
      rfl
  outputs x mem := by
    rw [grown.hasOutput] at mem
    rcases Multiset.mem_add.mp mem with old | new
    · exact absurd old (Multiset.notMem_zero x)
    · obtain ⟨out, row, rfl⟩ := List.mem_map.mp (Multiset.mem_coe.mp new)
      obtain ⟨tx, -, inTx⟩ := List.mem_flatMap.mp row
      obtain ⟨_, -, rfl⟩ := List.mem_map.mp inTx
      rfl

/-- What is included in a block of the chain. -/
theorem filter_inclusions (hashes : (chain.map fun b => b.block.blockHash).Nodup)
    {b : LocatedBlock} (mem : b ∈ chain) :
    (inclusions chain).filter (·.2 = b.block.blockHash) =
      b.block.txdata.map fun tx => (tx.txid, b.block.blockHash) := by
  have own : ∀ a : LocatedBlock, ∀ x ∈ a.block.txdata.map fun tx => (tx.txid, a.block.blockHash),
      x.2 = a.block.blockHash := by
    intro a x inBlock
    obtain ⟨tx, -, rfl⟩ := List.mem_map.mp inBlock
    rfl
  unfold inclusions
  rw [filter_flatMap_owner (fun a : LocatedBlock => a.block.blockHash) Prod.snd own,
    filter_keyed hashes mem, List.flatMap_singleton]

/-- A chain from height 0 that a graph has grown by from nothing is stored. -/
theorem storedChain_of_grown (valid : FromGenesis chain) (filled : Filled chain)
    (new : Graph.empty.NewBlocks (blockRows chain)) (grown : o.Grown res .empty chain g)
    (sound : Sound g) (length : chain.length = tip + 1) (word : tip < 2 ^ 31)
    (checkpoint : g.checkpoint = lastCheckpoint chain) : g.StoredChain tip := by
  have heights : chain.map (·.height) = List.range' 0 (tip + 1) := by
    rw [heights_of_adjacent valid.adjacent valid.genesis, length]
  have members : ∀ n, n ∈ g.blocks ↔ ∃ b ∈ chain, .fromBlock b.block b.height = n := by
    intro n
    rw [grown.blocks, Table.mem_foldl_upsert_new new.hashes new.free, blockRows, List.mem_map]
    exact or_iff_left (Table.not_mem_empty n)
  have hashes : (chain.map fun b => b.block.blockHash).Nodup := by
    have rows := new.hashes
    rw [blockRows, List.map_map] at rows
    exact rows
  have included : g.includedIn = ↑(inclusions chain) := grown.includedIn.trans (zero_add _)
  have blockOf : ∀ k ≤ tip, ∃ b ∈ chain, b.height = k := by
    intro k low
    have mem : k ∈ chain.map (·.height) := by
      rw [heights, List.mem_range'_1]
      omega
    exact List.mem_map.mp mem
  refine ⟨sound, ownIds_of_grown grown, fun k low => ?_, fun n mem => ?_, fun n mem => ?_,
    fun k low => ?_, ?_, word⟩
  · obtain ⟨b, mem, rfl⟩ := blockOf k low
    exact Option.isSome_iff_exists.mpr ⟨.fromBlock b.block b.height,
      Graph.blockAt_eq_some.mpr ⟨(members _).mpr ⟨b, mem, rfl⟩, rfl⟩⟩
  · obtain ⟨b, inChain, rfl⟩ := (members n).mp mem
    have place : b.height ∈ chain.map (·.height) := List.mem_map_of_mem inChain
    rw [heights, List.mem_range'_1] at place
    show b.height ≤ tip
    omega
  · obtain ⟨b, inChain, rfl⟩ := (members n).mp mem
    obtain ⟨short, tx, inBlock, -⟩ := filled b inChain
    have count : (BlockData.fromBlock b.block b.height).txCount = b.block.txdata.length :=
      asU32_of_lt short
    have some := List.length_pos_of_mem inBlock
    refine ⟨by omega, by omega, ?_⟩
    rw [included, Multiset.filter_coe, Multiset.coe_card, count]
    show ((inclusions chain).filter (·.2 = b.block.blockHash)).length = _
    rw [filter_inclusions hashes inChain, List.length_map]
  · obtain ⟨b, inChain, rfl⟩ := blockOf k low
    obtain ⟨-, tx, inBlock, input⟩ := filled b inChain
    obtain ⟨first, rest, cons⟩ := List.exists_cons_of_ne_nil input
    refine ⟨⟨tx.txid, asU32 0⟩, (tx.txid, ⟨tx.txid, asU32 0⟩), ?_, rfl,
      .fromBlock b.block b.height, (members _).mpr ⟨b, inChain, rfl⟩, rfl, ?_⟩
    · rw [grown.hasInput]
      refine Multiset.mem_add.mpr (Or.inr (Multiset.mem_coe.mpr (List.mem_map.mpr
        ⟨.fromInput first tx.txid (asU32 0) b.height, ?_, rfl⟩)))
      refine List.mem_flatMap.mpr ⟨b, inChain, List.mem_flatMap.mpr ⟨tx, inBlock, ?_⟩⟩
      unfold inputsOf
      rw [cons]
      exact List.mem_cons_self
    · rw [included]
      exact Multiset.mem_coe.mpr (List.mem_flatMap.mpr
        ⟨b, inChain, List.mem_map.mpr ⟨tx, inBlock, rfl⟩⟩)
  · have last : (chain.map (·.height)).getLast? = some tip := by
      rw [heights, List.getLast?_range']
      simp
    rw [List.getLast?_map, Option.map_eq_some_iff] at last
    obtain ⟨b, final, height⟩ := last
    unfold lastCheckpoint at checkpoint
    rw [final] at checkpoint
    rw [Graph.storedHeight_of_data (chunkCheckpoint b) checkpoint]
    show asI32 b.height = tip
    rw [height, asI32_of_lt word]

/-- **Batches from genesis** leave a stored chain. -/
theorem storedChain_of_batches {batches : List (List LocatedBlock)} {c : UtxoCache}
    (valid : FromGenesis batches.flatten) (filled : Filled batches.flatten)
    (empty : ∀ k, c.peek k = none) (room : ∀ blocks ∈ batches, o.Roomy c.cap blocks)
    (length : batches.flatten.length = tip + 1) (word : tip < 2 ^ 31)
    (ok : ((o.ingestBatches batches).run World.handle ⟨⟨.empty, none⟩, c⟩).1.isOk) :
    ((o.ingestBatches batches).run World.handle
      ⟨⟨.empty, none⟩, c⟩).2.store.committed.StoredChain tip := by
  obtain ⟨_, ran⟩ := Prog.run_eq_ok_of_isOk ok
  obtain ⟨after, advanced⟩ := batches_of_fromGenesis valid empty room ran
  exact storedChain_of_grown valid filled advanced.new advanced.grown after.sound length word
    (advanced.checkpoint.trans (Option.or_none ..))

end Chains

end IngestionOrchestrator

/-! ## Two blocks -/

/-- Two blocks, stored in two batches. -/
def Sample.twoBlocks : Graph :=
  (((Sample.orchestrator 1000000).ingestBatches [[Sample.first], [Sample.second]]).run World.handle
    ⟨⟨.empty, none⟩, .new 64⟩).2.store.committed

theorem storedChain_twoBlocks : Sample.twoBlocks.StoredChain 1 := by
  refine IngestionOrchestrator.storedChain_of_batches fromGenesis_sample ?_
    (UtxoCache.peek_new 64) roomy_sample rfl (by decide) (by decide +kernel)
  unfold IngestionOrchestrator.Filled
  decide

/-- After all of its calls a rollback is done. -/
theorem rollbackToHeight_restarts_sample :
    (Sample.orchestrator 0).RestartsClean Sample.twoBlocks
      (((Sample.orchestrator 0).rollbackToHeight 1 0).crash handle 7
        ⟨Sample.twoBlocks, none⟩) := by
  refine (IngestionOrchestrator.rollbackToHeight_restarts_iff storedChain_twoBlocks (by decide)
    7).mpr ⟨fun _ => Or.inr ⟨by decide, Graph.apart_of_nodup ?_ _⟩, fun special => ?_⟩
  · decide +kernel
  · exact absurd special (by decide)

/-- Interrupted after its first statement, it has deleted the inputs of the second block, and the
restart resumes above that. -/
theorem resumed_above_torn :
    Sample.twoBlocks.StoredChain 1 ∧
      ((Sample.orchestrator 0).syncCheckpointWithDb.run handle
        (((Sample.orchestrator 0).rollbackToHeight 1 0).crash handle 1
          ⟨Sample.twoBlocks, none⟩)).1 = .ok 2 ∧
      ¬ (Sample.orchestrator 0).RestartsClean Sample.twoBlocks
        (((Sample.orchestrator 0).rollbackToHeight 1 0).crash handle 1
          ⟨Sample.twoBlocks, none⟩) := by
  have two : ((Sample.orchestrator 0).syncCheckpointWithDb.run handle
      (((Sample.orchestrator 0).rollbackToHeight 1 0).crash handle 1
        ⟨Sample.twoBlocks, none⟩)).1 = .ok 2 := by decide +kernel
  have missing : ¬ ∀ x ∈ Sample.twoBlocks.inputs.rows, Sample.twoBlocks.InputOfBlockAt 1 x.inputId →
      ((Sample.orchestrator 0).syncCheckpointWithDb.run handle
        (((Sample.orchestrator 0).rollbackToHeight 1 0).crash handle 1
          ⟨Sample.twoBlocks, none⟩)).2.committed.InputOfBlockAt 1 x.inputId := by
    decide +kernel
  refine ⟨storedChain_twoBlocks, two, fun clean => ?_⟩
  obtain ⟨resume, s, ran, intact⟩ := clean
  rw [ran] at two missing
  cases two
  exact missing fun x mem inBlock => ((intact 1 (by decide)).inputs x mem inBlock).2

end ChainGraph

import ChainGraph.Laws.Blocks
import ChainGraph.Laws.Block

/-!
# What a chunk adds

The queries of a chunk are accepted iff its blocks are new and, outside the BIP30 heights, its
transactions, inputs and outputs are new as well; their effect is then that of its rows, phase by
phase. The simplified layer is written bucket by bucket, and since a row is in exactly one bucket
the buckets together are the rows in another order.
-/

namespace ChainGraph

open Foundation Foundation.Store

namespace IngestionOrchestrator

/-! ## Buckets -/

section Buckets

variable {α : Type} {hash : String → UInt64} {addressOf : α → Address} {n : ℕ}

theorem flatten_modify_perm {buckets : List (List α)} {i : ℕ} (inside : i < buckets.length)
    (x : α) : (buckets.modify i (· ++ [x])).flatten.Perm (buckets.flatten ++ [x]) := by
  induction buckets generalizing i with
  | nil => simp at inside
  | cons b bs ih =>
    cases i with
    | zero =>
      simp only [List.modify_zero_cons, List.flatten_cons, List.append_assoc]
      exact List.Perm.append_left b List.perm_append_comm
    | succ i =>
      simp only [List.modify_succ_cons, List.flatten_cons, List.append_assoc]
      exact (ih (by simpa using inside)).append_left b

theorem length_partitionFrom (items : List α) (buckets : List (List α)) :
    (items.foldl (fun buckets item =>
      buckets.modify (bucketIndex hash n (addressOf item)) (· ++ [item])) buckets).length =
        buckets.length := by
  induction items generalizing buckets with
  | nil => rfl
  | cons x items ih => rw [List.foldl_cons, ih, List.length_modify]

theorem length_partitionByAddress (items : List α) :
    (partitionByAddress hash addressOf items n).length = n := by
  rw [partitionByAddress, length_partitionFrom, List.length_replicate]

/-- Every item is in exactly one bucket. -/
theorem partitionByAddress_perm (pos : 0 < n) (items : List α) :
    (partitionByAddress hash addressOf items n).flatten.Perm items := by
  have spread : ∀ (items : List α) (buckets : List (List α)), buckets.length = n →
      (items.foldl (fun buckets item =>
        buckets.modify (bucketIndex hash n (addressOf item)) (· ++ [item])) buckets).flatten.Perm
          (buckets.flatten ++ items) := by
    intro items
    induction items with
    | nil => simp
    | cons x items ih =>
      intro buckets len
      rw [List.foldl_cons]
      have inside : bucketIndex hash n (addressOf x) < buckets.length := by
        rw [len]
        exact Nat.mod_lt _ pos
      refine (ih _ (by rw [List.length_modify, len])).trans ?_
      rw [List.append_cons buckets.flatten x items]
      exact (flatten_modify_perm inside x).append_right items
  have start := spread items (List.replicate n []) (List.length_replicate ..)
  simpa [partitionByAddress] using start

end Buckets

variable {o : IngestionOrchestrator}

/-- What a list of buckets does. -/
theorem foldl_bucketEffect_eq (bs : List (List PerformsData × List BenefitsToData)) (g : Graph) :
    bs.foldl bucketEffect g =
      { g with
        addresses := g.addresses ∪ (((bs.flatMap (·.1)).map (·.fromAddress)).toFinset ∪
          (((bs.flatMap (·.2)).filter fun b => g.transactions.Has b.fromTxid).map
            (·.toAddress)).toFinset)
        performs := ((bs.flatMap (·.1)).filter fun p => g.transactions.Has p.toTxid).foldl
          Table.upsert g.performs
        benefitsTo := ((bs.flatMap (·.2)).filter fun b => g.transactions.Has b.fromTxid).foldl
          Table.upsert g.benefitsTo } := by
  induction bs generalizing g with
  | nil => simp
  | cons b bs ih =>
    rw [List.foldl_cons, ih, bucketEffect, Graph.foldl_mergePerforms_eq,
      Graph.foldl_mergeBenefitsTo_eq]
    ext1
    case addresses =>
      ext a
      simp only [List.flatMap_cons, List.map_append, List.filter_append, List.toFinset_append,
        Finset.mem_union]
      tauto
    all_goals simp only [List.flatMap_cons, List.filter_append, List.foldl_append]

theorem flatMap_fst_zip {α β : Type} {l : List (List α)} {m : List (List β)}
    (same : l.length = m.length) : (l.zip m).flatMap (·.1) = l.flatten := by
  rw [List.flatMap_def, List.map_fst_zip (le_of_eq same)]

theorem flatMap_snd_zip {α β : Type} {l : List (List α)} {m : List (List β)}
    (same : l.length = m.length) : (l.zip m).flatMap (·.2) = m.flatten := by
  rw [List.flatMap_def, List.map_snd_zip (le_of_eq same.symm)]

/-- The buckets hold the rows in another order. -/
theorem buckets_perm (performs : List PerformsData) (benefits : List BenefitsToData) :
    ((o.buckets performs benefits).flatMap (·.1)).Perm performs ∧
      ((o.buckets performs benefits).flatMap (·.2)).Perm benefits := by
  have same : (partitionPerformsByAddress o.stringHash performs numBuckets).length =
      (partitionBenefitsByAddress o.stringHash benefits numBuckets).length :=
    (length_partitionByAddress performs).trans (length_partitionByAddress benefits).symm
  unfold buckets
  rw [flatMap_fst_zip same, flatMap_snd_zip same]
  exact ⟨partitionByAddress_perm (by decide) performs, partitionByAddress_perm (by decide) benefits⟩

/-! ## The phases after the blocks -/

/-- Links are merged, or created without looking. -/
def linkBy {ε : Type} [DecidableEq ε] : Bool → Multiset ε → ε → Multiset ε
  | true => mergeLink
  | false => link

/-- What is added once the blocks are there. Paths differ in whether they merge links, and in the
parts they write the simplified layer in. -/
def phases (o : IngestionOrchestrator) (res : Found) (rows : List LocatedBlock)
    (merging mergingHas : Bool) (parts : List (List PerformsData × List BenefitsToData))
    (checkpoint : Option Checkpoint) (g : Graph) : Graph :=
  let g := (o.outputRows rows).foldl (Graph.putOutput (linkBy merging)) g
  let g := (transactionRows res rows).foldl (Graph.putTransaction (linkBy merging)) g
  let g := (o.outputRows rows).foldl (Graph.putHasOutput (linkBy mergingHas)) g
  let g := (inputRows rows).foldl (Graph.putInput (linkBy merging) (linkBy merging)) g
  let g := parts.foldl bucketEffect g
  { g with checkpoint := checkpoint.or g.checkpoint }

section Phases

variable {rows : List LocatedBlock} {res : Found}

/-- The transactions and outputs as they are after the first two phases. -/
def putTransactions (res : Found) (rows : List LocatedBlock)
    (t : Table TransactionNode TransactionNode.txid) : Table TransactionNode TransactionNode.txid :=
  ((transactionRows res rows).map .ofData).foldl Table.upsert t

def putOutputNodes (o : IngestionOrchestrator) (rows : List LocatedBlock)
    (t : Table OutputNode OutputNode.outputId) : Table OutputNode OutputNode.outputId :=
  ((o.outputRows rows).map .ofData).foldl Table.upsert t

theorem map_txid_transactionRows (res : Found) (rows : List LocatedBlock) :
    (transactionRows res rows).map (·.txid) = (txsOf rows).map (·.txid) := by
  unfold transactionRows txsOf
  rw [List.map_flatMap, List.map_flatMap]
  refine List.flatMap_congr fun b _ => ?_
  rw [List.map_map]
  rfl

theorem has_putTransactions {t : Table TransactionNode TransactionNode.txid} {k : Txid} :
    (putTransactions res rows t).Has k ↔ (∃ tx ∈ txsOf rows, tx.txid = k) ∨ t.Has k := by
  unfold putTransactions
  rw [Table.has_foldl_upsert, List.map_map]
  have ids : (transactionRows res rows).map (TransactionNode.txid ∘ TransactionNode.ofData) =
      (txsOf rows).map (·.txid) := map_txid_transactionRows res rows
  rw [ids, List.mem_map]

theorem has_putOutputNodes {t : Table OutputNode OutputNode.outputId} {k : OutputId} :
    (o.putOutputNodes rows t).Has k ↔ (∃ out ∈ o.outputRows rows, out.outputId = k) ∨ t.Has k := by
  unfold putOutputNodes
  rw [Table.has_foldl_upsert, List.map_map, List.mem_map]
  exact Iff.rfl

theorem txid_of_mem_outputRows {out : OutputData} (mem : out ∈ o.outputRows rows) :
    ∃ tx ∈ txsOf rows, tx.txid = out.txid := by
  obtain ⟨tx, inRows, inTx⟩ := List.mem_flatMap.mp mem
  obtain ⟨_, _, rfl⟩ := List.mem_map.mp inTx
  exact ⟨tx, inRows, rfl⟩

theorem txid_of_mem_inputRows {inp : InputData} (mem : inp ∈ inputRows rows) :
    ∃ tx ∈ txsOf rows, tx.txid = inp.txid := by
  obtain ⟨b, inRows, inBlock⟩ := List.mem_flatMap.mp mem
  obtain ⟨tx, htx, inTx⟩ := List.mem_flatMap.mp inBlock
  obtain ⟨_, _, rfl⟩ := List.mem_map.mp inTx
  exact ⟨tx, List.mem_flatMap.mpr ⟨b, inRows, htx⟩, rfl⟩

theorem txid_of_mem_performsRows {p : PerformsData} (mem : p ∈ performsRows res rows) :
    ∃ tx ∈ txsOf rows, tx.txid = p.toTxid := by
  obtain ⟨tx, inRows, inTx⟩ := List.mem_flatMap.mp mem
  obtain ⟨_, _, rfl⟩ := List.mem_map.mp inTx
  exact ⟨tx, inRows, rfl⟩

theorem txid_of_mem_benefitsRows {b : BenefitsToData} (mem : b ∈ o.benefitsRows rows) :
    ∃ tx ∈ txsOf rows, tx.txid = b.fromTxid := by
  obtain ⟨tx, inRows, inTx⟩ := List.mem_flatMap.mp mem
  obtain ⟨_, _, rfl⟩ := List.mem_map.mp inTx
  exact ⟨tx, inRows, rfl⟩

/-- **Closed form.** Every row finds its transaction, since the rows bring it. -/
theorem phases_eq (o : IngestionOrchestrator) (res : Found) (rows : List LocatedBlock)
    (merging mergingHas : Bool) {parts : List (List PerformsData × List BenefitsToData)}
    (performs : (parts.flatMap (·.1)).Perm (performsRows res rows))
    (benefits : (parts.flatMap (·.2)).Perm (o.benefitsRows rows))
    (checkpoint : Option Checkpoint) (g : Graph) :
    o.phases res rows merging mergingHas parts checkpoint g =
      { g with
        transactions := putTransactions res rows g.transactions
        outputs := o.putOutputNodes rows g.outputs
        inputs := ((inputRows rows).map InputNode.ofData).foldl Table.upsert g.inputs
        addresses := g.addresses ∪ ((o.outputRows rows).filterMap (·.address)).toFinset ∪
          (((parts.flatMap (·.1)).map (·.fromAddress)).toFinset ∪
            ((parts.flatMap (·.2)).map (·.toAddress)).toFinset)
        includedIn := ((transactionRows res rows).filterMap g.inclusion).foldl (linkBy merging)
          g.includedIn
        hasInput := ((inputRows rows).map fun inp => (inp.txid, inp.inputId)).foldl
          (linkBy merging) g.hasInput
        hasOutput := ((o.outputRows rows).map fun out => (out.txid, out.outputId)).foldl
          (linkBy mergingHas) g.hasOutput
        lockedTo := ((o.outputRows rows).filterMap fun out =>
          out.address.map fun a => (out.outputId, a)).foldl (linkBy merging) g.lockedTo
        spends := (((inputRows rows).filter fun inp => inp.previousOutputIndex ≠ maxVout ∧
          (o.putOutputNodes rows g.outputs).Has inp.previousOutputId).map fun inp =>
            (inp.inputId, inp.previousOutputId)).foldl (linkBy merging) g.spends
        performs := (parts.flatMap (·.1)).foldl Table.upsert g.performs
        benefitsTo := (parts.flatMap (·.2)).foldl Table.upsert g.benefitsTo
        checkpoint := checkpoint.or g.checkpoint } := by
  have brought : ∀ {k}, (∃ tx ∈ txsOf rows, tx.txid = k) →
      (putTransactions res rows g.transactions).Has k :=
    fun some => has_putTransactions.mpr (Or.inl some)
  have outs : (o.outputRows rows).filter (fun out =>
      (putTransactions res rows g.transactions).Has out.txid ∧
        (o.putOutputNodes rows g.outputs).Has out.outputId) = o.outputRows rows := by
    refine List.filter_eq_self.mpr fun out mem => decide_eq_true ⟨?_, ?_⟩
    · exact brought (txid_of_mem_outputRows mem)
    · exact has_putOutputNodes.mpr (Or.inl ⟨out, mem, rfl⟩)
  have inps : (inputRows rows).filter (fun inp =>
      (putTransactions res rows g.transactions).Has inp.txid) = inputRows rows :=
    List.filter_eq_self.mpr fun inp mem => decide_eq_true (brought (txid_of_mem_inputRows mem))
  have spending : (inputRows rows).filter (fun inp =>
      (putTransactions res rows g.transactions).Has inp.txid ∧ inp.previousOutputIndex ≠ maxVout ∧
        (o.putOutputNodes rows g.outputs).Has inp.previousOutputId) =
      (inputRows rows).filter fun inp => inp.previousOutputIndex ≠ maxVout ∧
        (o.putOutputNodes rows g.outputs).Has inp.previousOutputId := by
    refine List.filter_congr fun inp mem => ?_
    simp only [brought (txid_of_mem_inputRows mem), true_and]
  have perfs : (parts.flatMap (·.1)).filter (fun p =>
      (putTransactions res rows g.transactions).Has p.toTxid) = parts.flatMap (·.1) :=
    List.filter_eq_self.mpr fun p mem =>
      decide_eq_true (brought (txid_of_mem_performsRows (performs.mem_iff.mp mem)))
  have bens : (parts.flatMap (·.2)).filter (fun b =>
      (putTransactions res rows g.transactions).Has b.fromTxid) = parts.flatMap (·.2) :=
    List.filter_eq_self.mpr fun b mem =>
      decide_eq_true (brought (txid_of_mem_benefitsRows (benefits.mem_iff.mp mem)))
  unfold phases
  dsimp only
  rw [Graph.foldl_putOutput_eq, Graph.foldl_putTransaction_eq, Graph.foldl_putHasOutput_eq,
    Graph.foldl_putInput_eq, foldl_bucketEffect_eq]
  refine Graph.ext rfl rfl rfl rfl ?_ rfl rfl ?_ ?_ rfl ?_ ?_ ?_ rfl
  · exact congrArg (fun l => _ ∪ (_ ∪ (List.map (·.toAddress) l).toFinset)) bens
  · exact congrArg (fun l => (List.map _ l).foldl _ _) inps
  · exact congrArg (fun l => (List.map _ l).foldl _ _) outs
  · exact congrArg (fun l => (List.map _ l).foldl _ _) spending
  · exact congrArg (List.foldl Table.upsert g.performs) perfs
  · exact congrArg (List.foldl Table.upsert g.benefitsTo) bens

/-- Outputs and locks are those of the first phase. -/
theorem coins_phases (o : IngestionOrchestrator) (res : Found) (rows : List LocatedBlock)
    (merging mergingHas : Bool) {parts : List (List PerformsData × List BenefitsToData)}
    (performs : (parts.flatMap (·.1)).Perm (performsRows res rows))
    (benefits : (parts.flatMap (·.2)).Perm (o.benefitsRows rows))
    (checkpoint : Option Checkpoint) (g : Graph) :
    (o.phases res rows merging mergingHas parts checkpoint g).outputs =
        ((o.outputRows rows).foldl (Graph.putOutput (linkBy merging)) g).outputs ∧
      (o.phases res rows merging mergingHas parts checkpoint g).lockedTo =
        ((o.outputRows rows).foldl (Graph.putOutput (linkBy merging)) g).lockedTo := by
  rw [phases_eq o res rows merging mergingHas performs benefits, Graph.foldl_putOutput_eq]
  exact ⟨rfl, rfl⟩

/-- The blocks and their links are left alone. -/
theorem blocks_phases (o : IngestionOrchestrator) (res : Found) (rows : List LocatedBlock)
    (merging mergingHas : Bool) {parts : List (List PerformsData × List BenefitsToData)}
    (performs : (parts.flatMap (·.1)).Perm (performsRows res rows))
    (benefits : (parts.flatMap (·.2)).Perm (o.benefitsRows rows))
    (checkpoint : Option Checkpoint) (g : Graph) :
    (o.phases res rows merging mergingHas parts checkpoint g).blocks = g.blocks ∧
      (o.phases res rows merging mergingHas parts checkpoint g).nextBlock = g.nextBlock := by
  rw [phases_eq o res rows merging mergingHas performs benefits]
  exact ⟨rfl, rfl⟩

end Phases

/-! ## The effect of a block -/

/-- The simplified layer of a block, in one part. -/
def blockParts (o : IngestionOrchestrator) (res : Found) (b : LocatedBlock) :
    List (List PerformsData × List BenefitsToData) :=
  [(performsRows res [b], o.benefitsRows [b])]

theorem blockParts_perm (o : IngestionOrchestrator) (res : Found) (b : LocatedBlock) :
    ((o.blockParts res b).flatMap (·.1)).Perm (performsRows res [b]) ∧
      ((o.blockParts res b).flatMap (·.2)).Perm (o.benefitsRows [b]) := by
  simp [blockParts]

/-- What `ingest_block` adds to a graph with its block. -/
theorem finishBlock_eq (o : IngestionOrchestrator) (res : Found) (b : LocatedBlock)
    (offset : Option ℕ) (g : Graph) :
    o.finishBlock res b offset (o.putOutputs b g) =
      o.phases res [b] true true (o.blockParts res b)
        (some (.ofData (blockCheckpoint b offset))) g := rfl

/-! ## The effect of a chunk -/

section Effect

variable {chunk : List LocatedBlock} {res : Found} {g g' : Graph}

/-- The checkpoint a chunk sets, if it has a block. -/
def lastCheckpoint (chunk : List LocatedBlock) : Option Checkpoint :=
  chunk.getLast?.map fun last => .ofData (chunkCheckpoint last)

theorem lastCheckpoint_append (chunk rest : List LocatedBlock) :
    lastCheckpoint (chunk ++ rest) = (lastCheckpoint rest).or (lastCheckpoint chunk) := by
  unfold lastCheckpoint
  rw [List.getLast?_append, Option.map_or]

theorem withCheckpoint_eq (chunk : List LocatedBlock) (g : Graph) :
    withCheckpoint chunk g = { g with checkpoint := (lastCheckpoint chunk).or g.checkpoint } := by
  unfold withCheckpoint lastCheckpoint
  cases chunk.getLast? <;> rfl

/-- What a chunk adds once its blocks are created. -/
def afterBlocks (o : IngestionOrchestrator) (res : Found) (chunk : List LocatedBlock) :
    Graph → Graph :=
  o.phases res chunk (hasBip30 chunk) false
    (o.buckets (performsRows res chunk) (o.benefitsRows chunk)) (lastCheckpoint chunk)

/-- The simplified layer of a chunk, in its buckets. -/
theorem chunkParts_perm (o : IngestionOrchestrator) (res : Found) (chunk : List LocatedBlock) :
    ((o.buckets (performsRows res chunk) (o.benefitsRows chunk)).flatMap (·.1)).Perm
        (performsRows res chunk) ∧
      ((o.buckets (performsRows res chunk) (o.benefitsRows chunk)).flatMap (·.2)).Perm
        (o.benefitsRows chunk) :=
  buckets_perm _ _

/-- The rows a chunk creates are new: their keys differ and none is stored. -/
structure NewRows (o : IngestionOrchestrator) (chunk : List LocatedBlock) (g : Graph) : Prop where
  outputIds : ((o.outputRows chunk).map (·.outputId)).Nodup
  outputs : ∀ out ∈ o.outputRows chunk, ¬ g.outputs.Has out.outputId
  txids : ((txsOf chunk).map (·.txid)).Nodup
  transactions : ∀ tx ∈ txsOf chunk, ¬ g.transactions.Has tx.txid
  inputIds : ((inputRows chunk).map (·.inputId)).Nodup
  inputs : ∀ inp ∈ inputRows chunk, ¬ g.inputs.Has inp.inputId

variable (res) in
theorem txid_mem_transactionRows {t : Txid} :
    (∃ tx ∈ transactionRows res chunk, tx.txid = t) ↔ ∃ tx ∈ txsOf chunk, tx.txid = t := by
  rw [← List.mem_map, map_txid_transactionRows, List.mem_map]

theorem linkBy_bip30 {ε : Type} [DecidableEq ε] (bip30 : hasBip30 chunk) :
    (linkBy (hasBip30 chunk) : Multiset ε → ε → Multiset ε) = mergeLink := by
  rw [bip30, linkBy]

theorem linkBy_fast {ε : Type} [DecidableEq ε] (fast : ¬ hasBip30 chunk) :
    (linkBy (hasBip30 chunk) : Multiset ε → ε → Multiset ε) = link := by
  rw [Bool.eq_false_of_not_eq_true fast, linkBy]

theorem execAll_chunkOutputQueries :
    execAll neo4j (o.chunkOutputQueries chunk) g = .ok g' ↔
      (¬ hasBip30 chunk → ((o.outputRows chunk).map (·.outputId)).Nodup ∧
        ∀ out ∈ o.outputRows chunk, ¬ g.outputs.Has out.outputId) ∧
      g' = (o.outputRows chunk).foldl (Graph.putOutput (linkBy (hasBip30 chunk))) g := by
  unfold chunkOutputQueries
  by_cases bip30 : hasBip30 chunk
  · rw [if_pos bip30, Neo4jWriter.execAll_outputQueries, linkBy_bip30 bip30]
    constructor
    · intro ok
      exact ⟨fun fast => absurd bip30 fast, (Except.ok.inj ok).symm⟩
    · rintro ⟨_, rfl⟩
      rfl
  · rw [if_neg bip30, execAll_batchQueries (f := Graph.createOutput) (fun _ _ => rfl),
      Graph.foldlM_createOutput, linkBy_fast bip30]
    exact and_congr_left fun _ => ⟨fun new _ => new, fun new => new bip30⟩

variable (res) in
theorem execAll_chunkTransactionQueries :
    execAll neo4j (o.chunkTransactionQueries res chunk) g = .ok g' ↔
      (¬ hasBip30 chunk → ((txsOf chunk).map (·.txid)).Nodup ∧
        ∀ tx ∈ txsOf chunk, ¬ g.transactions.Has tx.txid) ∧
      g' =
        (transactionRows res chunk).foldl (Graph.putTransaction (linkBy (hasBip30 chunk))) g := by
  unfold chunkTransactionQueries
  by_cases bip30 : hasBip30 chunk
  · rw [if_pos bip30, execAll_batchQueries_total (f := Graph.putTransaction mergeLink)
      (fun _ _ => rfl), linkBy_bip30 bip30]
    constructor
    · intro ok
      exact ⟨fun fast => absurd bip30 fast, (Except.ok.inj ok).symm⟩
    · rintro ⟨_, rfl⟩
      rfl
  · rw [if_neg bip30, execAll_batchQueries (f := Graph.createTransaction) (fun _ _ => rfl),
      Graph.foldlM_createTransaction, linkBy_fast bip30, map_txid_transactionRows]
    have free : (∀ tx ∈ transactionRows res chunk, ¬ g.transactions.Has tx.txid) ↔
        ∀ tx ∈ txsOf chunk, ¬ g.transactions.Has tx.txid := by
      constructor
      · intro free tx mem has
        obtain ⟨row, mem', same⟩ := (txid_mem_transactionRows res).mpr ⟨tx, mem, rfl⟩
        exact free row mem' (same ▸ has)
      · intro free row mem has
        obtain ⟨tx, mem', same⟩ := (txid_mem_transactionRows res).mp ⟨row, mem, rfl⟩
        exact free tx mem' (same ▸ has)
    rw [free]
    exact and_congr_left fun _ => ⟨fun new _ => new, fun new => new bip30⟩

theorem execAll_chunkInputQueries :
    execAll neo4j (o.chunkInputQueries chunk) g = .ok g' ↔
      (¬ hasBip30 chunk → ((inputRows chunk).map (·.inputId)).Nodup ∧
        ∀ inp ∈ inputRows chunk, ¬ g.inputs.Has inp.inputId) ∧
      g' = (inputRows chunk).foldl
        (Graph.putInput (linkBy (hasBip30 chunk)) (linkBy (hasBip30 chunk))) g := by
  unfold chunkInputQueries
  by_cases bip30 : hasBip30 chunk
  · rw [if_pos bip30, execAll_batchQueries_total (f := Graph.putInput mergeLink mergeLink)
      (fun _ _ => rfl), linkBy_bip30 bip30, linkBy_bip30 bip30]
    constructor
    · intro ok
      exact ⟨fun fast => absurd bip30 fast, (Except.ok.inj ok).symm⟩
    · rintro ⟨_, rfl⟩
      rfl
  · rw [if_neg bip30, execAll_batchQueries (f := Graph.createInput) (fun _ _ => rfl),
      Graph.foldlM_createInput, linkBy_fast bip30, linkBy_fast bip30]
    exact and_congr_left fun _ => ⟨fun new _ => new, fun new => new bip30⟩

/-- **The queries of a chunk.** Once its blocks are created they are accepted iff its rows are new
or it is a BIP30 chunk. -/
theorem execAll_chunkQueries :
    execAll neo4j (o.chunkQueries res chunk) g = .ok g' ↔
      ∃ g₁, execAll neo4j (o.writer.batchQueries .createBlocksFast (blockRows chunk)) g = .ok g₁ ∧
        (¬ hasBip30 chunk → o.NewRows chunk g₁) ∧ g' = o.afterBlocks res chunk g₁ := by
  have outputsApart : ∀ g : Graph,
      ((o.outputRows chunk).foldl (Graph.putOutput (linkBy (hasBip30 chunk))) g).transactions =
        g.transactions ∧
      ((o.outputRows chunk).foldl (Graph.putOutput (linkBy (hasBip30 chunk))) g).inputs =
        g.inputs :=
    fun g => by
      rw [Graph.foldl_putOutput_eq]
      exact ⟨rfl, rfl⟩
  have inputsApart : ∀ g : Graph,
      ((o.outputRows chunk).foldl (Graph.putHasOutput link) ((transactionRows res chunk).foldl
        (Graph.putTransaction (linkBy (hasBip30 chunk))) g)).inputs = g.inputs := fun g => by
      rw [Graph.foldl_putHasOutput_eq, Graph.foldl_putTransaction_eq]
  have hasOutput : ∀ g : Graph, execAll neo4j (o.writer.batchQueries .createHasOutputFast
      (o.outputRows chunk)) g = .ok ((o.outputRows chunk).foldl (Graph.putHasOutput link) g) :=
    fun g => execAll_batchQueries_total (fun _ _ => rfl) ..
  unfold chunkQueries
  constructor
  · intro ok
    obtain ⟨g₁, blocks, ok⟩ := execAll_append_eq_ok.mp ok
    obtain ⟨g₂, sent, ok⟩ := execAll_append_eq_ok.mp ok
    obtain ⟨outputs, rfl⟩ := execAll_chunkOutputQueries.mp sent
    obtain ⟨g₃, sent, ok⟩ := execAll_append_eq_ok.mp ok
    obtain ⟨transactions, rfl⟩ := (execAll_chunkTransactionQueries _).mp sent
    rw [execAll_append_ok (hasOutput _)] at ok
    obtain ⟨g₄, sent, ok⟩ := execAll_append_eq_ok.mp ok
    obtain ⟨inputs, rfl⟩ := execAll_chunkInputQueries.mp sent
    rw [execAll_append_ok (execAll_bucketQueries ..), execAll_checkpointQueries,
      withCheckpoint_eq] at ok
    refine ⟨g₁, blocks, fun fast => ?_, (Except.ok.inj ok).symm⟩
    have newTransactions := (transactions fast).2
    have newInputs := (inputs fast).2
    rw [(outputsApart g₁).1] at newTransactions
    rw [inputsApart, (outputsApart g₁).2] at newInputs
    exact ⟨(outputs fast).1, (outputs fast).2, (transactions fast).1, newTransactions,
      (inputs fast).1, newInputs⟩
  · rintro ⟨g₁, blocks, new, rfl⟩
    have outputs := execAll_chunkOutputQueries.mpr
      ⟨fun fast => ⟨(new fast).outputIds, (new fast).outputs⟩, rfl⟩
    have transactions := (execAll_chunkTransactionQueries res (o := o)).mpr
      ⟨fun fast => ⟨(new fast).txids, by rw [(outputsApart g₁).1]; exact (new fast).transactions⟩,
        rfl⟩
    have inputs := (execAll_chunkInputQueries (o := o)).mpr
      ⟨fun fast => ⟨(new fast).inputIds, by
        rw [inputsApart, (outputsApart g₁).2]; exact (new fast).inputs⟩, rfl⟩
    rw [execAll_append_ok blocks, execAll_append_ok outputs, execAll_append_ok transactions,
      execAll_append_ok (hasOutput _), execAll_append_ok inputs,
      execAll_append_ok (execAll_bucketQueries ..), execAll_checkpointQueries, withCheckpoint_eq]
    rfl

end Effect

end IngestionOrchestrator

end ChainGraph

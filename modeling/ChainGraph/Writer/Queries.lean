import ChainGraph.Writer.Graph

/-!
# What each query does to the graph

One constructor of `Query` for each Cypher query of the writer, carrying the rows bound to its
parameter, and `Query.exec`, its effect.

A query takes its rows in order. Within a query no later clause writes what an earlier clause
matches, with one exception: the block queries set heights and then look up the previous block by
height. There every block is written before any link is made, as Cypher's clause order demands.
`MERGE` takes the node or relationship that is there; `CREATE` makes a new one, which a
uniqueness constraint can refuse; `MATCH` drops a row that matches nothing, and with it the rest
of the query for that row; `DETACH DELETE` removes a node with all its relationships.
-/

namespace ChainGraph

open Foundation

namespace Graph

/-! ## Phase 1: blocks -/

/-- Write a block's properties where no other block has its height. -/
def putBlock (g : Graph) (b : BlockNode)
    (free : ∀ c ∈ g.blocks.rows, c.height = b.height → c.hash = b.hash) : Graph :=
  { g with
    blocks := g.blocks.upsert b
    heightUnique := by
      intro c hc d hd same
      rcases Table.mem_upsert.mp hc with rfl | ⟨mc, nc⟩ <;>
        rcases Table.mem_upsert.mp hd with rfl | ⟨md, nd⟩
      · rfl
      · exact absurd (free d md same.symm) nd
      · exact absurd (free c mc same) nc
      · exact g.heightUnique c mc d md same }

/-- `MERGE (b:Block {hash: block.hash}) SET ...`; the height must not be another block's. -/
def mergeBlock (g : Graph) (b : BlockData) : Except DbFault Graph :=
  if free : ∀ c ∈ g.blocks.rows, c.height = b.height → c.hash = b.hash then .ok (g.putBlock b free)
  else .error .constraintViolation

/-- `CREATE (b:Block {hash: block.hash}) SET ...`. -/
def createBlock (g : Graph) (b : BlockData) : Except DbFault Graph :=
  if g.blocks.Has b.hash then .error .constraintViolation else g.mergeBlock b

/-- `NEXT_BLOCK` from the block one below, if the height is positive and there is such a block. -/
def linkPrev (add : Multiset (BlockHash × BlockHash) → BlockHash × BlockHash →
    Multiset (BlockHash × BlockHash)) (g : Graph) (b : BlockData) : Graph :=
  if b.height > 0 then
    match g.blockAt (b.height - 1) with
    | some prev => { g with nextBlock := add g.nextBlock (prev.hash, b.hash) }
    | none => g
  else g

/-! ## Phase 2: transactions -/

/-- A transaction's node, and its `INCLUDED_IN` if a block has its height. -/
def putTransaction (add : Multiset (Txid × BlockHash) → Txid × BlockHash →
    Multiset (Txid × BlockHash)) (g : Graph) (tx : TransactionData) : Graph :=
  { g with
    transactions := g.transactions.upsert (.ofData tx)
    includedIn :=
      match g.blockAt tx.blockHeight with
      | some b => add g.includedIn (tx.txid, b.hash)
      | none => g.includedIn }

def createTransaction (g : Graph) (tx : TransactionData) : Except DbFault Graph :=
  if g.transactions.Has tx.txid then .error .constraintViolation
  else .ok (g.putTransaction link tx)

/-! ## Phase 3: outputs -/

def mergeOutput (g : Graph) (out : OutputData) : Graph :=
  { g with outputs := g.outputs.upsert (.ofData out) }

/-- An address node and `LOCKED_TO` it. -/
def lockTo (add : Multiset (OutputId × Address) → OutputId × Address →
    Multiset (OutputId × Address)) (g : Graph) (id : OutputId) (address : Address) : Graph :=
  { g with addresses := insert address g.addresses, lockedTo := add g.lockedTo (id, address) }

/-- A row of `CREATE_LOCKED_TO_QUERY`; a null address cannot be merged. -/
def mergeLockedTo (g : Graph) (out : OutputData) : Except DbFault Graph :=
  if g.outputs.Has out.outputId then
    match out.address with
    | some address => .ok (g.lockTo mergeLink out.outputId address)
    | none => .error .nullProperty
  else .ok g

/-- A row of `CREATE_OUTPUTS_WITH_LOCKED_TO_FAST_QUERY`. -/
def createOutput (g : Graph) (out : OutputData) : Except DbFault Graph :=
  if g.outputs.Has out.outputId then .error .constraintViolation
  else
    match out.address with
    | some address => .ok ((g.mergeOutput out).lockTo link out.outputId address)
    | none => .ok (g.mergeOutput out)

/-- `HAS_OUTPUT`, if both ends are there. -/
def putHasOutput (add : Multiset (Txid × OutputId) → Txid × OutputId →
    Multiset (Txid × OutputId)) (g : Graph) (out : OutputData) : Graph :=
  if g.transactions.Has out.txid ∧ g.outputs.Has out.outputId then
    { g with hasOutput := add g.hasOutput (out.txid, out.outputId) }
  else g

/-! ## Phase 4: inputs -/

/-- An input's node; `HAS_INPUT` if its transaction is there; and then, except for the index of a
coinbase input, `SPENDS` if the previous output is there. -/
def putInput (addHas : Multiset (Txid × InputId) → Txid × InputId → Multiset (Txid × InputId))
    (addSpends : Multiset (InputId × OutputId) → InputId × OutputId →
      Multiset (InputId × OutputId)) (g : Graph) (inp : InputData) : Graph :=
  { g with
    inputs := g.inputs.upsert (.ofData inp)
    hasInput :=
      if g.transactions.Has inp.txid then addHas g.hasInput (inp.txid, inp.inputId)
      else g.hasInput
    spends :=
      if g.transactions.Has inp.txid ∧ inp.previousOutputIndex ≠ maxVout ∧
          g.outputs.Has inp.previousOutputId then
        addSpends g.spends (inp.inputId, inp.previousOutputId)
      else g.spends }

def createInput (g : Graph) (inp : InputData) : Except DbFault Graph :=
  if g.inputs.Has inp.inputId then .error .constraintViolation
  else .ok (g.putInput link link inp)

/-! ## Phase 6: the simplified layer -/

/-- The address is merged before the transaction is matched. -/
def mergePerforms (g : Graph) (p : PerformsData) : Graph :=
  { g with
    addresses := insert p.fromAddress g.addresses
    performs := if g.transactions.Has p.toTxid then g.performs.upsert p else g.performs }

/-- The transaction is matched before the address is merged. -/
def mergeBenefitsTo (g : Graph) (b : BenefitsToData) : Graph :=
  if g.transactions.Has b.fromTxid then
    { g with
      addresses := insert b.toAddress g.addresses
      benefitsTo := g.benefitsTo.upsert b }
  else g

/-! ## Rollback -/

/-- The transaction is included in the block at this height. -/
def InBlockAt (g : Graph) (height : ℕ) (txid : Txid) : Prop :=
  ∃ b ∈ g.blocks.rows, b.height = height ∧ (txid, b.hash) ∈ g.includedIn

instance (g : Graph) (height : ℕ) (txid : Txid) : Decidable (g.InBlockAt height txid) :=
  inferInstanceAs (Decidable (∃ b ∈ g.blocks.rows, _))

/-- The input belongs to a transaction of the block at this height. -/
def InputOfBlockAt (g : Graph) (height : ℕ) (id : InputId) : Prop :=
  ∃ e ∈ g.hasInput, e.2 = id ∧ g.InBlockAt height e.1

instance (g : Graph) (height : ℕ) (id : InputId) : Decidable (g.InputOfBlockAt height id) :=
  Multiset.decidableExistsMultiset

/-- The output belongs to a transaction of the block at this height. -/
def OutputOfBlockAt (g : Graph) (height : ℕ) (id : OutputId) : Prop :=
  ∃ e ∈ g.hasOutput, e.2 = id ∧ g.InBlockAt height e.1

instance (g : Graph) (height : ℕ) (id : OutputId) : Decidable (g.OutputOfBlockAt height id) :=
  Multiset.decidableExistsMultiset

def detachDeleteInputs (g : Graph) (p : InputId → Prop) [DecidablePred p] : Graph :=
  { g with
    inputs := g.inputs.delete fun i => p i.inputId
    hasInput := g.hasInput.filter fun e => ¬ p e.2
    spends := g.spends.filter fun e => ¬ p e.1 }

def detachDeleteOutputs (g : Graph) (p : OutputId → Prop) [DecidablePred p] : Graph :=
  { g with
    outputs := g.outputs.delete fun o => p o.outputId
    hasOutput := g.hasOutput.filter fun e => ¬ p e.2
    lockedTo := g.lockedTo.filter fun e => ¬ p e.1
    spends := g.spends.filter fun e => ¬ p e.2 }

def detachDeleteTransactions (g : Graph) (p : Txid → Prop) [DecidablePred p] : Graph :=
  { g with
    transactions := g.transactions.delete fun t => p t.txid
    includedIn := g.includedIn.filter fun e => ¬ p e.1
    hasInput := g.hasInput.filter fun e => ¬ p e.1
    hasOutput := g.hasOutput.filter fun e => ¬ p e.1
    performs := g.performs.delete fun r => p r.toTxid
    benefitsTo := g.benefitsTo.delete fun r => p r.fromTxid }

/-- Delete the block at a height, if there is one. -/
def detachDeleteBlockAt (g : Graph) (height : ℕ) : Graph :=
  match g.blockAt height with
  | none => g
  | some b =>
    { g with
      blocks := g.blocks.delete fun c => c.height = height
      heightUnique := fun c hc d hd =>
        g.heightUnique c (Table.mem_delete.mp hc).1 d (Table.mem_delete.mp hd).1
      nextBlock := g.nextBlock.filter fun e => e.1 ≠ b.hash ∧ e.2 ≠ b.hash
      includedIn := g.includedIn.filter fun e => e.2 ≠ b.hash }

end Graph

/-! ## Queries -/

/-- The Cypher queries of the writer, each with its parameter. -/
inductive Query where
  | createBlocks (blocks : List BlockData)
  | createTransactions (transactions : List TransactionData)
  | createOutputs (outputs : List OutputData)
  | createLockedTo (outputs : List OutputData)
  | createHasOutput (outputs : List OutputData)
  | createInputs (inputs : List InputData)
  | createPerformsBulk (performs : List PerformsData)
  | createBenefitsToBulk (benefitsTo : List BenefitsToData)
  | deleteCheckpoint
  | createCheckpoint
  | setCheckpointStatus (status : String)
  | updateCheckpoint (checkpoint : CheckpointData)
  | markCheckpointComplete
  | rollbackDeleteInputs (height : ℕ)
  | rollbackDeleteOutputs (height : ℕ)
  | rollbackDeleteTransactions (height : ℕ)
  | rollbackDeleteBlock (height : ℕ)
  | createBlocksFast (blocks : List BlockData)
  | createTransactionsFast (transactions : List TransactionData)
  | createOutputsWithLockedToFast (outputs : List OutputData)
  | createInputsFast (inputs : List InputData)
  | createHasOutputFast (outputs : List OutputData)
deriving DecidableEq, Repr

/-- The checkpoint node as `CREATE_CHECKPOINT_QUERY` makes it. -/
def Checkpoint.initial : Checkpoint where
  lastProcessedHeight := Graph.checkpointInitialHeight
  lastProcessedHash := some 0
  lastProcessedFile := "blk00000.dat"
  lastProcessedFileOffset := 0
  status := "in_progress"

/-- The properties `UPDATE_CHECKPOINT_QUERY` sets. -/
def Checkpoint.ofData (c : CheckpointData) : Checkpoint where
  lastProcessedHeight := c.lastProcessedHeight
  lastProcessedHash := c.lastProcessedHash
  lastProcessedFile := c.lastProcessedFile
  lastProcessedFileOffset := c.lastProcessedFileOffset.getD 0
  status := c.status

namespace Query

open Graph

/-- The effect of a query, or the constraint that refuses it. -/
def exec : Query → Graph → Except DbFault Graph
  | createBlocks blocks, g => do
    let g ← blocks.foldlM mergeBlock g
    .ok (blocks.foldl (linkPrev mergeLink) g)
  | createTransactions transactions, g => .ok (transactions.foldl (putTransaction mergeLink) g)
  | createOutputs outputs, g => .ok (outputs.foldl mergeOutput g)
  | createLockedTo outputs, g => outputs.foldlM mergeLockedTo g
  | createHasOutput outputs, g => .ok (outputs.foldl (putHasOutput mergeLink) g)
  | createInputs inputs, g => .ok (inputs.foldl (putInput mergeLink mergeLink) g)
  | createPerformsBulk performs, g => .ok (performs.foldl mergePerforms g)
  | createBenefitsToBulk benefitsTo, g => .ok (benefitsTo.foldl mergeBenefitsTo g)
  | deleteCheckpoint, g => .ok { g with checkpoint := none }
  | createCheckpoint, g => .ok { g with checkpoint := some .initial }
  | setCheckpointStatus status, g =>
    .ok { g with checkpoint := g.checkpoint.map fun c => { c with status } }
  | updateCheckpoint checkpoint, g => .ok { g with checkpoint := some (.ofData checkpoint) }
  | markCheckpointComplete, g =>
    .ok { g with checkpoint := g.checkpoint.map fun c => { c with status := "completed" } }
  | rollbackDeleteInputs height, g => .ok (g.detachDeleteInputs (g.InputOfBlockAt height))
  | rollbackDeleteOutputs height, g => .ok (g.detachDeleteOutputs (g.OutputOfBlockAt height))
  | rollbackDeleteTransactions height, g => .ok (g.detachDeleteTransactions (g.InBlockAt height))
  | rollbackDeleteBlock height, g => .ok (g.detachDeleteBlockAt height)
  | createBlocksFast blocks, g => do
    let g ← blocks.foldlM createBlock g
    .ok (blocks.foldl (linkPrev link) g)
  | createTransactionsFast transactions, g => transactions.foldlM createTransaction g
  | createOutputsWithLockedToFast outputs, g => outputs.foldlM createOutput g
  | createInputsFast inputs, g => inputs.foldlM createInput g
  | createHasOutputFast outputs, g => .ok (outputs.foldl (putHasOutput link) g)

end Query

end ChainGraph

import Mathlib.Data.Finset.Lattice.Fold
import Mathlib.Data.String.Basic
import Mathlib.Order.Lattice.Nat
import ChainGraph.Foundation.Table
import ChainGraph.Domain.Utxo

/-!
# The stored graph

The property graph the queries act on: nodes in tables keyed by the schema's unique properties,
relationships between them, and the checkpoint node. The unique constraints of the schema are part
of the type. `PERFORMS` and `BENEFITS_TO` are only ever merged, so each is a table keyed by its
endpoints; every other relationship is a bag, since the fast queries create without looking.

Amounts are kept as the 64 bits of the integer the driver is given. They are read back by the
opposite cast, so what a reader sees is the `u64` that was written. The driver, `neo4rs`, is taken
to return every stored integer unchanged. It misreads -16 to -1, which is why the checkpoint has a
sentinel; as amounts these lie within 16 of `2 ^ 64`.

The reads the code makes are functions of the graph.
-/

namespace ChainGraph

open Foundation

/-- A Block node has the properties of the row it is written from. -/
abbrev BlockNode := BlockData

structure TransactionNode where
  txid : Txid
  blockHeight : ℕ
  blockHash : BlockHash
  timestamp : ℕ
  version : ℤ
  locktime : ℕ
  size : ℕ
  vsize : ℕ
  weight : ℕ
  isCoinbase : Bool
  totalInput : UInt64
  totalOutput : UInt64
  fee : UInt64
deriving DecidableEq, Repr

structure OutputNode where
  outputId : OutputId
  outputIndex : ℕ
  amount : UInt64
  scriptPubKey : Script
  scriptType : ScriptType
deriving DecidableEq, Repr

structure InputNode where
  inputId : InputId
  inputIndex : ℕ
  scriptSig : Script
  sequence : ℕ
  witness : List (List UInt8)
deriving DecidableEq, Repr

/-- A PERFORMS relationship with its endpoints. -/
abbrev Performs := PerformsData

/-- A BENEFITS_TO relationship with its endpoints. -/
abbrev BenefitsTo := BenefitsToData

/-- The checkpoint node. -/
structure Checkpoint where
  lastProcessedHeight : ℤ
  lastProcessedHash : Option BlockHash
  lastProcessedFile : String
  lastProcessedFileOffset : ℕ
  status : String
deriving DecidableEq, Repr

def TransactionNode.ofData (tx : TransactionData) : TransactionNode where
  txid := tx.txid
  blockHeight := tx.blockHeight
  blockHash := tx.blockHash
  timestamp := tx.timestamp
  version := tx.version
  locktime := tx.locktime
  size := tx.size
  vsize := tx.vsize
  weight := tx.weight
  isCoinbase := tx.isCoinbase
  totalInput := tx.totalInput.getD 0
  totalOutput := tx.totalOutput.getD 0
  fee := tx.fee.getD 0

def OutputNode.ofData (out : OutputData) : OutputNode where
  outputId := out.outputId
  outputIndex := out.outputIndex
  amount := out.amount
  scriptPubKey := out.scriptPubkey
  scriptType := out.scriptType

def InputNode.ofData (inp : InputData) : InputNode where
  inputId := inp.inputId
  inputIndex := inp.inputIndex
  scriptSig := inp.scriptSig
  sequence := inp.sequence
  witness := inp.witness

/-- Pre-computed by `input_to_bolt_map`. -/
def InputData.previousOutputId (inp : InputData) : OutputId :=
  ⟨inp.previousTxid, inp.previousOutputIndex⟩

def Performs.ends (p : Performs) : Address × Txid := (p.fromAddress, p.toTxid)

def BenefitsTo.ends (b : BenefitsTo) : Txid × Address := (b.fromTxid, b.toAddress)

/-- The database. -/
structure Graph where
  blocks : Table BlockNode BlockData.hash
  heightUnique : ∀ a ∈ blocks, ∀ b ∈ blocks, a.height = b.height → a = b
  transactions : Table TransactionNode TransactionNode.txid
  outputs : Table OutputNode OutputNode.outputId
  inputs : Table InputNode InputNode.inputId
  addresses : Finset Address
  nextBlock : Multiset (BlockHash × BlockHash)
  includedIn : Multiset (Txid × BlockHash)
  hasInput : Multiset (Txid × InputId)
  hasOutput : Multiset (Txid × OutputId)
  lockedTo : Multiset (OutputId × Address)
  spends : Multiset (InputId × OutputId)
  performs : Table Performs Performs.ends
  benefitsTo : Table BenefitsTo BenefitsTo.ends
  checkpoint : Option Checkpoint

namespace Graph

/-- Graphs with the same parts are the same graph. -/
@[ext] theorem ext {g g' : Graph} (blocks : g.blocks = g'.blocks)
    (transactions : g.transactions = g'.transactions) (outputs : g.outputs = g'.outputs)
    (inputs : g.inputs = g'.inputs) (addresses : g.addresses = g'.addresses)
    (nextBlock : g.nextBlock = g'.nextBlock) (includedIn : g.includedIn = g'.includedIn)
    (hasInput : g.hasInput = g'.hasInput) (hasOutput : g.hasOutput = g'.hasOutput)
    (lockedTo : g.lockedTo = g'.lockedTo) (spends : g.spends = g'.spends)
    (performs : g.performs = g'.performs) (benefitsTo : g.benefitsTo = g'.benefitsTo)
    (checkpoint : g.checkpoint = g'.checkpoint) : g = g' := by
  cases g
  cases g'
  dsimp only at *
  subst_vars
  rfl

/-- The graph without nodes. -/
def empty : Graph where
  blocks := ∅
  heightUnique a ha := absurd ha (Table.not_mem_empty a)
  transactions := ∅
  outputs := ∅
  inputs := ∅
  addresses := ∅
  nextBlock := 0
  includedIn := 0
  hasInput := 0
  hasOutput := 0
  lockedTo := 0
  spends := 0
  performs := ∅
  benefitsTo := ∅
  checkpoint := none

/-! ## Blocks by height -/

/-- `MATCH (b:Block {height: $height})`. -/
def blockAt (g : Graph) (height : ℕ) : Option BlockNode :=
  sole (g.blocks.rows.filter (·.height = height)).val

theorem blockAt_eq_some {g : Graph} {height : ℕ} {b : BlockNode} :
    g.blockAt height = some b ↔ b ∈ g.blocks ∧ b.height = height := by
  unfold blockAt
  constructor
  · intro h
    have only : b ∈ (g.blocks.rows.filter (·.height = height)).val := by
      rw [sole_eq_some h]
      exact Multiset.mem_singleton_self b
    exact Finset.mem_filter.mp only
  · rintro ⟨mem, rfl⟩
    have single : g.blocks.rows.filter (·.height = b.height) = {b} := by
      ext c
      simp only [Finset.mem_filter, Finset.mem_singleton]
      constructor
      · rintro ⟨hc, same⟩
        exact g.heightUnique c hc b mem same
      · rintro rfl
        exact ⟨mem, rfl⟩
    rw [single, Finset.singleton_val, sole_singleton]

theorem blockAt_eq_none {g : Graph} {height : ℕ} :
    g.blockAt height = none ↔ ∀ b ∈ g.blocks, b.height ≠ height := by
  constructor
  · intro none b mem same
    rw [blockAt_eq_some.mpr ⟨mem, same⟩] at none
    cases none
  · intro absent
    cases found : g.blockAt height with
    | none => rfl
    | some b =>
      obtain ⟨mem, same⟩ := blockAt_eq_some.mp found
      exact absurd same (absent b mem)

/-! ## Reads -/

def lookupBlockHash (g : Graph) (height : ℕ) : Option BlockHash := (g.blockAt height).map (·.hash)

/-- `max(b.height)`, null without blocks. -/
def getMaxBlockHeight (g : Graph) : Option ℕ :=
  if g.blocks.rows.Nonempty then some (asU32 (g.blocks.rows.sup (·.height))) else none

/-- The expected and the actual number of transactions of a block. -/
def checkBlockComplete (g : Graph) (height : ℕ) : Except WriterError (ℕ × ℕ) :=
  match g.blockAt height with
  | some b => .ok (b.txCount, asU32 (g.includedIn.filter (·.2 = b.hash)).card)
  | none => .error (.QueryFailed s!"Block {height} not found")

/-- `OPTIONAL MATCH (o)-[:LOCKED_TO]->(a:Address)`: the addresses of one output, or one null. -/
def lockedAddresses (g : Graph) (id : OutputId) : List (Option Address) :=
  match listing ((g.lockedTo.filter (·.1 = id)).map (·.2)) with
  | [] => [none]
  | as => as.map some

/-- The rows for one requested id. -/
def lookupOutput (g : Graph) (id : OutputId) : List OutputLookupResult :=
  match g.outputs.get? id with
  | none => []
  | some o =>
    (g.lockedAddresses id).map fun address =>
      { outputId := o.outputId, outputIndex := asU32 o.outputIndex, amount := o.amount,
        scriptType := o.scriptType, address }

def lookupOutputsBatch (g : Graph) (ids : List OutputId) : List OutputLookupResult :=
  ids.flatMap g.lookupOutput

/-- The initial checkpoint height in the database. -/
def checkpointInitialHeight : ℤ := -999

/-- The stored height as the domain sees it: the sentinel and its two legacy spellings mean that
nothing has been processed. -/
def decodeCheckpointHeight (val : ℤ) : ℤ :=
  if val = checkpointInitialHeight ∨ val = 255 ∨ val = -1 then -1 else Int.bmod val (2 ^ 32)

def getCheckpoint (g : Graph) : Option CheckpointData :=
  g.checkpoint.map fun c =>
    { lastProcessedHeight := decodeCheckpointHeight c.lastProcessedHeight
      lastProcessedHash := c.lastProcessedHash
      lastProcessedFile := c.lastProcessedFile
      lastProcessedFileOffset := some c.lastProcessedFileOffset
      status := c.status }

/-- The stored data of the output with this id, as the cache keeps it: the last row of its lookup,
since a map collected from the rows keeps the last one under each id. -/
def resolve (g : Graph) (id : OutputId) : Option CachedOutput :=
  (g.lookupOutput id).getLast?.map .ofLookup

end Graph

end ChainGraph

import ChainGraph.Parser.Address

/-!
# Domain models and their conversion from blocks

The records handed to the writer. Hashes stay hashes here and are printed by the driver. An output
or input identifier is the text `txid:index`; it is kept as the pair it is printed from. A script
type is its tag rather than its text. The difficulty, a floating-point function of `bits`, is left
out, and so are the wall-clock timestamps of checkpoints.
-/

namespace ChainGraph

/-- `txid:index`, for an output of a transaction. -/
abbrev OutputId := OutPoint

/-- `txid:index`, for an input of a transaction. -/
abbrev InputId := OutPoint

structure BlockData where
  height : ℕ
  hash : BlockHash
  previousHash : BlockHash
  merkleRoot : Hash256
  timestamp : ℕ
  bits : ℕ
  nonce : ℕ
  version : ℤ
  txCount : ℕ
  size : ℕ
  weight : ℕ
deriving DecidableEq, Repr

structure TransactionData where
  txid : Txid
  blockHeight : ℕ
  blockHash : BlockHash
  timestamp : ℕ
  version : ℤ
  locktime : ℕ
  size : ℕ
  vsize : ℕ
  weight : ℕ
  isCoinbase : Bool
  totalInput : Option UInt64
  totalOutput : Option UInt64
  fee : Option UInt64
deriving DecidableEq, Repr

structure OutputData where
  outputId : OutputId
  outputIndex : ℕ
  txid : Txid
  amount : UInt64
  scriptPubkey : Script
  scriptType : ScriptType
  address : Option Address
deriving DecidableEq, Repr

structure InputData where
  inputId : InputId
  inputIndex : ℕ
  txid : Txid
  previousTxid : Txid
  previousOutputIndex : ℕ
  scriptSig : Script
  sequence : ℕ
  witness : List (List UInt8)
  blockHeight : ℕ
deriving DecidableEq, Repr

structure PerformsData where
  fromAddress : Address
  toTxid : Txid
  inputCount : UInt32
  amountSpent : UInt64
deriving DecidableEq, Repr

structure BenefitsToData where
  fromTxid : Txid
  toAddress : Address
  outputCount : UInt32
  amountReceived : UInt64
deriving DecidableEq, Repr

/-- Progress of ingestion. A hash of `none` is the text `unknown`, written when a checkpoint is
recovered without a stored block. -/
structure CheckpointData where
  lastProcessedHeight : ℤ
  lastProcessedHash : Option BlockHash
  lastProcessedFile : String
  lastProcessedFileOffset : Option ℕ
  status : String
deriving DecidableEq, Repr

/-- One row of the output lookup that backs the cache. -/
structure OutputLookupResult where
  outputId : OutputId
  outputIndex : ℕ
  amount : UInt64
  scriptType : ScriptType
  address : Option Address
deriving DecidableEq, Repr

/-! ## Conversions -/

/-- A natural number cast to `u32`. -/
def asU32 (n : ℕ) : ℕ := n % 2 ^ 32

theorem asU32_of_lt {n : ℕ} (h : n < 2 ^ 32) : asU32 n = n := Nat.mod_eq_of_lt h

/-- A natural number below `2 ^ 32` cast to `i32`. -/
@[irreducible] def asI32 (n : ℕ) : ℤ := Int.bmod n (2 ^ 32)

theorem asI32_of_lt {n : ℕ} (h : n < 2 ^ 31) : asI32 n = n := by
  unfold asI32
  rw [Int.bmod_def]
  split <;> omega

def BlockData.fromBlock (block : Block) (height : ℕ) : BlockData where
  height := height
  hash := block.blockHash
  previousHash := block.header.prevBlockhash
  merkleRoot := block.header.merkleRoot
  timestamp := block.header.time
  bits := block.header.bits
  nonce := block.header.nonce
  version := block.header.version
  txCount := asU32 block.txdata.length
  size := block.totalSize
  weight := block.weight

def TransactionData.fromTransaction (tx : Transaction) (blockHeight : ℕ) (blockHash : BlockHash)
    (timestamp : ℕ) : TransactionData where
  txid := tx.txid
  blockHeight := blockHeight
  blockHash := blockHash
  timestamp := timestamp
  version := tx.version
  locktime := tx.lockTime
  size := tx.totalSize
  vsize := tx.vsize
  weight := tx.weight
  isCoinbase := tx.isCoinbase
  totalInput := none
  totalOutput := none
  fee := none

def OutputData.fromOutput (crate : AddressCrate) (output : TxOut) (txid : Txid) (outputIndex : ℕ)
    (network : Network) : OutputData where
  outputId := ⟨txid, outputIndex⟩
  outputIndex := outputIndex
  txid := txid
  amount := output.value
  scriptPubkey := output.scriptPubkey
  scriptType := (extractAddress crate output.scriptPubkey network).scriptType
  address := (extractAddress crate output.scriptPubkey network).address

def InputData.fromInput (input : TxIn) (txid : Txid) (inputIndex : ℕ) (blockHeight : ℕ) :
    InputData where
  inputId := ⟨txid, inputIndex⟩
  inputIndex := inputIndex
  txid := txid
  previousTxid := input.previousOutput.txid
  previousOutputIndex := input.previousOutput.vout
  scriptSig := input.scriptSig
  sequence := input.sequence
  witness := input.witness
  blockHeight := blockHeight

end ChainGraph

import ChainGraph.Foundation.Hex
import Mathlib.Data.BitVec
import Mathlib.Tactic.Common

/-!
# Bitcoin blocks as the parser delivers them

The types of the `bitcoin` crate, with the fields the ingestion reads. Hashing is the crate's: a
transaction carries its txid and a block its hash, and where a result rests on equal txids meaning
equal outputs it says so.

A hash is its 32 bytes in the crate's order, byte `i` in bits `8 i` to `8 i + 7`; its text form
lists the bytes from the last to the first, which is how the number itself is written in
hexadecimal. Heights, indices and sizes are natural numbers; casts that can lose bits are written
out where the code makes them. Amounts are `UInt64` because the code adds them without a check.
-/

namespace ChainGraph

open Foundation

/-- The 32 bytes of a double SHA-256 hash. -/
abbrev Hash256 := BitVec 256

abbrev Txid := Hash256

abbrev BlockHash := Hash256

namespace Hash256

/-- Byte `i` of a hash, as `to_byte_array` returns it. -/
def byte (h : Hash256) (i : ℕ) : ℕ := (h >>> (8 * i)).toNat % 256

def toByteArray (h : Hash256) : List UInt8 := leBytes 32 h.toNat

def fromByteArray (bytes : List UInt8) : Hash256 := .ofNat 256 (ofLe bytes)

/-- The text form: the bytes from the last to the first, in lower case. -/
def display (h : Hash256) : String := String.ofList (Hex.encode h.toByteArray.reverse)

/-- `FromStr`: the digits of 32 bytes, from the last to the first. -/
def fromStr (text : String) : Option Hash256 := do
  let bytes ← Hex.decode text.toList
  if bytes.length = 32 then some (.fromByteArray bytes.reverse) else none

end Hash256

/-- An output of a transaction, by the transaction's id and its position there. -/
structure OutPoint where
  txid : Txid
  vout : ℕ
deriving DecidableEq, Repr

/-- The largest index, which a coinbase input carries in place of a real one. -/
def maxVout : ℕ := 4294967295

/-- `OutPoint::is_null`: the previous output of a coinbase input. -/
def OutPoint.isNull (o : OutPoint) : Bool := o.vout = maxVout ∧ o.txid = 0

/-- The bytes of a script. -/
abbrev Script := List UInt8

structure TxIn where
  previousOutput : OutPoint
  scriptSig : Script
  sequence : ℕ
  witness : List (List UInt8)
deriving DecidableEq, Repr

structure TxOut where
  value : UInt64
  scriptPubkey : Script
deriving DecidableEq, Repr

/-- A transaction with its id. The positions of its inputs and outputs fit the `u32` an outpoint
has for them: a serialized input or output takes several bytes, and no source of blocks delivers
a transaction of that size. -/
structure Transaction where
  txid : Txid
  version : ℤ
  lockTime : ℕ
  input : List TxIn
  output : List TxOut
  totalSize : ℕ
  vsize : ℕ
  weight : ℕ
  inputs_lt : input.length < 2 ^ 32 := by first | decide | simp
  outputs_lt : output.length < 2 ^ 32 := by first | decide | simp
deriving DecidableEq, Repr

namespace Transaction

/-- `Transaction::is_coinbase`: one input, which spends nothing. -/
def isCoinbase (tx : Transaction) : Bool :=
  match tx.input with
  | [only] => only.previousOutput.isNull
  | _ => false

end Transaction

structure Header where
  version : ℤ
  prevBlockhash : BlockHash
  merkleRoot : Hash256
  time : ℕ
  bits : ℕ
  nonce : ℕ
deriving DecidableEq, Repr

/-- A block with its hash. -/
structure Block where
  blockHash : BlockHash
  header : Header
  txdata : List Transaction
  totalSize : ℕ
  weight : ℕ
deriving DecidableEq, Repr

/-- A block of a batch: its height and the file or source it was read from. -/
structure LocatedBlock where
  height : ℕ
  block : Block
  fileName : String
deriving DecidableEq, Repr

end ChainGraph

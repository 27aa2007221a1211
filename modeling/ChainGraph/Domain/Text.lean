import ChainGraph.Domain.Utxo

/-!
# The records as they are printed

Elsewhere an identifier is the pair it is printed from. Here are the texts themselves: the keys of
the cache as bytes, the records of an output and of an input with their hashes and identifiers as
text, the parameters that are made of them, and the rows of the output lookup.
-/

namespace ChainGraph

open Foundation

/-! ## Keys -/

/-- A cache key as it is stored: the bytes of the txid in the internal order, and the index. -/
structure CompactKey where
  txid : List UInt8
  vout : ℕ
  size : txid.length = 32
deriving DecidableEq

namespace CompactKey

def fromOutpoint (o : OutPoint) : CompactKey := ⟨o.txid.toByteArray, o.vout, length_leBytes ..⟩

def fromHexTxid (txidHex : String) (vout : ℕ) : Option CompactKey :=
  (Hash256.fromStr txidHex).map fun txid => ⟨txid.toByteArray, vout, length_leBytes ..⟩

def toOutputIdString (k : CompactKey) : String :=
  s!"{(Hash256.fromByteArray k.txid).display}:{k.vout}"

end CompactKey

namespace Text

/-! ## Records -/

def hexText (bytes : List UInt8) : String := String.ofList (Hex.encode bytes)

def scriptTypeText : ScriptType → String
  | .P2PKH => "P2PKH"
  | .P2SH => "P2SH"
  | .P2WPKH => "P2WPKH"
  | .P2WSH => "P2WSH"
  | .P2TR => "P2TR"
  | .P2PK => "P2PK"
  | .NullData => "NULL_DATA"
  | .Unknown => "UNKNOWN"

structure OutputData where
  outputId : String
  outputIndex : ℕ
  txid : String
  amount : UInt64
  scriptPubkey : String
  scriptType : String
  address : Option String
deriving DecidableEq, Repr

def OutputData.fromOutput (crate : AddressCrate) (output : TxOut) (txid : String)
    (outputIndex : ℕ) (network : Network) : OutputData where
  outputId := s!"{txid}:{outputIndex}"
  outputIndex := outputIndex
  txid := txid
  amount := output.value
  scriptPubkey := hexText output.scriptPubkey
  scriptType := scriptTypeText (extractAddress crate output.scriptPubkey network).scriptType
  address := (extractAddress crate output.scriptPubkey network).address

structure InputData where
  inputId : String
  inputIndex : ℕ
  txid : String
  previousTxid : String
  previousOutputIndex : ℕ
  scriptSig : String
  sequence : ℕ
  witness : List String
  blockHeight : ℕ
deriving DecidableEq, Repr

def InputData.fromInput (input : TxIn) (txid : String) (inputIndex : ℕ) (blockHeight : ℕ) :
    InputData where
  inputId := s!"{txid}:{inputIndex}"
  inputIndex := inputIndex
  txid := txid
  previousTxid := input.previousOutput.txid.display
  previousOutputIndex := input.previousOutput.vout
  scriptSig := hexText input.scriptSig
  sequence := input.sequence
  witness := input.witness.map hexText
  blockHeight := blockHeight

/-! ## Parameters -/

inductive BoltType where
  | string (s : String)
  | integer (n : ℤ)
  | list (items : List BoltType)

abbrev BoltMap := List (String × BoltType)

/-- `BoltMap::put`. -/
def BoltMap.put (map : BoltMap) (name : String) (value : BoltType) : BoltMap :=
  (name, value) :: map.filter (·.1 ≠ name)

/-- `get` of a text. -/
def BoltMap.getString (map : BoltMap) (name : String) : Option String :=
  match map.lookup name with
  | some (.string s) => some s
  | _ => none

/-- `get` of an `i64`. -/
def BoltMap.getInteger (map : BoltMap) (name : String) : Option ℤ :=
  match map.lookup name with
  | some (.integer n) => some n
  | _ => none

/-- A `u64` cast to `i64`. -/
def asI64 (n : UInt64) : ℤ := Int.bmod n.toNat (2 ^ 64)

def outputToBoltMap (output : OutputData) : BoltMap :=
  let map : BoltMap := []
  let map := map.put "outputId" (.string output.outputId)
  let map := map.put "outputIndex" (.integer output.outputIndex)
  let map := map.put "txid" (.string output.txid)
  let map := map.put "amount" (.integer (asI64 output.amount))
  let map := map.put "scriptPubKey" (.string output.scriptPubkey)
  let map := map.put "scriptType" (.string output.scriptType)
  match output.address with
  | some address => map.put "address" (.string address)
  | none => map

def inputToBoltMap (input : InputData) : BoltMap :=
  let map : BoltMap := []
  let map := map.put "inputId" (.string input.inputId)
  let map := map.put "inputIndex" (.integer input.inputIndex)
  let map := map.put "txid" (.string input.txid)
  let map := map.put "previousTxid" (.string input.previousTxid)
  let map := map.put "previousOutputIndex" (.integer input.previousOutputIndex)
  let map := map.put "scriptSig" (.string input.scriptSig)
  let map := map.put "sequence" (.integer input.sequence)
  let map := map.put "witness" (.list (input.witness.map .string))
  map.put "previousOutputId" (.string s!"{input.previousTxid}:{input.previousOutputIndex}")

/-! ## The output lookup -/

/-- The node that the creation of an output makes of its parameter: four of its values and its
identifier, and the address it is locked to. -/
structure OutputNode where
  properties : BoltMap
  lockedTo : Option BoltType

def createOutput (out : BoltMap) : OutputNode where
  properties := out.filter fun property =>
    ["outputId", "outputIndex", "amount", "scriptPubKey", "scriptType"].contains property.1
  lockedTo := out.lookup "address"

/-- What the lookup returns of a node. -/
def OutputNode.row (node : OutputNode) : BoltMap :=
  let row : BoltMap := node.properties.filter fun property =>
    ["outputId", "outputIndex", "amount", "scriptType"].contains property.1
  match node.lockedTo with
  | some address => row.put "address" address
  | none => row

/-- `LOOKUP_OUTPUTS_BATCH_QUERY`: for every identifier the nodes that have it. -/
def lookupRows (nodes : List OutputNode) (outputIds : List String) : List BoltMap :=
  outputIds.flatMap fun oid =>
    (nodes.filter fun node => node.properties.getString "outputId" = some oid).map OutputNode.row

structure OutputLookupResult where
  outputId : String
  outputIndex : ℕ
  amount : UInt64
  scriptType : String
  address : Option String
deriving DecidableEq, Repr

/-- A row, read back field by field. -/
def readRow (row : BoltMap) : Option OutputLookupResult := do
  let outputId ← row.getString "outputId"
  let outputIndex ← row.getInteger "outputIndex"
  let amount ← row.getInteger "amount"
  let scriptType ← row.getString "scriptType"
  pure
    { outputId
      outputIndex := (outputIndex % 2 ^ 32).toNat
      amount := .ofInt amount
      scriptType
      address := row.getString "address" }

/-- The results of a lookup, in order; a row that cannot be read ends it. -/
def lookupOutputsBatch (nodes : List OutputNode) (outputIds : List String) :
    Option (List OutputLookupResult) :=
  if outputIds.isEmpty then some [] else (lookupRows nodes outputIds).mapM readRow

end Text

end ChainGraph

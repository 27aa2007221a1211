import Mathlib.Data.List.AList
import Mathlib.Data.List.Sort
import ChainGraph.Foundation.Words
import ChainGraph.Domain.Models

/-!
# The block index

The reader of Bitcoin Core's LevelDB index. A database yields its records in the order of their
keys; a key is `b` and the bytes of a block hash, a value starts with a row of varints. Records that
do not parse are skipped. Increments and shifts of the varint decoder are checked; sums of heights
wrap as in a release build.
-/

namespace ChainGraph

open Foundation

inductive IndexError where
  | Database (message : String)
  | Io (message : String)
  | IndexNotFound (path : String)
  | ParseError (message : String)
  | BlockNotFound (message : String)
  | CorruptIndex (message : String)
deriving DecidableEq, Repr

namespace IndexError

/-- The text of an error. -/
def display : IndexError → String
  | Database m => s!"LevelDB error: {m}"
  | Io m => s!"I/O error: {m}"
  | IndexNotFound p => s!"Block index not found at path: {p}"
  | ParseError m => s!"Failed to parse block record: {m}"
  | BlockNotFound m => s!"Block not found: {m}"
  | CorruptIndex m => s!"Corrupt block index: {m}"

end IndexError

/-- Block metadata from the index. -/
structure BlockIndexEntry where
  height : ℕ
  hash : String
  prevHash : String
  fileNumber : ℕ
  fileOffset : UInt64
  blockSize : ℕ
  txCount : ℕ
  status : UInt64
deriving DecidableEq, Repr

/-- A LevelDB database: one record for each key, in the order of the keys, and what opening an
iterator fails with, if it does. -/
structure IndexDb where
  records : List (List UInt8 × List UInt8)
  fault : Option String := none
  distinct : (records.map Prod.fst).Nodup

namespace BlockIndex

/-- `u64::MAX`. -/
def u64Max : UInt64 := 18446744073709551615

/-- The loop of `decode_varint`: the number read so far and the number of bytes it took. -/
def decodeLoop (data : List UInt8) (n : UInt64) (bytesRead : ℕ) :
    Checked IndexError (UInt64 × ℕ) :=
  if bytesRead ≥ data.length then
    .error (.returned (.ParseError "Unexpected end of varint data"))
  else do
    let chData ← Checked.index data bytesRead
    let bytesRead := bytesRead + 1
    if n > u64Max >>> 7 then .error (.returned (.ParseError "Varint size too large"))
    else
      let n := (← Checked.shl n 7) ||| (chData &&& 0x7F).toUInt64
      if chData &&& 0x80 > 0 then
        if n = u64Max then .error (.returned (.ParseError "Varint overflow"))
        else
          let n ← Checked.succ n
          decodeLoop data n bytesRead
      else .ok (n, bytesRead)
termination_by data.length - bytesRead

/-- The number at the start of the data, and how many bytes it takes. -/
def decodeVarint (data : List UInt8) : Checked IndexError (UInt64 × ℕ) := decodeLoop data 0 0

/-- The number at the cursor, and the cursor after it. -/
def readVarint (data : List UInt8) (cursor : ℕ) : Checked IndexError (UInt64 × ℕ) := do
  let rest ← Checked.sliceFrom data cursor
  let (value, bytesRead) ← (decodeVarint rest).mapErr fun e =>
    IndexError.ParseError s!"Varint decode: {e.display}"
  pure (value, cursor + bytesRead)

/-- Status flag of a block whose data is stored. -/
def blockHaveData : UInt64 := 8

/-- Status flag of a block on the valid main chain. -/
def blockValidChain : UInt64 := 4

/-- The fields at the start of a record. A record with neither flag is refused. -/
def parseBlockRecord (hash : String) (data : List UInt8) : Checked IndexError BlockIndexEntry := do
  let (_, cursor) ← readVarint data 0
  let (height, cursor) ← readVarint data cursor
  let (status, cursor) ← readVarint data cursor
  let (txCount, cursor) ← readVarint data cursor
  if status &&& (blockValidChain ||| blockHaveData) = 0 then
    .error (.returned (.ParseError "Block not on main chain or no data"))
  else
    let (fileNum, cursor) ← readVarint data cursor
    let (fileOff, _) ← readVarint data cursor
    pure {
      height := asU32 height.toNat
      hash
      prevHash := ""
      fileNumber := asU32 fileNum.toNat
      fileOffset := fileOff
      blockSize := 0
      txCount := asU32 txCount.toNat
      status }

/-- `hex::encode`. -/
def hexEncode (bytes : List UInt8) : String :=
  String.ofList (bytes.flatMap fun b =>
    [Nat.digitChar (b.toNat / 16), Nat.digitChar (b.toNat % 16)])

/-- The entry of a record: none if its key is not a block's or its value does not parse. -/
def entryOf (record : List UInt8 × List UInt8) : Checked IndexError (Option BlockIndexEntry) :=
  if record.1.length = 33 ∧ record.1.head? = some 0x62 then
    match parseBlockRecord (hexEncode record.1.tail) record.2 with
    | .ok entry => .ok (some entry)
    | .error (.returned _) => .ok none
    | .error (.panicked p) => .error (.panicked p)
  else .ok none

/-- Opening an iterator. -/
def newIter (db : IndexDb) : Checked IndexError Unit :=
  match db.fault with
  | some e => .error (.returned (.Database s!"Iterator error: {e}"))
  | none => .ok ()

/-! ## The main chain -/

/-- The scan of `get_main_chain` and `get_main_chain_up_to`: the entries whose height is kept. -/
def scanChain (keep : ℕ → Bool) :
    List (List UInt8 × List UInt8) → Checked IndexError (List BlockIndexEntry)
  | [] => .ok []
  | record :: records => do
    match ← entryOf record with
    | some entry =>
      let chain ← scanChain keep records
      pure (if keep entry.height then entry :: chain else chain)
    | none => scanChain keep records

/-- The check that every height is one above the height before it. -/
def verifySequential : List BlockIndexEntry → Checked IndexError Unit
  | a :: b :: chain =>
    if b.height ≠ asU32 (a.height + 1) then
      .error (.returned (.CorruptIndex s!"Non-sequential heights: {a.height} -> {b.height}"))
    else verifySequential (b :: chain)
  | _ => .ok ()

/-- What the two methods share: scan, sort by height, check the heights. -/
def chainWith (db : IndexDb) (keep : ℕ → Bool) : Checked IndexError (List BlockIndexEntry) := do
  newIter db
  let chain ← scanChain keep db.records
  if chain.isEmpty then .error (.returned (.CorruptIndex "No blocks found in index"))
  else
    let chain := chain.mergeSort fun a b => a.height ≤ b.height
    verifySequential chain
    pure chain

/-- All blocks of the index, by height. -/
def getMainChain (db : IndexDb) : Checked IndexError (List BlockIndexEntry) :=
  chainWith db fun _ => true

def getMainChainUpTo (db : IndexDb) (maxHeight : ℕ) : Checked IndexError (List BlockIndexEntry) :=
  chainWith db fun height => height ≤ maxHeight

/-! ## A range of heights -/

/-- The entries of a batch by height. -/
abbrev Batch := AList fun _ : ℕ => BlockIndexEntry

/-- The scan of `load_batch_index`. A later record of a height replaces an earlier one, and the scan
stops as soon as the batch has as many heights as the range. -/
def scanBatch (startHeight endHeight targetCount : ℕ) :
    List (List UInt8 × List UInt8) → Batch → Checked IndexError Batch
  | [], batch => .ok batch
  | record :: records, batch => do
    match ← entryOf record with
    | some entry =>
      if entry.height ≥ startHeight ∧ entry.height ≤ endHeight then
        let batch := batch.insert entry.height entry
        if batch.entries.length ≥ targetCount then pure batch
        else scanBatch startHeight endHeight targetCount records batch
      else scanBatch startHeight endHeight targetCount records batch
    | none => scanBatch startHeight endHeight targetCount records batch

/-- The number of heights in a range, as the code computes it. -/
def targetCount (startHeight endHeight : ℕ) : ℕ := asU32 (endHeight - startHeight + 1)

def loadBatchIndex (db : IndexDb) (startHeight endHeight : ℕ) : Checked IndexError Batch := do
  newIter db
  scanBatch startHeight endHeight (targetCount startHeight endHeight) db.records ∅

end BlockIndex

end ChainGraph

import ChainGraph.Domain.Utxo
import ChainGraph.Foundation.Bytes

/-!
# Snapshots of the UTXO cache

A snapshot is a header (magic, version, number of entries, checkpoint height, checksum of what
follows) and the entries, shard by shard, each shard from its most to its least recently used entry.
Loading reads the whole file and compares the checksum before it stores anything, and stores each
shard's entries from the last to the first.

The checksum is the `crc32fast` crate's, a function of the bytes. A file is its bytes: the temporary
file and the renaming, and failures of the file system, are left out, and so is the checkpoint
height given to a load, which is only logged.
-/

namespace ChainGraph

open Foundation

inductive IoError where
  | UnexpectedEof
  | InvalidData (message : String)
  /-- An address that is not UTF-8; what the standard library says about it is left out. -/
  | InvalidUtf8
deriving DecidableEq, Repr

namespace ScriptType

/-- `script_type as u8`. -/
def toByte : ScriptType → UInt8
  | .P2PKH => 0
  | .P2SH => 1
  | .P2WPKH => 2
  | .P2WSH => 3
  | .P2TR => 4
  | .P2PK => 5
  | .NullData => 6
  | .Unknown => 7

def ofByte : UInt8 → ScriptType
  | 0 => .P2PKH
  | 1 => .P2SH
  | 2 => .P2WPKH
  | 3 => .P2WSH
  | 4 => .P2TR
  | 5 => .P2PK
  | 6 => .NullData
  | _ => .Unknown

end ScriptType

namespace UtxoCache

/-- An entry of the cache, key and value. -/
abbrev Entry := UtxoKey × CachedOutput

/-- `CACHE_FILE_MAGIC`: the text `UTXO`. -/
def cacheFileMagic : List UInt8 := [85, 84, 88, 79]

/-- `CACHE_FILE_VERSION`. -/
def cacheFileVersion : ℕ := 1

/-- The bytes of a text. -/
def textBytes (text : String) : List UInt8 := text.toByteArray.data.toList

/-- `{:08x}`. -/
def hex8 (n : ℕ) : String := (String.ofList (Nat.toDigits 16 n)).leftpad 8 '0'

/-! ## Saving -/

/-- A flag, then the length and the bytes of the text. The length is cast to `u16`. -/
def addressBytes : Option Address → List UInt8
  | some address => 1 :: (leBytes 2 (textBytes address).length ++ textBytes address)
  | none => [0]

def entryBytes (e : Entry) : List UInt8 :=
  leBytes 32 e.1.txid.toNat ++ (leBytes 4 e.1.vout ++ (leBytes 4 e.2.outputIndex ++
    (leBytes 8 e.2.amount.toNat ++ ([e.2.scriptType.toByte] ++ addressBytes e.2.address))))

/-- All entries in the order they are written. -/
def allEntries (c : UtxoCache) : List Entry :=
  (List.finRange numShards).flatMap fun s => (c.shards s).entries

/-- The bytes the checksum is computed from. -/
def bodyBytes (c : UtxoCache) : List UInt8 := c.allEntries.flatMap entryBytes

def headerBytes (count height crc : ℕ) : List UInt8 :=
  cacheFileMagic ++ (leBytes 4 cacheFileVersion ++ (leBytes 8 count ++ (leBytes 4 height ++
    leBytes 4 crc)))

/-- The file of a cache, and the number of entries written. -/
def saveToFile (crc32 : List UInt8 → UInt32) (c : UtxoCache) (checkpointHeight : ℕ) :
    List UInt8 × ℕ :=
  (headerBytes c.len checkpointHeight (crc32 c.bodyBytes).toNat ++ c.bodyBytes, c.allEntries.length)

/-- The checkpoint height in the header of a file. -/
def headerHeight (file : List UInt8) : ℕ := ofLe ((file.drop 16).take 4)

/-! ## Loading -/

def readExact (n : ℕ) : Reader IoError (List UInt8) := Reader.readExact .UnexpectedEof n

def readHashed (n : ℕ) : Reader IoError (List UInt8) := Reader.readHashed .UnexpectedEof n

/-- The number of entries and the checksum the header promises. -/
def readHeader : Reader IoError (ℕ × ℕ) := do
  let magic ← readExact 4
  if magic ≠ cacheFileMagic then
    Reader.fail (.InvalidData s!"Invalid cache file magic: {magic}")
  else
    let version ← readExact 4
    if ofLe version ≠ cacheFileVersion then
      Reader.fail (.InvalidData s!"Unsupported cache file version: {ofLe version}")
    else
      let count ← readExact 8
      let _ ← readExact 4
      let crc ← readExact 4
      pure (ofLe count, ofLe crc)

/-- The length and the bytes of a text. -/
def readText : Reader IoError Address := do
  let length ← readHashed 2
  let bytes ← readHashed (ofLe length)
  match String.fromUTF8? ⟨bytes.toArray⟩ with
  | some address => pure address
  | none => Reader.fail .InvalidUtf8

def readAddress : Reader IoError (Option Address) := do
  let hasAddress ← readHashed 1
  if hasAddress = [1] then
    let address ← readText
    pure (some address)
  else pure none

def readEntry : Reader IoError Entry := do
  let txid ← readHashed 32
  let vout ← readHashed 4
  let outputIndex ← readHashed 4
  let amount ← readHashed 8
  let scriptType ← readHashed 1
  let address ← readAddress
  pure (⟨.ofNat 256 (ofLe txid), ofLe vout⟩,
    ⟨ofLe outputIndex, .ofNat (ofLe amount), .ofByte (.ofNat (ofLe scriptType)), address⟩)

/-- The entries of a file and the checksum its header promises. -/
def readFile : Reader IoError (List Entry × ℕ) := do
  let (count, crc) ← readHeader
  let entries ← readEntry.times count
  pure (entries, crc)

/-- The first pass: every entry is read and the checksum compared. -/
def decode (crc32 : List UInt8 → UInt32) (file : List UInt8) : Except IoError (List Entry) :=
  match readFile ⟨file, []⟩ with
  | .error e => .error e
  | .ok ((entries, expected), after) =>
    let computed := (crc32 after.hashed).toNat
    if computed ≠ expected then
      .error (.InvalidData (s!"Cache file CRC mismatch: expected {hex8 expected}, " ++
        s!"computed {hex8 computed}. File may be corrupt."))
    else .ok entries

/-- The entries that belong to a shard, in the order of the file. -/
def perShard (entries : List Entry) (s : Fin numShards) : List Entry :=
  entries.filter (shardIndex ·.1 = s)

/-- The second pass: each shard stores its entries from the last to the first. -/
def insertAll (c : UtxoCache) (entries : List Entry) : UtxoCache :=
  { c with shards := fun s => (c.shards s).puts (perShard entries s).reverse }

/-- The number of entries the second pass stores. -/
def loaded (entries : List Entry) : ℕ :=
  ((List.finRange numShards).map fun s => (perShard entries s).length).sum

/-- The entries of a file, if there is one, stored into the cache; the answer is how many there
were. -/
def loadFromFile (crc32 : List UInt8 → UInt32) (c : UtxoCache) (file : Option (List UInt8)) :
    Except IoError ℕ × UtxoCache :=
  match file with
  | none => (.ok 0, c)
  | some bytes =>
    match decode crc32 bytes with
    | .error e => (.error e, c)
    | .ok entries => (.ok (loaded entries), c.insertAll entries)

end UtxoCache

end ChainGraph

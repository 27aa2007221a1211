import ChainGraph.Parser.Block
import ChainGraph.Parser.BlockIndex

/-!
# The single block loader

Loading a block by its height: look up where it is stored, loading a batch of the index first when
the height is not known yet, then read the frame at that place of its file. The files, the bytes
that mark the network and the crate's deserializer are the loader's surroundings.
-/

namespace ChainGraph

open Foundation

inductive LoaderError where
  | IndexError (e : ChainGraph.IndexError)
  | Io (message : String)
  | ParseError (message : String)
  | InvalidFile (message : String)
  | BlockNotFound (height : ℕ)
deriving DecidableEq, Repr

/-- Where a block is stored. -/
structure BlockLocation where
  fileNumber : ℕ
  fileOffset : UInt64
  hash : String
deriving DecidableEq, Repr

def BlockLocation.ofEntry (entry : BlockIndexEntry) : BlockLocation :=
  ⟨entry.fileNumber, entry.fileOffset, entry.hash⟩

/-- A loader: the locations it knows, and what surrounds it. -/
structure SingleBlockLoader where
  blocksDir : String
  /-- The four bytes in front of every block of the network. -/
  magic : List UInt8
  /-- The contents of the file at a path, if it exists. -/
  files : String → Option (List UInt8)
  /-- `bitcoin::consensus::deserialize`. -/
  deserialize : List UInt8 → Except String Block
  reader : IndexDb
  blockIndex : AList fun _ : ℕ => BlockLocation

namespace SingleBlockLoader

/-- `INDEX_BATCH_SIZE`. -/
def indexBatchSize : ℕ := 500

/-- The last height of the batch loaded for a height. -/
def batchEnd (startHeight : ℕ) : ℕ := asU32 (asU32 (startHeight + indexBatchSize) + (2 ^ 32 - 1))

/-- The loader with the locations of a batch of the index. -/
def withBatch (l : SingleBlockLoader) (batch : BlockIndex.Batch) : SingleBlockLoader :=
  { l with blockIndex :=
      batch.entries.foldl (fun known e => known.insert e.1 (.ofEntry e.2)) l.blockIndex }

/-- The loader with the locations of a range of heights. -/
def preloadRange (l : SingleBlockLoader) (startHeight endHeight : ℕ) :
    Checked LoaderError SingleBlockLoader := do
  let batch ← (BlockIndex.loadBatchIndex l.reader startHeight endHeight).mapErr .IndexError
  pure (l.withBatch batch)

def preloadBatch (l : SingleBlockLoader) (startHeight : ℕ) :
    Checked LoaderError SingleBlockLoader :=
  l.preloadRange startHeight (batchEnd startHeight)

def preloadFullRange (l : SingleBlockLoader) (startHeight endHeight : ℕ) :
    Checked LoaderError SingleBlockLoader :=
  l.preloadRange startHeight endHeight

def ensureLoaded (l : SingleBlockLoader) (height : ℕ) : Checked LoaderError SingleBlockLoader :=
  if (l.blockIndex.lookup height).isSome then pure l else l.preloadBatch height

/-- `format!("blk{:05}.dat", n)`. -/
def blkFileName (n : ℕ) : String := "blk" ++ ((toString n).leftpad 5 '0') ++ ".dat"

/-- `Read::read_exact` for `n` bytes: the bytes and what is left. -/
def readExact (n : ℕ) (data : List UInt8) : Checked LoaderError (List UInt8 × List UInt8) :=
  if n ≤ data.length then .ok (data.splitAt n)
  else .error (.returned (.Io "failed to fill whole buffer"))

/-- `u32::from_le_bytes`. -/
def u32OfLe (bytes : List UInt8) : ℕ := bytes.foldr (fun b n => b.toNat + 256 * n) 0

/-- The block framed at an offset of a file: the network's magic, the size of the block, the
block. The index holds the offset of the block itself. -/
def readFrame (l : SingleBlockLoader) (height : ℕ) (fileOffset : UInt64) (file : List UInt8) :
    Checked LoaderError Block := do
  let (magic, rest) ← readExact 4 (file.drop (fileOffset.toNat - 8))
  if magic ≠ l.magic then
    .error (.returned (.ParseError <|
      s!"Invalid magic bytes at height {height}: expected {l.magic}, got {magic}"))
  else
    let (sizeBytes, rest) ← readExact 4 rest
    let (blockData, _) ← readExact (u32OfLe sizeBytes) rest
    match l.deserialize blockData with
    | .ok block => pure block
    | .error e => .error (.returned (.ParseError s!"Block deserialization failed: {e}"))

/-- The block at a known location, read from its file. -/
def readLocated (l : SingleBlockLoader) (height : ℕ) (location : BlockLocation) :
    Checked LoaderError LocatedBlock :=
  let fileName := blkFileName location.fileNumber
  let filePath := s!"{l.blocksDir}/{fileName}"
  match l.files filePath with
  | none => .error (.returned (.InvalidFile s!"File not found: {filePath}"))
  | some file => do
    let block ← l.readFrame height location.fileOffset file
    pure ⟨height, block, fileName⟩

/-- The block at a height, if the index knows one, and the loader with what it has looked up. -/
def loadBlock (l : SingleBlockLoader) (height : ℕ) :
    Checked LoaderError (Option LocatedBlock × SingleBlockLoader) := do
  let l ← l.ensureLoaded height
  match l.blockIndex.lookup height with
  | none => pure (none, l)
  | some location =>
    let data ← l.readLocated height location
    pure (some data, l)

end SingleBlockLoader

end ChainGraph

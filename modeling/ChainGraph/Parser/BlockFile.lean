import ChainGraph.Foundation.Bytes
import ChainGraph.Parser.Address

/-!
# Block files

A `.blk` file is a sequence of records, each the network's magic bytes, the size of a block and the
block, and zeros after the last one. `BlockFileReader` reads the records one after the other, and
any of them at its offset.

The mapped file is its bytes, and the crate's deserializer is a parameter. The length of a mapping
is below `2 ^ 63`, so the sums of offsets, all taken behind a comparison with it, do not overflow.
-/

namespace ChainGraph

open Foundation

/-- Errors that can occur during block file parsing. -/
inductive ParseError where
  | Io (message : String)
  | InvalidMagic (expected got : ℕ)
  | UnsupportedNetwork
  | Deserialize (message : String)
  | InvalidBlockSize (size : ℕ)
deriving DecidableEq, Repr

def magicMainnet : List UInt8 := [0xF9, 0xBE, 0xB4, 0xD9]

def magicTestnet : List UInt8 := [0x0B, 0x11, 0x09, 0x07]

def magicRegtest : List UInt8 := [0xFA, 0xBF, 0xB5, 0xDA]

/-- The magic bytes of a network that has block files here. -/
def magicOf : Network → Except ParseError (List UInt8)
  | .Bitcoin => .ok magicMainnet
  | .Testnet => .ok magicTestnet
  | .Regtest => .ok magicRegtest
  | .Signet => .error .UnsupportedNetwork

/-- The largest size a record may name. -/
def maxBlockSize : ℕ := 4000000

/-- Streaming reader for block files. -/
structure BlockFileReader where
  mmap : List UInt8
  cursor : ℕ
  filePath : String
  magicBytes : List UInt8
  blocksRead : ℕ
deriving DecidableEq, Repr

namespace BlockFileReader

/-- `new`, for a file that could be opened and mapped. -/
def new (path : String) (mmap : List UInt8) (network : Network) :
    Except ParseError BlockFileReader := do
  let magicBytes ← magicOf network
  .ok ⟨mmap, 0, path, magicBytes, 0⟩

/-- `&self.mmap[start..start + n]`. -/
def bytesAt (r : BlockFileReader) (start n : ℕ) : List UInt8 := (r.mmap.drop start).take n

/-- The error of a record cut short. -/
def cutShort : ParseError := .Io "File ended before block data complete"

variable (deserialize : List UInt8 → Except String Block)

/-- Read next block from file. A record that is refused leaves the cursor behind its header. -/
def nextBlock (r : BlockFileReader) : Except ParseError (Option Block) × BlockFileReader :=
  if r.cursor ≥ r.mmap.length then (.ok none, r)
  else if r.cursor + 8 > r.mmap.length then (.ok none, r)
  else if r.bytesAt r.cursor 4 ≠ r.magicBytes then
    if r.bytesAt r.cursor 4 = [0, 0, 0, 0] then (.ok none, r)
    else (.error (.InvalidMagic (ofLe r.magicBytes) (ofLe (r.bytesAt r.cursor 4))), r)
  else
    let size := ofLe (r.bytesAt (r.cursor + 4) 4)
    let r := { r with cursor := r.cursor + 8 }
    if size = 0 ∨ size > maxBlockSize then (.error (.InvalidBlockSize size), r)
    else if r.cursor + size > r.mmap.length then (.error cutShort, r)
    else
      match deserialize (r.bytesAt r.cursor size) with
      | .error e => (.error (.Deserialize e), r)
      | .ok block =>
        (.ok (some block), { r with cursor := r.cursor + size, blocksRead := r.blocksRead + 1 })

/-- Read block at specific file offset. Unlike the sequential read it takes zeros for a wrong
magic. -/
def readBlockAt (r : BlockFileReader) (offset : ℕ) : Except ParseError (Option Block) :=
  if offset ≥ r.mmap.length then .ok none
  else if offset + 8 > r.mmap.length then .ok none
  else if r.bytesAt offset 4 ≠ r.magicBytes then
    .error (.InvalidMagic (ofLe r.magicBytes) (ofLe (r.bytesAt offset 4)))
  else
    let size := ofLe (r.bytesAt (offset + 4) 4)
    if size = 0 ∨ size > maxBlockSize then .error (.InvalidBlockSize size)
    else if offset + 8 + size > r.mmap.length then .error cutShort
    else
      match deserialize (r.bytesAt (offset + 8) size) with
      | .error e => .error (.Deserialize e)
      | .ok block => .ok (some block)

end BlockFileReader

end ChainGraph

import ChainGraph.Parser.BlockFile

/-!
# Reading a block file back

A file of framed blocks, read through any sequence of sequential and random accesses: the sequential
reads deliver the blocks in order and then nothing, each random read delivers the block of its
record, and neither disturbs the other.
-/

namespace ChainGraph

open Foundation

section Format

variable (magic : List UInt8) (serialize : Block → List UInt8)

/-- The record of a block: magic, size, block. -/
def record (b : Block) : List UInt8 :=
  magic ++ (leBytes 4 (serialize b).length ++ serialize b)

/-- A block file: the records of its blocks, and what follows the last. -/
def fileOf (blocks : List Block) (trailer : List UInt8) : List UInt8 :=
  blocks.flatMap (record magic serialize) ++ trailer

/-- The offset of a record. -/
def offsetOf (blocks : List Block) (i : ℕ) : ℕ :=
  ((blocks.take i).flatMap (record magic serialize)).length

end Format

/-- What may follow the last record: zeros, or fewer bytes than a header has. -/
def Trailer (trailer : List UInt8) : Prop := (∀ b ∈ trailer, b = 0) ∨ trailer.length < 8

/-- The block is read back from its bytes, and their number is one a record may name. -/
structure Framed (deserialize : List UInt8 → Except String Block)
    (serialize : Block → List UInt8) (b : Block) : Prop where
  inverse : deserialize (serialize b) = .ok b
  pos : 0 < (serialize b).length
  small : (serialize b).length ≤ maxBlockSize

/-- A read: the next block, or the record with a number. -/
inductive Access where
  | next
  | record (i : ℕ)
deriving DecidableEq, Repr

namespace BlockFileReader

variable (deserialize : List UInt8 → Except String Block)

/-- The answers to reads, where the records are at these offsets, and the reader after them. -/
def serve (offset : ℕ → ℕ) : List Access → BlockFileReader →
    List (Except ParseError (Option Block)) × BlockFileReader
  | [], r => ([], r)
  | .next :: rest, r =>
    let (answer, r) := r.nextBlock deserialize
    let (answers, r) := serve offset rest r
    (answer :: answers, r)
  | .record i :: rest, r =>
    let (answers, r') := serve offset rest r
    (r.readBlockAt deserialize (offset i) :: answers, r')

end BlockFileReader

/-- The answers there should be, `n` blocks having been read. -/
def answersFrom (blocks : List Block) : ℕ → List Access →
    List (Except ParseError (Option Block))
  | _, [] => []
  | n, .next :: rest => .ok blocks[n]? :: answersFrom blocks (n + 1) rest
  | n, .record i :: rest => .ok blocks[i]? :: answersFrom blocks n rest

/-! ## One record -/

section Record

variable {deserialize : List UInt8 → Except String Block} {serialize : Block → List UInt8}
  {magic rest : List UInt8} {b : Block} {r : BlockFileReader} {offset : ℕ}

/-- The parts of a record that begins at an offset. -/
theorem bytesAt_record (four : magic.length = 4)
    (there : r.mmap.drop offset = record magic serialize b ++ rest) :
    r.bytesAt offset 4 = magic ∧
      r.bytesAt (offset + 4) 4 = leBytes 4 (serialize b).length ∧
      r.bytesAt (offset + 8) (serialize b).length = serialize b ∧
      offset + 8 + (serialize b).length + rest.length = r.mmap.length := by
  unfold record at there
  have second : r.mmap.drop (offset + 4) =
      leBytes 4 (serialize b).length ++ (serialize b ++ rest) := by
    rw [← List.drop_drop, there, List.append_assoc, List.drop_left' four, List.append_assoc]
  have third : r.mmap.drop (offset + 8) = serialize b ++ rest := by
    have eight : offset + 8 = offset + 4 + 4 := by omega
    rw [eight, ← List.drop_drop, second, List.drop_left' (length_leBytes ..)]
  refine ⟨?_, ?_, ?_, ?_⟩
  · rw [BlockFileReader.bytesAt, there, List.append_assoc, List.take_left' four]
  · rw [BlockFileReader.bytesAt, second, List.take_left' (length_leBytes ..)]
  · rw [BlockFileReader.bytesAt, third, List.take_left]
  · have size := congrArg List.length there
    simp only [List.length_drop, List.length_append, length_leBytes, four] at size
    omega

/-- A record's size is read back. -/
theorem ofLe_size (framed : Framed deserialize serialize b) :
    ofLe (leBytes 4 (serialize b).length) = (serialize b).length := by
  apply ofLe_leBytes_of_lt
  have small := framed.small
  unfold maxBlockSize at small
  omega

/-- **Random access.** The block of the record at an offset. -/
theorem readBlockAt_record (four : magic.length = 4) (same : r.magicBytes = magic)
    (framed : Framed deserialize serialize b)
    (there : r.mmap.drop offset = record magic serialize b ++ rest) :
    r.readBlockAt deserialize offset = .ok (some b) := by
  obtain ⟨first, second, third, size⟩ := bytesAt_record four there
  have pos := framed.pos
  have small := framed.small
  unfold BlockFileReader.readBlockAt
  rw [if_neg (by omega), if_neg (by omega), first, same, if_neg (fun differ => differ rfl), second,
    ofLe_size framed]
  dsimp only
  rw [if_neg (by omega), if_neg (by omega), third, framed.inverse]

/-- **Sequential access.** The block of the record at the cursor, which moves behind it. -/
theorem nextBlock_record (four : magic.length = 4) (same : r.magicBytes = magic)
    (framed : Framed deserialize serialize b)
    (there : r.mmap.drop r.cursor = record magic serialize b ++ rest) :
    r.nextBlock deserialize = (.ok (some b),
      { r with
        cursor := r.cursor + (record magic serialize b).length
        blocksRead := r.blocksRead + 1 }) := by
  obtain ⟨first, second, third, size⟩ := bytesAt_record four there
  have pos := framed.pos
  have small := framed.small
  have whole : (record magic serialize b).length = 8 + (serialize b).length := by
    unfold record
    rw [List.length_append, List.length_append, length_leBytes, four]
    omega
  subst same
  unfold BlockFileReader.nextBlock
  rw [if_neg (by omega), if_neg (by omega), first, if_neg (fun differ => differ rfl), second,
    ofLe_size framed]
  dsimp only
  have body : BlockFileReader.bytesAt { r with cursor := r.cursor + 8 } (r.cursor + 8)
      (serialize b).length = serialize b := third
  rw [if_neg (by omega), if_neg (by omega), body, framed.inverse, whole, ← Nat.add_assoc]

/-- **The end.** Behind the last record there is no block, and nothing moves. -/
theorem nextBlock_trailer {trailer : List UInt8}
    (visible : magic ≠ [0, 0, 0, 0]) (same : r.magicBytes = magic) (ends : Trailer trailer)
    (there : r.mmap.drop r.cursor = trailer) : r.nextBlock deserialize = (.ok none, r) := by
  have size := congrArg List.length there
  rw [List.length_drop] at size
  unfold BlockFileReader.nextBlock
  by_cases past : r.cursor ≥ r.mmap.length
  · rw [if_pos past]
  · rw [if_neg past]
    by_cases short : r.cursor + 8 > r.mmap.length
    · rw [if_pos short]
    · have zeros : r.bytesAt r.cursor 4 = [0, 0, 0, 0] := by
        rcases ends with zero | few
        · unfold BlockFileReader.bytesAt
          rw [there]
          have all : trailer.take 4 = List.replicate 4 0 := by
            refine List.eq_replicate_iff.mpr ⟨?_, fun b mem => zero b (List.mem_of_mem_take mem)⟩
            rw [List.length_take]
            omega
          exact all
        · omega
      rw [if_neg short, zeros, same, if_pos visible.symm, if_pos rfl]

end Record

/-! ## The whole file -/

section File

variable {deserialize : List UInt8 → Except String Block} {serialize : Block → List UInt8}
  {magic trailer : List UInt8} {blocks : List Block} {r : BlockFileReader} {n i : ℕ} {b : Block}

variable (magic serialize trailer) in
/-- What is in the file at the offset of a record. -/
theorem drop_offsetOf (at_i : blocks[i]? = some b) :
    (fileOf magic serialize blocks trailer).drop (offsetOf magic serialize blocks i) =
      record magic serialize b ++
        fileOf magic serialize (blocks.drop (i + 1)) trailer := by
  have parts : blocks = blocks.take i ++ b :: blocks.drop (i + 1) := by
    obtain ⟨lt, rfl⟩ := List.getElem?_eq_some_iff.mp at_i
    rw [← List.drop_eq_getElem_cons lt, List.take_append_drop]
  have whole : fileOf magic serialize blocks trailer =
      (blocks.take i).flatMap (record magic serialize) ++
        (record magic serialize b ++ fileOf magic serialize (blocks.drop (i + 1)) trailer) := by
    conv_lhs => rw [parts]
    simp only [fileOf, List.flatMap_append, List.flatMap_cons, List.append_assoc]
  rw [whole]
  exact List.drop_left

/-- The offset behind a record is that of the next. -/
theorem offsetOf_succ (at_i : blocks[i]? = some b) :
    offsetOf magic serialize blocks (i + 1) =
      offsetOf magic serialize blocks i + (record magic serialize b).length := by
  unfold offsetOf
  rw [List.take_add_one, at_i, Option.toList_some, List.flatMap_append, List.length_append,
    List.flatMap_singleton]

/-- The reader after `n` sequential reads of a file. -/
structure After (magic : List UInt8) (serialize : Block → List UInt8) (blocks : List Block)
    (trailer : List UInt8) (n : ℕ) (r : BlockFileReader) : Prop where
  mmap : r.mmap = fileOf magic serialize blocks trailer
  magicBytes : r.magicBytes = magic
  cursor : r.cursor = offsetOf magic serialize blocks n
  blocksRead : r.blocksRead = min n blocks.length

variable (four : magic.length = 4) (framed : ∀ b ∈ blocks, Framed deserialize serialize b)
include four framed

/-- A sequential read delivers the next block, or nothing after the last. -/
theorem After.next (visible : magic ≠ [0, 0, 0, 0]) (ends : Trailer trailer)
    (h : After magic serialize blocks trailer n r) :
    (r.nextBlock deserialize).1 = .ok blocks[n]? ∧
      After magic serialize blocks trailer (n + 1) (r.nextBlock deserialize).2 := by
  cases at_n : blocks[n]? with
  | some b =>
    have there := drop_offsetOf serialize magic trailer at_n
    rw [← h.mmap, ← h.cursor] at there
    obtain ⟨lt, same⟩ := List.getElem?_eq_some_iff.mp at_n
    have mem : b ∈ blocks := same ▸ List.getElem_mem lt
    rw [nextBlock_record four h.magicBytes (framed b mem) there]
    refine ⟨rfl, h.mmap, h.magicBytes, ?_, ?_⟩
    · rw [offsetOf_succ at_n, ← h.cursor]
    · show r.blocksRead + 1 = _
      rw [h.blocksRead]
      omega
  | none =>
    have past : blocks.length ≤ n := List.getElem?_eq_none_iff.mp at_n
    have all (m : ℕ) (le : blocks.length ≤ m) : offsetOf magic serialize blocks m =
        (blocks.flatMap (record magic serialize)).length := by
      rw [offsetOf, List.take_of_length_le le]
    have there : r.mmap.drop r.cursor = trailer := by
      rw [h.mmap, h.cursor, all n past]
      exact List.drop_left
    rw [nextBlock_trailer visible h.magicBytes ends there]
    refine ⟨rfl, h.mmap, h.magicBytes, ?_, ?_⟩
    · rw [h.cursor, all n past, all (n + 1) (by omega)]
    · rw [h.blocksRead]
      omega

/-- A random read delivers the block of its record, wherever the cursor is. -/
theorem After.record (h : After magic serialize blocks trailer n r) (inside : i < blocks.length) :
    r.readBlockAt deserialize (offsetOf magic serialize blocks i) = .ok blocks[i]? := by
  have at_i : blocks[i]? = some blocks[i] := List.getElem?_eq_getElem inside
  have there := drop_offsetOf serialize magic trailer at_i
  rw [← h.mmap] at there
  rw [readBlockAt_record four h.magicBytes (framed _ (List.getElem_mem inside)) there, at_i]

/-- Any sequence of reads. -/
theorem After.serve (visible : magic ≠ [0, 0, 0, 0]) (ends : Trailer trailer)
    (calls : List Access) (inside : ∀ i, Access.record i ∈ calls → i < blocks.length)
    (h : After magic serialize blocks trailer n r) :
    (r.serve deserialize (offsetOf magic serialize blocks) calls).1 = answersFrom blocks n calls ∧
      After magic serialize blocks trailer (n + calls.count .next)
        (r.serve deserialize (offsetOf magic serialize blocks) calls).2 := by
  induction calls generalizing n r with
  | nil => exact ⟨rfl, h⟩
  | cons call rest ih =>
    have later : ∀ i, Access.record i ∈ rest → i < blocks.length :=
      fun i mem => inside i (List.mem_cons_of_mem call mem)
    cases call with
    | next =>
      obtain ⟨answer, after⟩ := h.next four framed visible ends
      obtain ⟨answers, ended⟩ := ih later after
      refine ⟨congrArg₂ List.cons answer answers, ?_⟩
      rw [List.count_cons_self, Nat.add_comm (rest.count _), ← Nat.add_assoc]
      exact ended
    | record i =>
      obtain ⟨answers, ended⟩ := ih later h
      have answer := h.record four framed (inside i List.mem_cons_self)
      refine ⟨congrArg₂ List.cons answer answers, ?_⟩
      rw [List.count_cons_of_ne (fun same => by cases same)]
      exact ended

end File

/-- The magic bytes of a network are four, and not the zeros behind the last record. -/
theorem magicOf_eq_ok {network : Network} {magic : List UInt8}
    (named : magicOf network = .ok magic) :
    magic.length = 4 ∧ magic ≠ [0, 0, 0, 0] := by
  cases network with
  | Signet => cases named
  | Bitcoin | Testnet | Regtest =>
    cases named
    exact ⟨rfl, by decide⟩

/-- **Block files.** Whatever sequence of reads is made, the sequential ones deliver the blocks in
order and then nothing, and a random one delivers the block of its record; the count is that of the
blocks delivered in order. -/
theorem records_read_back (deserialize : List UInt8 → Except String Block)
    (serialize : Block → List UInt8) (path : String) (network : Network) (magic : List UInt8)
    (blocks : List Block) (trailer : List UInt8) (calls : List Access)
    (named : magicOf network = .ok magic)
    (framed : ∀ b ∈ blocks, Framed deserialize serialize b) (ends : Trailer trailer)
    (inside : ∀ i, Access.record i ∈ calls → i < blocks.length) :
    ∃ r, BlockFileReader.new path (fileOf magic serialize blocks trailer) network = .ok r ∧
      (r.serve deserialize (offsetOf magic serialize blocks) calls).1 =
        answersFrom blocks 0 calls ∧
      (r.serve deserialize (offsetOf magic serialize blocks) calls).2.blocksRead =
        min (calls.count .next) blocks.length := by
  obtain ⟨four, visible⟩ := magicOf_eq_ok named
  refine ⟨⟨fileOf magic serialize blocks trailer, 0, path, magic, 0⟩, ?_, ?_⟩
  · unfold BlockFileReader.new
    rw [named]
    rfl
  · have start : After magic serialize blocks trailer 0
        ⟨fileOf magic serialize blocks trailer, 0, path, magic, 0⟩ :=
      ⟨rfl, rfl, rfl, (Nat.zero_min _).symm⟩
    obtain ⟨answers, ended⟩ := start.serve four framed visible ends calls inside
    refine ⟨answers, ?_⟩
    rw [ended.blocksRead, Nat.zero_add]

namespace Sample

/-- Bytes in rows of 32, and the last row of some size. -/
def bytesOf (rows : List ℕ) (size last : ℕ) : List UInt8 :=
  (rows.flatMap fun row => (leBytes 32 row).reverse) ++ (leBytes size last).reverse

def genesisBytes : List UInt8 := bytesOf
  [0x0100000000000000000000000000000000000000000000000000000000000000,
    0x000000003ba3edfd7a7b12b27ac72c3e67768f617fc81bc3888a51323a9fb8aa,
    0x4b1e5e4a29ab5f49ffff001d1dac2b7c01010000000100000000000000000000,
    0x00000000000000000000000000000000000000000000ffffffff4d04ffff001d,
    0x0104455468652054696d65732030332f4a616e2f32303039204368616e63656c,
    0x6c6f72206f6e206272696e6b206f66207365636f6e64206261696c6f75742066,
    0x6f722062616e6b73ffffffff0100f2052a01000000434104678afdb0fe554827,
    0x1967f1a67130b7105cd6a828e03909a67962e0ea1f61deb649f6bc3f4cef38c4]
  29 0xf35504e51ec112de5c384df7ba0b8d578a4c702b6bf11d5fac00000000

def genesisCoinbase : Transaction where
  txid := 0x4a5e1e4baab89f3a32518a88c31bc87f618f76673e2cc77ab2127b7afdeda33b
  version := 1
  lockTime := 0
  input := [⟨⟨0, maxVout⟩, (genesisBytes.drop 123).take 77, 0xffffffff, []⟩]
  output := [⟨5000000000, (genesisBytes.drop 214).take 67⟩]
  totalSize := 204
  vsize := 204
  weight := 816

def genesis : Block where
  blockHash := 0x000000000019d6689c085ae165831e934ff763ae46a2a6c172b3f1b60a8ce26f
  header :=
    { version := 1
      prevBlockhash := 0
      merkleRoot := 0x4a5e1e4baab89f3a32518a88c31bc87f618f76673e2cc77ab2127b7afdeda33b
      time := 1231006505
      bits := 0x1d00ffff
      nonce := 2083236893 }
  txdata := [genesisCoinbase]
  totalSize := 285
  weight := 1140

def blockOneBytes : List UInt8 := bytesOf
  [0x010000006fe28c0ab6f1b372c1a6a246ae63f74f931e8365e15a089c68d61900,
    0x00000000982051fd1e4ba744bbbe680e1fee14677ba1a3c3540bf7b1cdb606e8,
    0x57233e0e61bc6649ffff001d01e3629901010000000100000000000000000000,
    0x00000000000000000000000000000000000000000000ffffffff0704ffff001d,
    0x0104ffffffff0100f2052a0100000043410496b538e853519c726a2c91e61ec1,
    0x1600ae1390813a627c66fb8be7947be63c52da7589379515d4e0a604f8141781]
  23 0xe62294721166bf621e73a82cbf2342c858eeac00000000

def blockTwoBytes : List UInt8 := bytesOf
  [0x010000004860eb18bf1b1620e37e9490fc8a427514416fd75159ab86688e9a83,
    0x00000000d5fdcc541e25de1c7a5addedf24858b8bb665c9f36ef744ee42c3160,
    0x22c90f9bb0bc6649ffff001d08d2bd6101010000000100000000000000000000,
    0x00000000000000000000000000000000000000000000ffffffff0704ffff001d,
    0x010bffffffff0100f2052a010000004341047211a824f55b505228e4c3d5194c,
    0x1fcfaa15a456abdf37f9b9d97a4040afc073dee6c89064984f03385237d92167]
  23 0xc13e236446b417ab79a0fcae412ae3316b77ac00000000

/-- The coinbase of a block that has no other transaction. -/
def earlyCoinbase (bytes : List UInt8) (txid : Txid) : Transaction where
  txid := txid
  version := 1
  lockTime := 0
  input := [⟨⟨0, maxVout⟩, (bytes.drop 123).take 7, 0xffffffff, []⟩]
  output := [⟨5000000000, (bytes.drop 144).take 67⟩]
  totalSize := 134
  vsize := 134
  weight := 536

def earlyBlock (bytes : List UInt8) (hash prev root time nonce : ℕ) : Block where
  blockHash := hash
  header :=
    { version := 1
      prevBlockhash := prev
      merkleRoot := root
      time := time
      bits := 0x1d00ffff
      nonce := nonce }
  txdata := [earlyCoinbase bytes root]
  totalSize := 215
  weight := 860

def blockOne : Block := earlyBlock blockOneBytes
  0x00000000839a8e6886ab5951d76f411475428afc90947ee320161bbf18eb6048
  0x000000000019d6689c085ae165831e934ff763ae46a2a6c172b3f1b60a8ce26f
  0x0e3e2357e806b6cdb1f70b54c3a3a17b6714ee1f0e68bebb44a74b1efd512098 1231469665 2573394689

def blockTwo : Block := earlyBlock blockTwoBytes
  0x000000006a625f06636b8bb6ac7b960a8d03705d1ace08b1a19da3fdcc99ddbd
  0x00000000839a8e6886ab5951d76f411475428afc90947ee320161bbf18eb6048
  0x9b0fc92260312ce44e74ef369f5c66bbb85848f2eddd5a7a1cde251e54ccfdd5 1231469744 1639830024

/-- The first blocks of the main chain, with their bytes. -/
def mainBlocks : List (Block × List UInt8) :=
  [(genesis, genesisBytes), (blockOne, blockOneBytes), (blockTwo, blockTwoBytes)]

def serializeMain (b : Block) : List UInt8 :=
  ((mainBlocks.find? (·.1.blockHash = b.blockHash)).map (·.2)).getD []

/-- The deserializer, as far as these blocks go. -/
def deserializeMain (bytes : List UInt8) : Except String Block :=
  match mainBlocks.find? (·.2 = bytes) with
  | some x => .ok x.1
  | none => .error "unexpected end of file"

theorem framed_mainBlocks : ∀ b ∈ mainBlocks.map Prod.fst,
    Framed deserializeMain serializeMain b := by
  intro b mem
  have inverse : ∀ b ∈ mainBlocks.map Prod.fst, deserializeMain (serializeMain b) = .ok b := by
    decide +kernel
  have size : ∀ b ∈ mainBlocks.map Prod.fst,
      0 < (serializeMain b).length ∧ (serializeMain b).length ≤ maxBlockSize := by
    decide +kernel
  exact ⟨inverse b mem, (size b mem).1, (size b mem).2⟩

end Sample

/-- Three blocks behind their headers, and zeros: read in order, the second read again at its offset
in between, and the end. -/
theorem records_read_back_sample : ∃ r,
    BlockFileReader.new "blk00000.dat" (fileOf magicMainnet Sample.serializeMain
      [Sample.genesis, Sample.blockOne, Sample.blockTwo] (List.replicate 16 0)) .Bitcoin =
        .ok r ∧
    (r.serve Sample.deserializeMain (offsetOf magicMainnet Sample.serializeMain
      [Sample.genesis, Sample.blockOne, Sample.blockTwo])
      [.next, .record 1, .next, .next, .next, .record 0]).1 =
        [.ok (some Sample.genesis), .ok (some Sample.blockOne), .ok (some Sample.blockOne),
          .ok (some Sample.blockTwo), .ok none, .ok (some Sample.genesis)] := by
  obtain ⟨r, opened, answers, _⟩ := records_read_back Sample.deserializeMain
    Sample.serializeMain "blk00000.dat" .Bitcoin magicMainnet
    [Sample.genesis, Sample.blockOne, Sample.blockTwo] (List.replicate 16 0)
    [.next, .record 1, .next, .next, .next, .record 0] rfl Sample.framed_mainBlocks
    (Or.inl fun b mem => List.eq_of_mem_replicate mem) (by simp)
  exact ⟨r, opened, answers⟩

/-! ## Failed reads -/

namespace BlockFileReader

variable {deserialize : List UInt8 → Except String Block} {r r' : BlockFileReader} {e : ParseError}

/-- The size that the header at the cursor declares. -/
def declaredSize (r : BlockFileReader) : ℕ := ofLe (r.bytesAt (r.cursor + 4) 4)

/-- The header at the cursor has the magic bytes of the network. -/
def MagicHere (r : BlockFileReader) : Prop := r.bytesAt r.cursor 4 = r.magicBytes

/-- After a read the reader counts no block more, and stands where it stood or past the end that the
record declares. -/
def InStep (r r' : BlockFileReader) : Prop :=
  r'.blocksRead = r.blocksRead ∧
    (r'.cursor = r.cursor ∨ r'.cursor = r.cursor + 8 + r.declaredSize)

/-- A failed read stays at a wrong magic, and stops behind the header of any other record. -/
theorem nextBlock_error (failed : r.nextBlock deserialize = (.error e, r')) :
    ¬ r.MagicHere ∧ r' = r ∨ r.MagicHere ∧ r' = { r with cursor := r.cursor + 8 } := by
  unfold nextBlock at failed
  split at failed
  · cases failed
  split at failed
  · cases failed
  split at failed
  · rename_i wrong
    left
    split at failed
    · cases failed
    · cases failed
      exact ⟨wrong, rfl⟩
  · rename_i right
    rw [not_not] at right
    right
    dsimp only at failed
    split at failed
    · cases failed
      exact ⟨right, rfl⟩
    split at failed
    · cases failed
      exact ⟨right, rfl⟩
    split at failed
    · cases failed
      exact ⟨right, rfl⟩
    · cases failed

/-- **Failed reads.** A read that fails leaves the reader in step iff the magic bytes are wrong or
the record declares no bytes. -/
theorem inStep_iff (failed : r.nextBlock deserialize = (.error e, r')) :
    InStep r r' ↔ ¬ r.MagicHere ∨ r.declaredSize = 0 := by
  unfold InStep
  rcases nextBlock_error failed with ⟨wrong, rfl⟩ | ⟨right, rfl⟩
  · exact iff_of_true ⟨rfl, Or.inl rfl⟩ (Or.inl wrong)
  · constructor
    · rintro ⟨_, same | past⟩
      · have still : r.cursor + 8 = r.cursor := same
        omega
      · have behind : r.cursor + 8 = r.cursor + 8 + r.declaredSize := past
        exact Or.inr (by omega)
    · rintro (wrong | empty)
      · exact absurd right wrong
      · refine ⟨rfl, Or.inr ?_⟩
        rw [empty]

end BlockFileReader

/-- A record that is too large, and in its payload what looks like a header. -/
def Sample.oversized : BlockFileReader where
  mmap := magicMainnet ++ leBytes 4 4000001 ++ (magicMainnet ++ leBytes 4 0)
  cursor := 0
  filePath := "blk00000.dat"
  magicBytes := magicMainnet
  blocksRead := 0

/-- The next read takes bytes of the payload for a header. -/
theorem payload_read_as_header :
    Sample.oversized.nextBlock Sample.deserializeMain =
        (.error (.InvalidBlockSize 4000001), { Sample.oversized with cursor := 8 }) ∧
      ({ Sample.oversized with cursor := 8 }.nextBlock Sample.deserializeMain).1 =
        .error (.InvalidBlockSize 0) ∧
      ¬ BlockFileReader.InStep Sample.oversized { Sample.oversized with cursor := 8 } := by
  refine ⟨rfl, rfl, ?_⟩
  unfold BlockFileReader.InStep
  decide

/-- At a header whose magic is wrong the reader stays. -/
theorem inStep_sample : BlockFileReader.InStep { Sample.oversized with magicBytes := magicTestnet }
    { Sample.oversized with magicBytes := magicTestnet } := by
  have failed : ({ Sample.oversized with magicBytes := magicTestnet } : BlockFileReader).nextBlock
      Sample.deserializeMain =
        (.error (.InvalidMagic (ofLe magicTestnet) (ofLe magicMainnet)),
          { Sample.oversized with magicBytes := magicTestnet }) := rfl
  apply (BlockFileReader.inStep_iff failed).mpr
  left
  unfold BlockFileReader.MagicHere
  decide

end ChainGraph

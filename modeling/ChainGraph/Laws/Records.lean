import ChainGraph.Laws.Index

/-!
# The records of the block index

A record is laid out as Bitcoin Core's `CDiskBlockIndex`: four varints, the file number if the block
has data or undo data, the position of each that it has, and the header. The parser reads two more
varints after the four whatever the status, and keeps a record that has either of the two flags it
tests. A block with data that is not on the valid chain is therefore kept, and so is one on the
valid chain without data, whose file and position are then what its undo position or its header
happen to begin with. Height and file number are cut to 32 bits.
-/

namespace ChainGraph

namespace BlockIndex

open Foundation

/-! ## The layout -/

/-- Status flag of a block whose undo data is stored. -/
def blockHaveUndo : UInt64 := 16

/-- A record as it is written to the index. The file number and the positions are written only if
the status says so. -/
structure DiskBlockIndex where
  version : UInt64
  height : UInt64
  status : UInt64
  txCount : UInt64
  file : UInt64
  dataPos : UInt64
  undoPos : UInt64
  header : List UInt8
  sized : header.length = 80

namespace DiskBlockIndex

variable (r : DiskBlockIndex)

/-- The block has a validity level on the valid chain: one of the levels from 4 up, which are those
with this bit. -/
def OnChain : Prop := r.status &&& blockValidChain ≠ 0

def HasData : Prop := r.status &&& blockHaveData ≠ 0

def HasUndo : Prop := r.status &&& blockHaveUndo ≠ 0

instance : Decidable r.OnChain := inferInstanceAs (Decidable (_ ≠ _))

instance : Decidable r.HasData := inferInstanceAs (Decidable (_ ≠ _))

instance : Decidable r.HasUndo := inferInstanceAs (Decidable (_ ≠ _))

/-- What follows the four numbers that every record has. -/
def location : List UInt8 :=
  (if r.HasData ∨ r.HasUndo then encodeVarint r.file else []) ++
    ((if r.HasData then encodeVarint r.dataPos else []) ++
      ((if r.HasUndo then encodeVarint r.undoPos else []) ++ r.header))

/-- The bytes of a record. -/
def bytes : List UInt8 :=
  encodeVarint r.version ++ (encodeVarint r.height ++ (encodeVarint r.status ++
    (encodeVarint r.txCount ++ r.location)))

/-- The entry of a record whose location is read as a file number and an offset. -/
def entry (hash : String) (file offset : UInt64) : BlockIndexEntry where
  height := asU32 r.height.toNat
  hash
  prevHash := ""
  fileNumber := asU32 file.toNat
  fileOffset := offset
  blockSize := 0
  txCount := asU32 r.txCount.toNat
  status := r.status

end DiskBlockIndex

/-! ## Reading it back -/

section Read

variable {data rest : List UInt8} {cursor k : ℕ} {v : UInt64}

/-- An encoding is no prefix of another one. -/
theorem encodeVarint_append_inj {a b : UInt64} {p q : List UInt8}
    (same : encodeVarint a ++ p = encodeVarint b ++ q) : a = b ∧ p = q := by
  have read := decodeVarint_encodeVarint a p
  rw [same, decodeVarint_encodeVarint b q] at read
  cases read
  exact ⟨rfl, List.append_cancel_left same⟩

/-- A number is read where its encoding is, and the cursor is moved behind it. -/
theorem readVarint_eq_ok (inside : cursor ≤ data.length) :
    readVarint data cursor = .ok (v, k) ↔
      ∃ rest, data.drop cursor = encodeVarint v ++ rest ∧ k = cursor + (encodeVarint v).length := by
  rw [readVarint, Checked.sliceFrom_of_le inside]
  rcases decodeVarint_cases (data.drop cursor) with ⟨w, ⟨rest, shape⟩, read⟩ | ⟨e, refused⟩
  · simp only [bind, Except.bind, read, Checked.mapErr, pure, Except.pure, Except.ok.injEq,
      Prod.mk.injEq]
    constructor
    · intro same
      obtain ⟨rfl, rfl⟩ := same
      exact ⟨rest, shape.symm, rfl⟩
    · intro found
      obtain ⟨other, there, rfl⟩ := found
      obtain ⟨rfl, -⟩ := encodeVarint_append_inj (shape.trans there)
      exact ⟨rfl, rfl⟩
  · simp only [bind, Except.bind, refused, Checked.mapErr]
    constructor
    · intro same
      cases same
    · intro found
      obtain ⟨rest, there, -⟩ := found
      rw [there, decodeVarint_encodeVarint] at refused
      cases refused

/-- A number that is there is read, and what follows it is at the cursor. -/
theorem readVarint_of_drop (there : data.drop cursor = encodeVarint v ++ rest) :
    readVarint data cursor = .ok (v, cursor + (encodeVarint v).length) ∧
      data.drop (cursor + (encodeVarint v).length) = rest := by
  have some : 0 < (encodeVarint v).length := by
    rw [length_encodeVarint]
    omega
  have size := congrArg List.length there
  rw [List.length_drop, List.length_append] at size
  constructor
  · exact (readVarint_eq_ok (by omega)).mpr ⟨rest, there, rfl⟩
  · rw [← List.drop_drop, there, List.drop_left]

/-- The bytes begin with two numbers. -/
def Starts (a b : UInt64) (data : List UInt8) : Prop :=
  encodeVarint a ++ encodeVarint b <+: data

theorem starts_iff {a b : UInt64} {p : List UInt8} :
    Starts a b (encodeVarint v ++ p) ↔ a = v ∧ encodeVarint b <+: p := by
  constructor
  · intro starts
    obtain ⟨rest, shape⟩ := starts
    rw [List.append_assoc] at shape
    obtain ⟨rfl, rfl⟩ := encodeVarint_append_inj shape
    exact ⟨rfl, List.prefix_append _ _⟩
  · intro parts
    obtain ⟨rfl, starts⟩ := parts
    exact (List.prefix_append_right_inj _).mpr starts

theorem prefix_iff {b : UInt64} {p : List UInt8} :
    encodeVarint b <+: encodeVarint v ++ p ↔ b = v := by
  constructor
  · intro starts
    obtain ⟨rest, shape⟩ := starts
    exact (encodeVarint_append_inj shape).1
  · intro same
    rw [same]
    exact List.prefix_append _ _

end Read

/-- **The parser on a record.** It keeps a record with either flag, and takes its location from the
first two numbers after the four. -/
theorem parseBlockRecord_eq_ok (r : DiskBlockIndex) (hash : String) (entry : BlockIndexEntry) :
    parseBlockRecord hash r.bytes = .ok entry ↔
      r.status &&& (blockValidChain ||| blockHaveData) ≠ 0 ∧
        ∃ file offset, Starts file offset r.location ∧ entry = r.entry hash file offset := by
  have start : r.bytes.drop 0 = encodeVarint r.version ++ _ := rfl
  obtain ⟨version, start⟩ := readVarint_of_drop start
  obtain ⟨height, start⟩ := readVarint_of_drop start
  obtain ⟨status, start⟩ := readVarint_of_drop start
  obtain ⟨txCount, start⟩ := readVarint_of_drop start
  have inside := congrArg List.length start
  have sized : 80 ≤ r.location.length := by
    rw [← r.sized, DiskBlockIndex.location, ← List.append_assoc, ← List.append_assoc,
      List.length_append]
    exact Nat.le_add_left _ _
  rw [List.length_drop] at inside
  unfold parseBlockRecord
  rw [version]
  simp only [bind, Except.bind]
  rw [height]
  dsimp only
  rw [status]
  dsimp only
  rw [txCount]
  dsimp only
  generalize 0 + (encodeVarint r.version).length + (encodeVarint r.height).length +
    (encodeVarint r.status).length + (encodeVarint r.txCount).length = cursor at start inside
  by_cases neither : r.status &&& (blockValidChain ||| blockHaveData) = 0
  · rw [if_pos neither]
    constructor
    · intro ok
      cases ok
    · intro flagged
      exact absurd neither flagged.1
  · rw [if_neg neither]
    simp only [neither, ne_eq, not_false_eq_true, true_and]
    constructor
    · intro ok
      obtain ⟨⟨file, next⟩, first, ok⟩ := Checked.bind_eq_ok.mp ok
      obtain ⟨⟨offset, last⟩, second, ok⟩ := Checked.bind_eq_ok.mp ok
      obtain ⟨rest, there, rfl⟩ := (readVarint_eq_ok (by omega)).mp first
      obtain ⟨-, behind⟩ := readVarint_of_drop there
      have within : cursor + (encodeVarint file).length ≤ r.bytes.length := by
        have size := congrArg List.length there
        rw [List.length_drop, List.length_append] at size
        omega
      obtain ⟨rest', there', -⟩ := (readVarint_eq_ok within).mp second
      rw [behind] at there'
      rw [start, there'] at there
      cases ok
      exact ⟨file, offset, ⟨rest', by rw [there, List.append_assoc]⟩, rfl⟩
    · intro found
      obtain ⟨file, offset, ⟨rest, shape⟩, rfl⟩ := found
      rw [← shape, List.append_assoc] at start
      obtain ⟨first, start⟩ := readVarint_of_drop start
      obtain ⟨second, -⟩ := readVarint_of_drop start
      rw [first]
      dsimp only
      rw [second]
      rfl

/-! ## What is returned -/

/-- An entry is returned by one of the three scans. -/
def Returns (db : IndexDb) (entry : BlockIndexEntry) : Prop :=
  (∃ chain, getMainChain db = .ok chain ∧ entry ∈ chain) ∨
    (∃ maxHeight chain, getMainChainUpTo db maxHeight = .ok chain ∧ entry ∈ chain) ∨
    ∃ startHeight endHeight batch, loadBatchIndex db startHeight endHeight = .ok batch ∧
      ∃ height, batch.lookup height = some entry

/-- The record is usable and the entry has its fields: the block is on the valid chain and has its
data, and nothing was cut. -/
structure Usable (r : DiskBlockIndex) (entry : BlockIndexEntry) : Prop where
  onChain : r.OnChain
  hasData : r.HasData
  height : entry.height = r.height.toNat
  file : entry.fileNumber = r.file.toNat
  offset : entry.fileOffset = r.dataPos

/-- Wherever the record is stored under the key of a block, its entry is returned only if it is
usable. -/
def OnlyUsable (r : DiskBlockIndex) : Prop :=
  ∀ (db : IndexDb) (hash : List UInt8), hash.length = 32 → (0x62 :: hash, r.bytes) ∈ db.records →
    ∀ entry, parseBlockRecord (hexEncode hash) r.bytes = .ok entry → Returns db entry →
      Usable r entry

/-- The record has neither flag; or both, and numbers of 32 bits; or no stored data of either kind,
and a header that does not begin with two numbers. -/
def Unmistaken (r : DiskBlockIndex) : Prop :=
  ¬ r.OnChain ∧ ¬ r.HasData ∨
    (r.OnChain ∧ r.HasData ∧ r.height.toNat < 2 ^ 32 ∧ r.file.toNat < 2 ^ 32) ∨
    (¬ r.HasData ∧ ¬ r.HasUndo ∧ ¬ ∃ file offset, Starts file offset r.header)

theorem neither_iff (r : DiskBlockIndex) :
    r.status &&& (blockValidChain ||| blockHaveData) = 0 ↔ ¬ r.OnChain ∧ ¬ r.HasData := by
  have parts : r.status &&& (blockValidChain ||| blockHaveData) =
      r.status &&& blockValidChain ||| r.status &&& blockHaveData := by
    apply UInt64.toNat_inj.mp
    simp only [UInt64.toNat_and, UInt64.toNat_or, Nat.and_or_distrib_left]
  rw [parts, UInt64.or_eq_zero_iff, DiskBlockIndex.OnChain, DiskBlockIndex.HasData, not_not,
    not_not]

/-! ## Which records are kept -/

section Location

variable {r : DiskBlockIndex} {file offset : UInt64}

/-- With data, the two numbers are the file number and the data position. -/
theorem starts_of_data (data : r.HasData) :
    Starts file offset r.location ↔ file = r.file ∧ offset = r.dataPos := by
  rw [DiskBlockIndex.location, if_pos (Or.inl data), if_pos data, starts_iff, prefix_iff]

/-- With undo data only, the second number is the undo position. -/
theorem starts_of_undo (data : ¬ r.HasData) (undo : r.HasUndo) :
    Starts file offset r.location ↔ file = r.file ∧ offset = r.undoPos := by
  rw [DiskBlockIndex.location, if_pos (Or.inr undo), if_neg data, if_pos undo, List.nil_append,
    starts_iff, prefix_iff]

/-- With neither, the two numbers are read off the header. -/
theorem location_of_none (data : ¬ r.HasData) (undo : ¬ r.HasUndo) : r.location = r.header := by
  have none : ¬ (r.HasData ∨ r.HasUndo) := not_or.mpr ⟨data, undo⟩
  rw [DiskBlockIndex.location, if_neg none, if_neg data, if_neg undo]
  rfl

end Location

theorem asU32_eq_iff {n : ℕ} : asU32 n = n ↔ n < 2 ^ 32 := Nat.mod_eq_iff_lt (by decide)

/-- A record that is kept is usable exactly when it has both flags and its numbers fit. -/
theorem usable_iff {r : DiskBlockIndex} {hash : String} {file offset : UInt64}
    (starts : Starts file offset r.location) :
    Usable r (r.entry hash file offset) ↔
      r.OnChain ∧ r.HasData ∧ r.height.toNat < 2 ^ 32 ∧ r.file.toNat < 2 ^ 32 := by
  constructor
  · intro usable
    obtain ⟨rfl, -⟩ := (starts_of_data usable.hasData).mp starts
    exact ⟨usable.onChain, usable.hasData, asU32_eq_iff.mp usable.height,
      asU32_eq_iff.mp usable.file⟩
  · intro both
    obtain ⟨onChain, hasData, height, small⟩ := both
    obtain ⟨rfl, rfl⟩ := (starts_of_data hasData).mp starts
    exact ⟨onChain, hasData, asU32_of_lt height, asU32_of_lt small, rfl⟩

/-- The parser never makes an unusable entry exactly of these records. -/
theorem unmistaken_iff (r : DiskBlockIndex) (hash : String) :
    (∀ entry, parseBlockRecord hash r.bytes = .ok entry → Usable r entry) ↔ Unmistaken r := by
  simp only [parseBlockRecord_eq_ok, ne_eq, neither_iff]
  constructor
  · intro only
    by_cases neither : ¬ r.OnChain ∧ ¬ r.HasData
    · exact Or.inl neither
    have made : ∀ file offset, Starts file offset r.location →
        r.OnChain ∧ r.HasData ∧ r.height.toNat < 2 ^ 32 ∧ r.file.toNat < 2 ^ 32 := by
      intro file offset starts
      exact (usable_iff starts).mp (only _ ⟨neither, file, offset, starts, rfl⟩)
    by_cases data : r.HasData
    · exact Or.inr (Or.inl (made _ _ ((starts_of_data data).mpr ⟨rfl, rfl⟩)))
    by_cases undo : r.HasUndo
    · exact Or.inr (Or.inl (made _ _ ((starts_of_undo data undo).mpr ⟨rfl, rfl⟩)))
    refine Or.inr (Or.inr ⟨data, undo, ?_⟩)
    intro found
    obtain ⟨file, offset, starts⟩ := found
    rw [← location_of_none data undo] at starts
    exact data (made file offset starts).2.1
  · intro unmistaken entry made
    obtain ⟨either, file, offset, starts, rfl⟩ := made
    rcases unmistaken with neither | both | ⟨data, undo, headed⟩
    · exact absurd neither either
    · exact (usable_iff starts).mpr both
    · rw [location_of_none data undo] at starts
      exact absurd ⟨file, offset, starts⟩ headed

/-! ## An index with one record -/

/-- An index whose only record is that of a block. -/
def soleIndex (hash : List UInt8) (r : DiskBlockIndex) : IndexDb where
  records := [(0x62 :: hash, r.bytes)]
  distinct := List.nodup_singleton _

/-- Its entry is the main chain. -/
theorem returns_soleIndex {hash : List UInt8} {r : DiskBlockIndex} {entry : BlockIndexEntry}
    (long : hash.length = 32) (parsed : parseBlockRecord (hexEncode hash) r.bytes = .ok entry) :
    Returns (soleIndex hash r) entry := by
  have kept : accept (0x62 :: hash, r.bytes) = some entry := by
    have key : (0x62 :: hash).length = 33 ∧ (0x62 :: hash).head? = some 0x62 := by
      rw [List.length_cons, long]
      exact ⟨rfl, rfl⟩
    rw [accept, entryOf, if_pos key, List.tail_cons, parsed]
  have only : accepted (soleIndex hash r) = [entry] := by
    rw [accepted, soleIndex, List.filterMap_cons, kept]
    rfl
  refine Or.inl ⟨[entry], getMainChain_eq_ok.mpr ⟨rfl, ?_, ?_, ?_⟩, List.mem_singleton_self _⟩
  · rw [only]
    exact List.cons_ne_nil _ _
  · rw [only, List.mergeSort_singleton]
  · exact List.isChain_singleton _

/-- **Only usable records.** The entry of a record is returned, from whatever index, only if its
block is on the valid chain and has its data, and then with the record's own height, file number and
offset, exactly when the record is not mistaken for such a one. -/
theorem onlyUsable_iff (r : DiskBlockIndex) : OnlyUsable r ↔ Unmistaken r := by
  constructor
  · intro only
    apply (unmistaken_iff r (hexEncode (List.replicate 32 0))).mp
    intro entry parsed
    have long : (List.replicate 32 (0 : UInt8)).length = 32 := List.length_replicate
    exact only _ _ long (List.mem_singleton_self _) entry parsed (returns_soleIndex long parsed)
  · intro unmistaken db hash long stored entry parsed returned
    exact (unmistaken_iff r (hexEncode hash)).mpr unmistaken entry parsed

/-- The first block's record on a node that has pruned its data: it has passed every check and is
stored in no file. -/
def Sample.prunedRecord : DiskBlockIndex where
  version := 259900
  height := 0
  status := 5
  txCount := 1
  file := 0
  dataPos := 0
  undoPos := 0
  header := 1 :: List.replicate 79 0
  sized := rfl

/-- The block is returned with the version in its header for a file number. -/
theorem pruned_returned :
    parseBlockRecord (hexEncode (List.replicate 32 0)) Sample.prunedRecord.bytes =
        .ok (Sample.prunedRecord.entry (hexEncode (List.replicate 32 0)) 1 0) ∧
      ¬ ∀ r, OnlyUsable r := by
  have parsed : ∀ hash, parseBlockRecord hash Sample.prunedRecord.bytes =
      .ok (Sample.prunedRecord.entry hash 1 0) := by
    intro hash
    have data : ¬ Sample.prunedRecord.HasData := by decide
    have undo : ¬ Sample.prunedRecord.HasUndo := by decide
    refine (parseBlockRecord_eq_ok _ _ _).mpr ⟨by decide, 1, 0, ?_, rfl⟩
    rw [location_of_none data undo]
    exact ⟨List.replicate 78 0, by decide +kernel⟩
  refine ⟨parsed _, ?_⟩
  intro every
  have long : (List.replicate 32 (0 : UInt8)).length = 32 := List.length_replicate
  have usable := every Sample.prunedRecord _ _ long (List.mem_singleton_self _) _ (parsed _)
    (returns_soleIndex long (parsed _))
  exact absurd usable.hasData (by decide)

end BlockIndex

end ChainGraph

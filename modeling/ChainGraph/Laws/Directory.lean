import ChainGraph.Laws.BlockFile
import ChainGraph.Laws.Loader

/-!
# A directory read back

What Bitcoin Core writes for a chain: in the index a record for each block under the hash of the
block, beside records of other kinds and of headers without blocks, and in the block files each
block framed by magic and size. A loader gives every block of it back, at its height and with the
name of its file, whatever it was asked before.
-/

namespace ChainGraph

open Foundation BlockIndex

/-! ## The index -/

namespace BlockIndex

variable {r : DiskBlockIndex} {hash : List UInt8}

/-- The keys of blocks. -/
def IsBlockKey (key : List UInt8) : Prop := key.length = 33 ∧ key.head? = some 0x62

theorem isBlockKey_hash (long : hash.length = 32) : IsBlockKey (0x62 :: hash) := by
  simp [IsBlockKey, long]

/-- A record of a block that has both flags. -/
theorem accept_stored (long : hash.length = 32) (onChain : r.OnChain) (data : r.HasData) :
    accept (0x62 :: hash, r.bytes) = some (r.entry (hexEncode hash) r.file r.dataPos) := by
  have flagged : r.status &&& (blockValidChain ||| blockHaveData) ≠ 0 := fun neither =>
    ((neither_iff r).mp neither).1 onChain
  have parsed := (parseBlockRecord_eq_ok r (hexEncode hash) _).mpr
    ⟨flagged, r.file, r.dataPos, (starts_of_data data).mpr ⟨rfl, rfl⟩, rfl⟩
  have key : (0x62 :: hash).length = 33 ∧ (0x62 :: hash).head? = some 0x62 :=
    isBlockKey_hash long
  rw [accept, entryOf, if_pos key, List.tail_cons, parsed]

/-- A record of a header that has neither. -/
theorem accept_header {key : List UInt8} (onChain : ¬ r.OnChain) (data : ¬ r.HasData) :
    accept (key, r.bytes) = none := by
  have refused : ∀ entry, parseBlockRecord (hexEncode key.tail) r.bytes ≠ .ok entry :=
    fun entry parsed =>
      ((parseBlockRecord_eq_ok r _ entry).mp parsed).1 ((neither_iff r).mpr ⟨onChain, data⟩)
  cases found : accept (key, r.bytes) with
  | none => rfl
  | some entry =>
    have ran := entryOf_eq (key, r.bytes)
    rw [found, entryOf] at ran
    split at ran
    · cases parsed : parseBlockRecord (hexEncode key.tail) r.bytes with
      | ok entry' => exact absurd parsed (refused entry')
      | error halt =>
        dsimp only at ran
        rw [parsed] at ran
        cases halt <;> cases ran
    · cases ran

/-- A record of another kind. -/
theorem accept_other {key value : List UInt8} (other : ¬ IsBlockKey key) :
    accept (key, value) = none := by
  have differs : ¬ (key.length = 33 ∧ key.head? = some 0x62) := other
  rw [accept, entryOf, if_neg differs]

end BlockIndex

namespace SingleBlockLoader

/-! ## The block files -/

variable {l : SingleBlockLoader} {serialize : Block → List UInt8} {b : Block}

theorem readExact_append {n : ℕ} {first rest : List UInt8} (size : first.length = n) :
    readExact n (first ++ rest) = .ok (first, rest) := by
  subst size
  simp [readExact]

/-- A frame is read back. -/
theorem readFrame_record {height : ℕ} {offset : UInt64} {file rest : List UInt8}
    (four : l.magic.length = 4) (framed : Framed l.deserialize serialize b)
    (there : file.drop (offset.toNat - 8) = record l.magic serialize b ++ rest) :
    l.readFrame height offset file = .ok b := by
  unfold record at there
  rw [List.append_assoc, List.append_assoc] at there
  unfold readFrame
  rw [there, readExact_append four]
  simp only [bind, Except.bind, ne_eq, not_true_eq_false, if_false]
  rw [readExact_append (length_leBytes 4 _)]
  dsimp only
  rw [show u32OfLe (leBytes 4 (serialize b).length) = (serialize b).length from
    ofLe_size framed, readExact_append rfl]
  dsimp only
  rw [framed.inverse]
  rfl

/-! ## The directory -/

/-- A loader over a directory that holds some blocks from height 0 on: `hash` and `disk` give the
key and the record of each. -/
structure Written (l : SingleBlockLoader) (serialize : Block → List UInt8) (blocks : List Block)
    (hash : ℕ → List UInt8) (disk : ℕ → DiskBlockIndex) : Prop where
  opens : l.reader.fault = none
  fresh : l.blockIndex = ∅
  four : l.magic.length = 4
  few : blocks.length + indexBatchSize ≤ 2 ^ 32
  long : ∀ i, (hash i).length = 32
  indexed : ∀ i < blocks.length, (0x62 :: hash i, (disk i).bytes) ∈ l.reader.records
  others : ∀ record ∈ l.reader.records, IsBlockKey record.1 →
    (∃ i < blocks.length, record = (0x62 :: hash i, (disk i).bytes)) ∨
      ∃ r : DiskBlockIndex, record.2 = r.bytes ∧ ¬ r.OnChain ∧ ¬ r.HasData
  usable : ∀ i < blocks.length, (disk i).OnChain ∧ (disk i).HasData ∧
    (disk i).height.toNat = i ∧ (disk i).file.toNat < 2 ^ 32
  framed : ∀ b ∈ blocks, Framed l.deserialize serialize b
  stored : ∀ i b, blocks[i]? = some b → ∃ file rest,
    l.files s!"{l.blocksDir}/{blkFileName (disk i).file.toNat}" = some file ∧
      file.drop ((disk i).dataPos.toNat - 8) = record l.magic serialize b ++ rest

namespace Written

variable {blocks : List Block} {hash : ℕ → List UInt8} {disk : ℕ → DiskBlockIndex}

/-- The entry of a block. -/
def entryOf (hash : ℕ → List UInt8) (disk : ℕ → DiskBlockIndex) (i : ℕ) : BlockIndexEntry :=
  (disk i).entry (hexEncode (hash i)) (disk i).file (disk i).dataPos

variable (written : l.Written serialize blocks hash disk)

include written

theorem height_entryOf {i : ℕ} (inside : i < blocks.length) : (entryOf hash disk i).height = i := by
  obtain ⟨-, -, height, -⟩ := written.usable i inside
  have few := written.few
  show asU32 (disk i).height.toNat = i
  rw [height, asU32_of_lt (by omega)]

/-- The entries are those of the blocks. -/
theorem mem_accepted {x : BlockIndexEntry} :
    x ∈ accepted l.reader ↔ ∃ i < blocks.length, x = entryOf hash disk i := by
  have kept : ∀ i < blocks.length,
      accept (0x62 :: hash i, (disk i).bytes) = some (entryOf hash disk i) := fun i inside => by
    obtain ⟨onChain, data, -, -⟩ := written.usable i inside
    exact accept_stored (written.long i) onChain data
  constructor
  · intro mem
    obtain ⟨⟨key, value⟩, inDb, found⟩ := List.mem_filterMap.mp mem
    by_cases block : IsBlockKey key
    · rcases written.others _ inDb block with ⟨i, inside, same⟩ | ⟨r, same, onChain, data⟩
      · rw [same, kept i inside] at found
        exact ⟨i, inside, (Option.some.inj found).symm⟩
      · have same : value = r.bytes := same
        rw [same, accept_header onChain data] at found
        cases found
    · rw [accept_other block] at found
      cases found
  · rintro ⟨i, inside, rfl⟩
    exact List.mem_filterMap.mpr ⟨_, written.indexed i inside, kept i inside⟩

theorem opened : Open l.reader where
  opens := written.opens
  low x mem := by
    obtain ⟨i, inside, rfl⟩ := written.mem_accepted.mp mem
    rw [written.height_entryOf inside]
    have few := written.few
    omega

theorem sole : Sole l.reader := by
  intro x hx y hy same
  obtain ⟨i, inside, rfl⟩ := written.mem_accepted.mp hx
  obtain ⟨j, inside', rfl⟩ := written.mem_accepted.mp hy
  rw [written.height_entryOf inside, written.height_entryOf inside'] at same
  rw [same]

/-- What a new loader answers. -/
theorem answer_eq (height : ℕ) : l.answer height =
    .ok (blocks[height]?.map fun b => ⟨height, b, blkFileName (disk height).file.toNat⟩) := by
  unfold answer
  cases found : blocks[height]? with
  | none =>
    have beyond := List.getElem?_eq_none_iff.mp found
    have none : entryFor l.reader height = none := entryFor_eq_none.mpr fun x mem => by
      obtain ⟨i, inside, rfl⟩ := written.mem_accepted.mp mem
      rw [written.height_entryOf inside]
      omega
    rw [none]
    rfl
  | some b =>
    obtain ⟨inside, -⟩ := List.getElem?_eq_some_iff.mp found
    have entry : entryFor l.reader height = some (entryOf hash disk height) := by
      have mem := written.mem_accepted.mpr ⟨height, inside, rfl⟩
      have sole := entryFor_of_sole written.sole mem
      rwa [written.height_entryOf inside] at sole
    obtain ⟨-, -, -, small⟩ := written.usable height inside
    obtain ⟨file, rest, there, frame⟩ := written.stored height b found
    have number : (entryOf hash disk height).fileNumber = (disk height).file.toNat :=
      asU32_of_lt small
    have read : l.readFrame height (disk height).dataPos file = .ok b :=
      readFrame_record written.four (written.framed b (List.mem_of_getElem? found)) frame
    rw [entry]
    simp only [Option.map_some, readKnown, readLocated, BlockLocation.ofEntry, number, there]
    rw [show (entryOf hash disk height).fileOffset = (disk height).dataPos from rfl, read]
    rfl

end Written

/-- **A directory is read back.** Whatever a loader was asked before, it gives the block at a height
as it was written, or none beyond the last. -/
theorem written_read_back (l : SingleBlockLoader) (serialize : Block → List UInt8)
    (blocks : List Block) (hash : ℕ → List UInt8) (disk : ℕ → DiskBlockIndex)
    (written : l.Written serialize blocks hash disk) (requests : List Request) (height : ℕ) :
    (l.after requests).blockAt height =
      .ok (blocks[height]?.map fun b => ⟨height, b, blkFileName (disk height).file.toNat⟩) := by
  have knows := (Knows.fresh written.fresh).after written.opened written.sole requests
  rw [knows.blockAt written.opened written.sole, written.answer_eq]

end SingleBlockLoader

/-! ## Two blocks -/

namespace Sample

theorem written_directory :
    directory.Written byteOf [first.block, second.block] diskHash diskRecord where
  opens := rfl
  fresh := rfl
  four := rfl
  few := by decide
  long i := by simp [diskHash]
  indexed i inside := by
    match i with
    | 0 => exact List.mem_cons_self
    | 1 => exact List.mem_cons_of_mem _ List.mem_cons_self
  others record mem _ := by
    rcases List.mem_pair.mp mem with rfl | rfl
    · exact Or.inl ⟨0, by decide, rfl⟩
    · exact Or.inl ⟨1, by decide, rfl⟩
  usable i inside := by
    match i with
    | 0 => decide
    | 1 => decide
  framed b mem := by
    rcases List.mem_pair.mp mem with rfl | rfl
    · exact ⟨by decide, by decide, by decide⟩
    · exact ⟨by decide, by decide, by decide⟩
  stored i b found := by
    match i with
    | 0 =>
      cases found
      exact ⟨_, [0xF9, 0xBE, 0xB4, 0xD9, 1, 0, 0, 0, 1], rfl, by decide⟩
    | 1 =>
      cases found
      exact ⟨_, [], rfl, by decide⟩

end Sample

namespace SingleBlockLoader

theorem written_read_back_sample :
    (Sample.directory.after [.preloadFullRange 0 1, .loadBlock 1]).blockAt 0 =
      .ok (some Sample.first) :=
  (written_read_back _ _ _ _ _ Sample.written_directory _ 0).trans (by decide +kernel)

end SingleBlockLoader

end ChainGraph

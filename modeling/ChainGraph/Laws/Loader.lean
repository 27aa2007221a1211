import ChainGraph.Laws.Batch
import ChainGraph.Laws.Records
import ChainGraph.Parser.Prewarm

/-!
# What a loader answers

A loader remembers the locations it has looked up, so what it answers could depend on what it was
asked before. Over an index with at most one record at a height it does not: whatever was loaded or
preloaded, a block comes from the one record of its height. With two records at a height it does.

The same holds of a walk that pre-warms the cache, which loads its blocks through the loader.
-/

namespace ChainGraph

open Foundation

namespace BlockIndex

variable {db : IndexDb} {x y : BlockIndexEntry}

/-- Two entries are told apart by their hash. -/
theorem eq_of_hash (hx : x ∈ accepted db) (hy : y ∈ accepted db) (same : x.hash = y.hash) :
    x = y := by
  obtain ⟨r, inDb, found⟩ := List.mem_filterMap.mp hx
  obtain ⟨r', inDb', found'⟩ := List.mem_filterMap.mp hy
  obtain ⟨hash, key, named, -⟩ := accept_eq_some found
  obtain ⟨hash', key', named', -⟩ := accept_eq_some found'
  have keys : r.1 = r'.1 := by
    rw [key, key', hexEncode_inj (named.symm.trans (same.trans named'))]
  obtain rfl := List.inj_on_of_nodup_map db.distinct inDb inDb' keys
  exact Option.some.inj (found.symm.trans found')

/-- At most one record at a height. -/
def Sole (db : IndexDb) : Prop :=
  ∀ x ∈ accepted db, ∀ y ∈ accepted db, x.height = y.height → x = y

/-- The index can be opened, and no record is so high that the batch after it leaves the word. -/
structure Open (db : IndexDb) : Prop where
  opens : db.fault = none
  low : ∀ x ∈ accepted db, x.height + SingleBlockLoader.indexBatchSize ≤ 2 ^ 32

/-- The entry at a height. -/
def entryFor (db : IndexDb) (height : ℕ) : Option BlockIndexEntry :=
  (accepted db).find? (·.height = height)

theorem entryFor_eq_none {height : ℕ} :
    entryFor db height = none ↔ ∀ x ∈ accepted db, x.height ≠ height := by
  simp [entryFor]

theorem of_entryFor {height : ℕ} (found : entryFor db height = some x) :
    x ∈ accepted db ∧ x.height = height := by
  have here := List.find?_some found
  exact ⟨List.mem_of_find?_eq_some found, by simpa using here⟩

theorem entryFor_of_sole (sole : Sole db) (mem : x ∈ accepted db) :
    entryFor db x.height = some x := by
  cases found : entryFor db x.height with
  | none => exact absurd rfl (entryFor_eq_none.mp found x mem)
  | some y =>
    obtain ⟨mem', same⟩ := of_entryFor found
    rw [sole y mem' x mem same]

end BlockIndex

namespace SingleBlockLoader

open BlockIndex

variable {l l₀ l₁ l₂ l' : SingleBlockLoader} {height : ℕ}

/-! ## What a loader remembers -/

/-- What a height is asked for, or a range preloaded. -/
inductive Request where
  | loadBlock (height : ℕ)
  | preloadFullRange (startHeight endHeight : ℕ)

/-- The loader after `load_block`, whatever the answer: reading the file does not change it. -/
def afterLoad (l : SingleBlockLoader) (height : ℕ) : SingleBlockLoader :=
  match l.ensureLoaded height with
  | .ok l' => l'
  | .error _ => l

/-- The loader after `preload_full_range`. -/
def afterPreload (l : SingleBlockLoader) (startHeight endHeight : ℕ) : SingleBlockLoader :=
  match l.preloadFullRange startHeight endHeight with
  | .ok l' => l'
  | .error _ => l

/-- The loader after a request. -/
def afterRequest (l : SingleBlockLoader) : Request → SingleBlockLoader
  | .loadBlock height => l.afterLoad height
  | .preloadFullRange startHeight endHeight => l.afterPreload startHeight endHeight

/-- The loader after requests, one after the other. -/
def after (l : SingleBlockLoader) (requests : List Request) : SingleBlockLoader :=
  requests.foldl afterRequest l

/-- The location that loading a height uses. -/
def located (l : SingleBlockLoader) (height : ℕ) : Checked LoaderError (Option BlockLocation) := do
  let l ← l.ensureLoaded height
  pure (l.blockIndex.lookup height)

/-- A loader that stems from another by requests: what it remembers are records of the index. -/
structure Knows (l₀ l : SingleBlockLoader) : Prop where
  same : l = { l₀ with blockIndex := l.blockIndex }
  records : ∀ k location, l.blockIndex.lookup k = some location →
    ∃ x ∈ accepted l₀.reader, x.height = k ∧ location = .ofEntry x

namespace Knows

theorem fresh (empty : l.blockIndex = ∅) : Knows l l where
  same := rfl
  records k location found := by
    rw [empty, AList.lookup_empty] at found
    cases found

theorem reader (knows : Knows l₀ l) : l.reader = l₀.reader := by
  rw [knows.same]

theorem readKnown (knows : Knows l₀ l) (location : Option BlockLocation) :
    l.readKnown height location = l₀.readKnown height location := by
  rw [knows.same]
  cases location <;> rfl

/-- A batch of a scan is made of records. -/
theorem withBatch (knows : Knows l₀ l) {s e : ℕ} {batch : Batch} {read : List BlockIndexEntry}
    (scanned : Scanned s e (accepted l₀.reader) batch read) : Knows l₀ (l.withBatch batch) where
  same := by
    rw [knows.same]
    rfl
  records k location found := by
    rw [lookup_withBatch] at found
    cases there : batch.lookup k with
    | none =>
      rw [there] at found
      exact knows.records k location found
    | some x =>
      rw [there] at found
      cases found
      rw [scanned.filled k] at there
      split at there
      · obtain ⟨mem, here⟩ := of_lastAt there
        exact ⟨x, scanned.starts.subset mem, here, rfl⟩
      · cases there

theorem preloadRange (knows : Knows l₀ l) (opens : l₀.reader.fault = none) (s e : ℕ) :
    ∃ batch read, l.preloadRange s e = .ok (l.withBatch batch) ∧
      Scanned s e (accepted l₀.reader) batch read := by
  obtain ⟨batch, read, load, scanned⟩ := loadBatchIndex_eq opens s e
  refine ⟨batch, read, ?_, scanned⟩
  unfold SingleBlockLoader.preloadRange
  rw [knows.reader, load]
  rfl

theorem afterPreload (knows : Knows l₀ l) (opens : l₀.reader.fault = none) (s e : ℕ) :
    Knows l₀ (l.afterPreload s e) := by
  obtain ⟨batch, read, load, scanned⟩ := knows.preloadRange opens s e
  unfold SingleBlockLoader.afterPreload preloadFullRange
  rw [load]
  exact knows.withBatch scanned

end Knows

theorem batchEnd_eq (low : height + indexBatchSize ≤ 2 ^ 32) :
    batchEnd height = height + indexBatchSize - 1 := by
  unfold batchEnd asU32 indexBatchSize at *
  omega

/-- Over one record at a height, it is the one that is used. -/
theorem Knows.ensureLoaded (knows : Knows l₀ l) (opened : Open l₀.reader) (sole : Sole l₀.reader)
    (height : ℕ) : ∃ l', l.ensureLoaded height = .ok l' ∧ Knows l₀ l' ∧
      l'.blockIndex.lookup height = (entryFor l₀.reader height).map .ofEntry := by
  unfold SingleBlockLoader.ensureLoaded
  cases known : l.blockIndex.lookup height with
  | some location =>
    refine ⟨l, rfl, knows, ?_⟩
    obtain ⟨x, mem, rfl, rfl⟩ := knows.records height location known
    rw [known, entryFor_of_sole sole mem]
    rfl
  | none =>
    obtain ⟨batch, read, load, scanned⟩ := knows.preloadRange opened.opens height (batchEnd height)
    refine ⟨l.withBatch batch, load, knows.withBatch scanned, ?_⟩
    rw [lookup_withBatch, known, Option.or_none]
    congr 1
    rw [scanned.filled height]
    cases found : entryFor l₀.reader height with
    | none =>
      have nothing : lastAt height read = none := lastAt_eq_none.mpr fun x mem =>
        entryFor_eq_none.mp found x (scanned.starts.subset mem)
      rw [nothing, ite_self]
    | some x =>
      obtain ⟨mem, rfl⟩ := of_entryFor found
      have low := opened.low x mem
      have batch := batchEnd_eq low
      have positive : indexBatchSize = 500 := rfl
      have range : x.height ≤ x.height ∧ x.height ≤ batchEnd x.height := by omega
      obtain ⟨p, q, split⟩ := List.append_of_mem mem
      have reads := readsOn_before_sole (fun y hy same => sole y hy x mem same)
        (nodup_accepted _) split range (by omega)
      have longer := (scanned.readsOn_iff split).mp reads
      have inside : p ++ [x] <+: read := by
        refine List.prefix_of_prefix_length_le ⟨q, by simp [split]⟩ scanned.starts ?_
        rw [List.length_append, List.length_singleton]
        exact longer
      rw [if_pos range]
      cases last : lastAt x.height read with
      | none =>
        exact absurd rfl (lastAt_eq_none.mp last x (inside.subset (by simp)))
      | some y =>
        obtain ⟨there, same⟩ := of_lastAt last
        rw [sole y (scanned.starts.subset there) x mem same]

theorem Knows.afterLoad (knows : Knows l₀ l) (opened : Open l₀.reader) (sole : Sole l₀.reader)
    (height : ℕ) : Knows l₀ (l.afterLoad height) := by
  obtain ⟨l', loaded, knows', -⟩ := knows.ensureLoaded opened sole height
  unfold SingleBlockLoader.afterLoad
  rw [loaded]
  exact knows'

theorem Knows.after (knows : Knows l₀ l) (opened : Open l₀.reader) (sole : Sole l₀.reader)
    (requests : List Request) : Knows l₀ (l.after requests) := by
  induction requests generalizing l with
  | nil => exact knows
  | cons request requests ih =>
    refine ih ?_
    cases request with
    | loadBlock height => exact knows.afterLoad opened sole height
    | preloadFullRange s e => exact knows.afterPreload opened.opens s e

/-! ## What it answers -/

theorem blockAt_eq_located (l : SingleBlockLoader) (height : ℕ) :
    l.blockAt height = (do
      let location ← l.located height
      l.readKnown height location) := by
  rw [blockAt_eq, located]
  cases loaded : l.ensureLoaded height with
  | error halt => rfl
  | ok l' =>
    have same : l' = { l with blockIndex := l'.blockIndex } := by
      unfold ensureLoaded at loaded
      split at loaded
      · cases loaded
        rfl
      · obtain ⟨batch, -, rest⟩ := Checked.bind_eq_ok.mp loaded
        cases rest
        rfl
    show l'.readKnown height (l'.blockIndex.lookup height) =
      l.readKnown height (l'.blockIndex.lookup height)
    generalize l'.blockIndex.lookup height = location
    rw [same]
    cases location <;> rfl

/-- The block that the record of a height leads to. -/
def answer (l : SingleBlockLoader) (height : ℕ) : Checked LoaderError (Option LocatedBlock) :=
  l.readKnown height ((entryFor l.reader height).map .ofEntry)

theorem Knows.located (knows : Knows l₀ l) (opened : Open l₀.reader) (sole : Sole l₀.reader)
    (height : ℕ) : l.located height = .ok ((entryFor l₀.reader height).map .ofEntry) := by
  obtain ⟨l', loaded, -, found⟩ := knows.ensureLoaded opened sole height
  unfold SingleBlockLoader.located
  rw [loaded, ← found]
  rfl

theorem Knows.blockAt (knows : Knows l₀ l) (opened : Open l₀.reader) (sole : Sole l₀.reader)
    (height : ℕ) : l.blockAt height = l₀.answer height := by
  rw [blockAt_eq_located, knows.located opened sole]
  exact knows.readKnown _

/-- The loader after a load that gives an answer. -/
theorem loadBlock_eq (knows : Knows l₀ l) (opened : Open l₀.reader) (sole : Sole l₀.reader)
    (height : ℕ) : ∃ l', Knows l₀ l' ∧ l.loadBlock height = (do
      let found ← l₀.answer height
      pure (found, l')) := by
  obtain ⟨l', loaded, knows', known⟩ := knows.ensureLoaded opened sole height
  refine ⟨l', knows', ?_⟩
  unfold loadBlock answer
  rw [loaded, ← known, ← knows'.readKnown]
  simp only [bind, Except.bind]
  cases l'.blockIndex.lookup height with
  | none => rfl
  | some location =>
    simp only [readKnown, bind, Except.bind]
    cases l'.readLocated height location <;> rfl

/-! ## Walks -/

section Walks

variable {crate : AddressCrate} {network : Network} {cache : UtxoCache}

/-- What a walk leaves in the cache, or why it failed. -/
def warmed (r : Checked LoaderError (ℕ × SingleBlockLoader × UtxoCache)) :
    Checked LoaderError UtxoCache := r.map fun after => after.2.2

/-- A walk from one loader leaves what it leaves from another, and both know only records. -/
structure SameWalk (l₀ : SingleBlockLoader)
    (r₁ r₂ : Checked LoaderError (ℕ × SingleBlockLoader × UtxoCache)) : Prop where
  warmed : warmed r₁ = warmed r₂
  knows : ∀ n l c, r₁ = .ok (n, l, c) → Knows l₀ l

theorem SameWalk.pure (knows : Knows l₀ l₁) (n : ℕ) (cache : UtxoCache) :
    SameWalk l₀ (.ok (n, l₁, cache)) (.ok (n, l₂, cache)) where
  warmed := rfl
  knows _ _ _ same := by
    cases same
    exact knows

theorem SameWalk.error (halt : Halt LoaderError) : SameWalk l₀ (.error halt) (.error halt) where
  warmed := rfl
  knows _ _ _ same := by cases same

theorem sameWalk_prewarmBack (opened : Open l₀.reader) (sole : Sole l₀.reader)
    {remaining loaded : ℕ} (k₁ : Knows l₀ l₁) (k₂ : Knows l₀ l₂) :
    SameWalk l₀ (prewarmBack crate network remaining loaded height l₁ cache)
      (prewarmBack crate network remaining loaded height l₂ cache) := by
  induction remaining generalizing loaded height l₁ l₂ cache with
  | zero => exact .pure k₁ loaded cache
  | succ remaining ih =>
    unfold prewarmBack
    split
    · exact .pure k₁ loaded cache
    split
    · exact .pure k₁ loaded cache
    · obtain ⟨l₁', k₁', load₁⟩ := loadBlock_eq k₁ opened sole height
      obtain ⟨l₂', k₂', load₂⟩ := loadBlock_eq k₂ opened sole height
      rw [load₁, load₂]
      cases l₀.answer height with
      | error halt => exact .error halt
      | ok data =>
        cases data with
        | none => exact .pure k₁' loaded cache
        | some located =>
          simp only [bind, Except.bind]
          dsimp only [Pure.pure, Except.pure]
          split
          · exact .pure k₁' loaded _
          · exact ih k₁' k₂'

/-- **Pre-warming** leaves the same in the cache from every loader of a directory. -/
theorem sameWalk_prewarmCache (opened : Open l₀.reader) (sole : Sole l₀.reader)
    {startHeight maxBlocks : ℕ} (k₁ : Knows l₀ l₁) (k₂ : Knows l₀ l₂) :
    SameWalk l₀ (prewarmCache crate network l₁ cache startHeight maxBlocks)
      (prewarmCache crate network l₂ cache startHeight maxBlocks) := by
  unfold prewarmCache
  split
  · exact .pure k₁ 0 cache
  · obtain ⟨b₁, _, load₁, scanned₁⟩ :=
      k₁.preloadRange opened.opens (startHeight - maxBlocks) (startHeight - 1)
    obtain ⟨b₂, _, load₂, scanned₂⟩ :=
      k₂.preloadRange opened.opens (startHeight - maxBlocks) (startHeight - 1)
    unfold preloadFullRange
    rw [load₁, load₂]
    exact sameWalk_prewarmBack opened sole (k₁.withBatch scanned₁) (k₂.withBatch scanned₂)

end Walks

/-! ## Two records at a height -/

/-- A range below the end of the word is read to the end. -/
theorem readsOn_whole (low : ∀ x ∈ accepted l.reader, x.height + indexBatchSize ≤ 2 ^ 32)
    {p : List BlockIndexEntry} (inside : p ⊆ accepted l.reader) :
    ReadsOn 0 (2 ^ 32 - 2) p := by
  have fewer : heightsSeen 0 (2 ^ 32 - 2) p ⊆ Finset.range (2 ^ 32 - indexBatchSize + 1) := by
    intro k seen
    obtain ⟨⟨x, mem, rfl⟩, -⟩ := mem_heightsSeen.mp seen
    have bound := low x (inside mem)
    have positive : indexBatchSize = 500 := rfl
    exact Finset.mem_range.mpr (by omega)
  have card := Finset.card_le_card fewer
  have positive : indexBatchSize = 500 := rfl
  rw [Finset.card_range] at card
  rw [ReadsOn, targetCount, asU32_of_lt (by omega)]
  omega

/-- A range that has a height with a record has an entry for it. -/
theorem entryAt_some (opens : l.reader.fault = none) {s e : ℕ} (range : s ≤ height ∧ height ≤ e)
    (counts : e - s + 1 < 2 ^ 32) {x : BlockIndexEntry} (mem : x ∈ accepted l.reader)
    (here : x.height = height) :
    ∃ a ∈ accepted l.reader, entryAt l.reader s e height = .ok (some a) := by
  obtain ⟨a, found⟩ : ∃ a, (accepted l.reader).find? (·.height = height) = some a := by
    apply Option.ne_none_iff_exists'.mp
    intro none
    exact List.find?_eq_none.mp none x mem (by simpa using here)
  obtain ⟨at', p, q, split, before⟩ := List.find?_eq_some_iff_append.mp found
  obtain rfl : a.height = height := by simpa using at'
  have nodup := nodup_accepted l.reader
  have firsts : (p ++ [a]).Nodup := by
    rw [split, List.append_cons] at nodup
    exact (List.nodup_append.mp nodup).1
  have first : ∀ y ∈ p ++ [a], y.height = a.height → y = a := by
    intro y inside same
    rcases List.mem_append.mp inside with early | last
    · exact absurd same (by simpa using before y early)
    · exact List.mem_singleton.mp last
  have reads : ReadsOn s e p := readsOn_before_sole (q := []) first firsts rfl range counts
  obtain ⟨batch, read, load, scanned⟩ := loadBatchIndex_eq opens s e
  have longer := (scanned.readsOn_iff split).mp reads
  have inside : p ++ [a] <+: read := by
    refine List.prefix_of_prefix_length_le ⟨q, by simp [split]⟩ scanned.starts ?_
    rw [List.length_append, List.length_singleton]
    exact longer
  cases last : lastAt a.height read with
  | none => exact absurd rfl (lastAt_eq_none.mp last a (inside.subset (by simp)))
  | some b =>
    refine ⟨b, scanned.starts.subset (of_lastAt last).1, ?_⟩
    rw [entryAt, load]
    show Except.ok (batch.lookup a.height) = _
    rw [scanned.filled, if_pos range, last]

/-- After a preload the location is the range's entry. -/
theorem located_afterPreload {s e : ℕ} {a : BlockIndexEntry}
    (found : entryAt l.reader s e height = .ok (some a)) :
    (l.afterPreload s e).located height = .ok (some (.ofEntry a)) := by
  obtain ⟨batch, load, picked⟩ := Checked.bind_eq_ok.mp found
  have there : batch.lookup height = some a := Except.ok.inj picked
  have loaded : l.preloadFullRange s e = .ok (l.withBatch batch) := by
    unfold preloadFullRange preloadRange
    rw [load]
    rfl
  have known : (l.withBatch batch).blockIndex.lookup height = some (.ofEntry a) := by
    rw [lookup_withBatch, there]
    rfl
  unfold afterPreload located ensureLoaded
  rw [loaded]
  dsimp only
  rw [known]
  simp [known, bind, Except.bind, pure, Except.pure]

/-- Two records of a height are not read alike by the range of the height and by the whole. -/
theorem not_readAlike (low : ∀ x ∈ accepted l.reader, x.height + indexBatchSize ≤ 2 ^ 32)
    {p q : List BlockIndexEntry} {x y : BlockIndexEntry} (split : accepted l.reader = p ++ y :: q)
    (before : x ∈ p) (same : x.height = y.height) :
    ¬ ReadAlike (accepted l.reader) y.height y.height y.height 0 (2 ^ 32 - 2) := by
  intro alike
  have inside : p ⊆ accepted l.reader := by simp [split]
  have stops := (alike p y q split rfl).mpr (readsOn_whole low inside)
  have seen : y.height ∈ heightsSeen y.height y.height p :=
    mem_heightsSeen.mpr ⟨⟨x, before, same⟩, Nat.le_refl _, Nat.le_refl _⟩
  have some := Finset.card_pos.mpr ⟨_, seen⟩
  rw [ReadsOn, targetCount, Nat.sub_self, asU32_of_lt (by decide)] at stops
  omega

/-- If earlier requests never change the location of a height, no height has two records. -/
theorem sole_of_independent (opened : Open l.reader)
    (independent : ∀ requests height, (l.after requests).located height = l.located height) :
    Sole l.reader := by
  intro x hx y hy same
  by_contra differ
  obtain ⟨height, here⟩ : ∃ height, x.height = height := ⟨_, rfl⟩
  obtain ⟨a, inDb, alone⟩ := entryAt_some opened.opens (s := height) (e := height)
    ⟨Nat.le_refl _, Nat.le_refl _⟩ (by omega) hx here
  have bound := opened.low x hx
  have positive : indexBatchSize = 500 := rfl
  obtain ⟨b, inDb', whole⟩ := entryAt_some opened.opens (s := 0) (e := 2 ^ 32 - 2)
    ⟨Nat.zero_le height, by omega⟩ (by omega) hx here
  have first := independent [.preloadFullRange height height] height
  have second := independent [.preloadFullRange 0 (2 ^ 32 - 2)] height
  have one := located_afterPreload alone
  have two := located_afterPreload whole
  have both : (BlockLocation.ofEntry a) = .ofEntry b :=
    Option.some.inj (Except.ok.inj (one.symm.trans (first.trans (second.symm.trans two))))
  obtain rfl := eq_of_hash inDb inDb' (congrArg BlockLocation.hash both)
  have alike := (entryAt_eq_iff ⟨Nat.le_refl height, Nat.le_refl height⟩
    ⟨Nat.zero_le height, by omega⟩).mp (alone.trans whole.symm) opened.opens
  obtain ⟨p, q, split⟩ := List.append_of_mem hy
  have inside : x ∈ p ++ y :: q := split ▸ hx
  rcases List.mem_append.mp inside with before | after
  · exact not_readAlike opened.low split before same (by rwa [← same, here])
  · rcases List.mem_cons.mp after with rfl | later
    · exact differ rfl
    · obtain ⟨q₁, q₂, rfl⟩ := List.append_of_mem later
      have split' : accepted l.reader = (p ++ y :: q₁) ++ x :: q₂ := by simp [split]
      exact not_readAlike opened.low split' (by simp) same.symm (by rwa [here])

/-- **What a loader answers** depends on what it was asked before if and only if two records have
one height. If none have, every block is loaded as by a new loader. -/
theorem loads_independent_iff (l : SingleBlockLoader) (fresh : l.blockIndex = ∅)
    (opened : Open l.reader) :
    ((∀ requests height, (l.after requests).located height = l.located height) ↔
      Sole l.reader) ∧
    (Sole l.reader →
      ∀ requests height, (l.after requests).blockAt height = l.blockAt height) := by
  refine ⟨⟨sole_of_independent opened, fun sole requests height => ?_⟩,
    fun sole requests height => ?_⟩
  · have later := (Knows.fresh fresh).after opened sole requests
    rw [later.located opened sole, (Knows.fresh fresh).located opened sole]
  · have later := (Knows.fresh fresh).after opened sole requests
    rw [later.blockAt opened sole, (Knows.fresh fresh).blockAt opened sole]

end SingleBlockLoader

/-! ## Two blocks in a directory -/

open BlockIndex

namespace Sample

def diskHash (i : ℕ) : List UInt8 := List.replicate 31 0 ++ [UInt8.ofNat (100 + i)]

/-- The record of the first or the second block, which lie one after the other in one file. -/
def diskRecord (i : ℕ) : DiskBlockIndex where
  version := 1
  height := UInt64.ofNat i
  status := 0x1d
  txCount := if i = 0 then 1 else 3
  file := 0
  dataPos := if i = 0 then 8 else 17
  undoPos := 8
  header := List.replicate 80 0
  sized := List.length_replicate

/-- A block is a byte, for short. -/
def byteOf (b : Block) : List UInt8 := if b = first.block then [0] else [1]

def directory : SingleBlockLoader where
  blocksDir := "blocks"
  magic := [0xF9, 0xBE, 0xB4, 0xD9]
  files _ := some ([0xF9, 0xBE, 0xB4, 0xD9, 1, 0, 0, 0, 0] ++
    [0xF9, 0xBE, 0xB4, 0xD9, 1, 0, 0, 0, 1])
  deserialize bytes :=
    if bytes = [0] then .ok first.block else if bytes = [1] then .ok second.block
    else .error "no block"
  reader := {
    records := [(0x62 :: diskHash 0, (diskRecord 0).bytes),
      (0x62 :: diskHash 1, (diskRecord 1).bytes)]
    distinct := by decide }
  blockIndex := ∅

end Sample

namespace SingleBlockLoader

theorem accepted_directory : accepted Sample.directory.reader =
    [(Sample.diskRecord 0).entry (hexEncode (Sample.diskHash 0)) 0 8,
      (Sample.diskRecord 1).entry (hexEncode (Sample.diskHash 1)) 0 17] := by
  decide +kernel

theorem open_directory : Open Sample.directory.reader where
  opens := rfl
  low := by
    rw [accepted_directory]
    decide

theorem sole_directory : Sole Sample.directory.reader := by
  unfold Sole
  rw [accepted_directory]
  decide

/-- After the first block was loaded and the whole range preloaded. -/
theorem loads_independent_sample :
    (Sample.directory.after [.loadBlock 0, .preloadFullRange 0 1]).blockAt 1 =
      .ok (some Sample.second) :=
  ((loads_independent_iff Sample.directory rfl open_directory).2 sole_directory _ 1).trans
    (by decide +kernel)

end SingleBlockLoader

end ChainGraph

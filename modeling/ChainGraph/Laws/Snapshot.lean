import ChainGraph.Laws.Shards

/-!
# What a snapshot keeps

A file written from a cache is read back entry by entry. Loaded into empty shards, which may be
smaller, it leaves in each the entries used most recently, in their order. A load that fails leaves
the cache alone. A load that succeeds lays the entries of the file over those of the cache, so the
cache is replaced only where the file has all of its keys or fills the shard.
-/

namespace ChainGraph

open Foundation

namespace UtxoCache

variable {crc32 : List UInt8 → UInt32} {c target : UtxoCache}

/-! ## The format -/

/-- What the format has room for: the two indices in four bytes each, the length of the address in
two. -/
structure Writable (e : Entry) : Prop where
  vout : e.1.vout < 2 ^ 32
  outputIndex : e.2.outputIndex < 2 ^ 32
  address : ∀ address, e.2.address = some address → address.utf8ByteSize ≤ 65535

theorem fromUTF8_textBytes (text : String) :
    String.fromUTF8? ⟨(textBytes text).toArray⟩ = some text := by
  unfold textBytes String.fromUTF8?
  rw [Array.toArray_toList, dif_pos text.isValidUTF8]
  rfl

theorem length_textBytes (text : String) : (textBytes text).length = text.utf8ByteSize := rfl

theorem reads_text {text : String} (short : text.utf8ByteSize ≤ 65535) :
    Reader.Reads readText (leBytes 2 (textBytes text).length ++ textBytes text)
      (leBytes 2 (textBytes text).length ++ textBytes text) text := by
  have size : ofLe (leBytes 2 (textBytes text).length) = (textBytes text).length := by
    apply ofLe_leBytes_of_lt
    rw [length_textBytes]
    omega
  refine (Reader.reads_readHashed _ (length_leBytes 2 _)).bind ?_
  rw [size]
  refine (Reader.reads_readHashed _ rfl).done ?_
  rw [fromUTF8_textBytes]
  exact .pure text

theorem reads_address {address : Option Address}
    (short : ∀ text, address = some text → text.utf8ByteSize ≤ 65535) :
    Reader.Reads readAddress (addressBytes address) (addressBytes address) address := by
  cases address with
  | none =>
    have flag : Reader.Reads (readHashed 1) [0] [0] [0] := Reader.reads_readHashed _ rfl
    exact flag.done (.pure none)
  | some text =>
    have flag : Reader.Reads (readHashed 1) [1] [1] [1] := Reader.reads_readHashed _ rfl
    exact flag.bind ((reads_text (short text rfl)).done (.pure (some text)))

/-- An entry is read back from its bytes, and all of them are hashed. -/
theorem reads_entry {e : Entry} (h : Writable e) :
    Reader.Reads readEntry (entryBytes e) (entryBytes e) e := by
  have field (k n : ℕ) : Reader.Reads (readHashed k) (leBytes k n) (leBytes k n) (leBytes k n) :=
    Reader.reads_readHashed _ (length_leBytes k n)
  have tag : Reader.Reads (readHashed 1) [e.2.scriptType.toByte] [e.2.scriptType.toByte]
      [e.2.scriptType.toByte] := Reader.reads_readHashed _ rfl
  have txid : ofLe (leBytes 32 e.1.txid.toNat) = e.1.txid.toNat := ofLe_leBytes_of_lt e.1.txid.isLt
  have vout : ofLe (leBytes 4 e.1.vout) = e.1.vout := ofLe_leBytes_of_lt h.vout
  have index : ofLe (leBytes 4 e.2.outputIndex) = e.2.outputIndex :=
    ofLe_leBytes_of_lt h.outputIndex
  have amount : ofLe (leBytes 8 e.2.amount.toNat) = e.2.amount.toNat :=
    ofLe_leBytes_of_lt e.2.amount.toNat_lt
  have kind : ScriptType.ofByte (.ofNat (ofLe [e.2.scriptType.toByte])) = e.2.scriptType := by
    cases e.2.scriptType <;> rfl
  refine (field 32 _).bind ((field 4 _).bind ((field 4 _).bind ((field 8 _).bind (tag.bind
    ((reads_address h.address).done ?_)))))
  rw [txid, vout, index, amount, kind, BitVec.ofNat_toNat, UInt64.ofNat_toNat]
  simpa using Reader.Reads.pure e

/-- The header is read back; none of it is hashed. -/
theorem reads_header {count crc : ℕ} (height : ℕ) (room : count < 2 ^ 64) (word : crc < 2 ^ 32) :
    Reader.Reads readHeader (headerBytes count height crc) [] (count, crc) := by
  have field (k n : ℕ) : Reader.Reads (readExact k) (leBytes k n) [] (leBytes k n) :=
    Reader.reads_readExact _ (length_leBytes k n)
  have magic : Reader.Reads (readExact 4) cacheFileMagic [] cacheFileMagic :=
    Reader.reads_readExact _ rfl
  have version : ofLe (leBytes 4 cacheFileVersion) = cacheFileVersion := rfl
  have size : ofLe (leBytes 8 count) = count := ofLe_leBytes_of_lt room
  have sum : ofLe (leBytes 4 crc) = crc := ofLe_leBytes_of_lt word
  refine magic.plain ?_
  rw [if_neg (fun differ => differ rfl)]
  refine (field 4 _).plain ?_
  rw [if_neg (fun differ => differ version)]
  refine (field 8 _).plain ((field 4 _).plain ((field 4 _).done ?_))
  rw [size, sum]
  exact .pure _

theorem decode_file {entries : List Entry} {height : ℕ} (writable : ∀ e ∈ entries, Writable e)
    (room : entries.length < 2 ^ 64) :
    decode crc32 (headerBytes entries.length height (crc32 (entries.flatMap entryBytes)).toNat ++
      entries.flatMap entryBytes) = .ok entries := by
  have header := reads_header height room
    (crc32 (entries.flatMap entryBytes)).toNat_lt
  have body := Reader.reads_times entryBytes fun e mem => reads_entry (writable e mem)
  have whole : Reader.Reads readFile _ _ _ := header.bind (body.done (.pure (entries, _)))
  have read := whole [] []
  rw [List.append_nil, List.nil_append, List.nil_append] at read
  unfold decode
  rw [read]
  exact if_neg fun differ => differ rfl

/-! ## Caches the code can build -/

/-- An entry in the shard its key names, with indices of the code's types. -/
structure Fits (s : Fin numShards) (e : Entry) : Prop where
  home : shardIndex e.1 = s
  vout : e.1.vout < 2 ^ 32
  outputIndex : e.2.outputIndex < 2 ^ 32

/-- Every entry is where its key says, and the entries can be counted in a word. -/
structure Lawful (c : UtxoCache) : Prop where
  fits : ∀ s, ∀ e ∈ (c.shards s).entries, Fits s e
  room : ((List.finRange numShards).map c.cap).sum < 2 ^ 64

/-- A cache made by `new` and changed by the operations of its interface, with keys and values of
the code's types. -/
inductive Built (crc32 : List UInt8 → UInt32) : UtxoCache → Prop
  | new {capacity : ℕ} : capacity < 2 ^ 64 → Built crc32 (.new capacity)
  | insert {c : UtxoCache} {key : UtxoKey} {output : CachedOutput} : Built crc32 c →
      key.vout < 2 ^ 32 → output.outputIndex < 2 ^ 32 → Built crc32 (c.insert key output)
  | get {c : UtxoCache} (key : UtxoKey) : Built crc32 c → Built crc32 (c.get key).2
  | getQuiet {c : UtxoCache} (key : UtxoKey) : Built crc32 c → Built crc32 (c.getQuiet key).2
  | getMany {c : UtxoCache} (keys : List UtxoKey) : Built crc32 c → Built crc32 (c.getMany keys).1
  | remove {c : UtxoCache} (key : UtxoKey) : Built crc32 c → Built crc32 (c.remove key).2
  | removeMany {c : UtxoCache} (keys : List UtxoKey) : Built crc32 c →
      Built crc32 (c.removeMany keys)
  | adjustMisses {c : UtxoCache} (count : UInt64) : Built crc32 c →
      Built crc32 (c.adjustMisses count)
  | recordNeo4jFallback {c : UtxoCache} : Built crc32 c → Built crc32 c.recordNeo4jFallback
  | load {c : UtxoCache} (file : Option (List UInt8)) : Built crc32 c →
      Built crc32 (c.loadFromFile crc32 file).2

/-- The indices of an entry have the code's types. -/
def Indexed (e : Entry) : Prop := e.1.vout < 2 ^ 32 ∧ e.2.outputIndex < 2 ^ 32

/-- What stems from a lawful cache by entries with such indices is lawful. -/
theorem Lawful.stems {c' : UtxoCache} (h : Lawful c) (stems : Stems Indexed c c') : Lawful c' := by
  refine ⟨fun s e mem => ?_, ?_⟩
  · rcases stems.entries s e mem with before | ⟨home, vout, index⟩
    · exact h.fits s e before
    · exact ⟨home, vout, index⟩
  · rw [funext stems.cap]
    exact h.room

/-- The indices read from a file are read from four bytes each. -/
theorem yields_entry : Reader.Yields readEntry fun e =>
    e.1.vout < 2 ^ 32 ∧ e.2.outputIndex < 2 ^ 32 := by
  have word {bytes : List UInt8} (size : bytes.length = 4) : ofLe bytes < 2 ^ 32 := by
    have bound := ofLe_lt bytes
    rw [size] at bound
    exact bound
  have field (k : ℕ) : Reader.Yields (readHashed k) fun bytes => bytes.length = k :=
    Reader.yields_readHashed _ k
  have address : Reader.Yields readAddress fun _ => True := fun _ _ _ _ => trivial
  exact (field 32).bind fun _ _ => (field 4).bind fun _ vout => (field 4).bind fun _ index =>
    (field 8).bind fun _ _ => (field 1).bind fun _ _ => address.bind fun _ _ =>
      .pure ⟨word vout, word index⟩

theorem decode_indices {file : List UInt8} {entries : List Entry}
    (read : decode crc32 file = .ok entries) :
    ∀ e ∈ entries, e.1.vout < 2 ^ 32 ∧ e.2.outputIndex < 2 ^ 32 := by
  have all : Reader.Yields readFile fun p =>
      ∀ e ∈ p.1, e.1.vout < 2 ^ 32 ∧ e.2.outputIndex < 2 ^ 32 := by
    refine Reader.Yields.bind (P := fun _ => True) (fun _ _ _ _ => trivial) fun p _ => ?_
    exact (Reader.yields_times yields_entry p.1).bind fun _ each => .pure each
  unfold decode at read
  split at read
  · cases read
  · rename_i run
    simp only at read
    split at read
    · cases read
    · cases read
      exact all _ _ _ run

theorem lawful_new {capacity : ℕ} (word : capacity < 2 ^ 64) : Lawful (.new capacity) := by
  refine ⟨fun s e mem => absurd mem List.not_mem_nil, ?_⟩
  show ((List.finRange numShards).map fun _ => max 1 (capacity / numShards)).sum < 2 ^ 64
  rw [List.map_const', List.sum_replicate_nat, List.length_finRange]
  unfold numShards
  omega

theorem Built.lawful (built : Built crc32 c) : Lawful c := by
  induction built with
  | new word => exact lawful_new word
  | insert _ vout index ih => exact ih.stems (stems_insert _ ⟨vout, index⟩)
  | get key _ ih => exact ih.stems (stems_get _ key)
  | getQuiet key _ ih => exact ih.stems (stems_getQuiet _ key)
  | getMany keys _ ih => exact ih.stems (stems_getMany _ keys)
  | remove key _ ih => exact ih.stems (stems_remove _ key)
  | removeMany keys _ ih => exact ih.stems (stems_removeMany _ keys)
  | adjustMisses count _ ih => exact ih.stems ((Stems.refl _ _).withStats _)
  | recordNeo4jFallback _ ih => exact ih.stems ((Stems.refl _ _).withStats _)
  | load file _ ih => exact ih.stems (stems_loadFromFile _ fun _ _ read => decode_indices read)

/-! ## Saving, then loading -/

/-- Of lists side by side, all but one of them empty, that one is left. -/
theorem flatMap_eq_of_single {α β : Type} {l : List α} {f : α → List β} {a : α} (mem : a ∈ l)
    (nodup : l.Nodup) (others : ∀ b ∈ l, b ≠ a → f b = []) : l.flatMap f = f a := by
  induction l with
  | nil => cases mem
  | cons b l ih =>
    rw [List.nodup_cons] at nodup
    rw [List.flatMap_cons]
    rcases List.mem_cons.mp mem with rfl | inside
    · have rest : l.flatMap f = [] := by
        rw [List.flatMap_eq_nil_iff]
        intro x hx
        exact others x (List.mem_cons_of_mem a hx) fun same => nodup.1 (same ▸ hx)
      rw [rest, List.append_nil]
    · have here : f b = [] := others b List.mem_cons_self fun same => nodup.1 (same ▸ inside)
      rw [here, List.nil_append]
      exact ih inside nodup.2 fun x hx => others x (List.mem_cons_of_mem b hx)

/-- The file's entries of a shard are the shard's. -/
theorem perShard_allEntries (h : Lawful c) (s : Fin numShards) :
    perShard c.allEntries s = (c.shards s).entries := by
  have own : (c.shards s).entries.filter (shardIndex ·.1 = s) = (c.shards s).entries := by
    rw [List.filter_eq_self]
    intro e mem
    simpa using (h.fits s e mem).home
  have other : ∀ t ∈ List.finRange numShards, t ≠ s →
      (c.shards t).entries.filter (shardIndex ·.1 = s) = [] := by
    intro t _ ne
    rw [List.filter_eq_nil_iff]
    intro e mem
    have home := (h.fits t e mem).home
    simpa [home] using ne
  unfold perShard allEntries
  rw [List.filter_flatMap, flatMap_eq_of_single (List.mem_finRange s) (List.nodup_finRange _) other,
    own]

theorem length_allEntries : c.allEntries.length = c.len := by
  unfold allEntries len
  rw [List.length_flatMap]
  rfl

theorem len_lt (h : Lawful c) : c.len < 2 ^ 64 := by
  have bounded : ∀ l : List (Fin numShards),
      (l.map fun s => (c.shards s).len).sum ≤ (l.map c.cap).sum := by
    intro l
    induction l with
    | nil => exact Nat.le_refl 0
    | cons s l ih =>
      have here : (c.shards s).len ≤ c.cap s := (c.shards s).len_le
      simp only [List.map_cons, List.sum_cons]
      omega
  exact Nat.lt_of_le_of_lt (bounded _) h.room

theorem loaded_allEntries (h : Lawful c) : loaded c.allEntries = c.len := by
  unfold loaded len
  simp only [perShard_allEntries h]
  rfl

/-- The first pass over a saved file yields the entries of the cache. -/
theorem decode_saveToFile (h : Lawful c) (height : ℕ)
    (short : ∀ s, ∀ e ∈ (c.shards s).entries, ∀ address, e.2.address = some address →
      address.utf8ByteSize ≤ 65535) :
    decode crc32 (saveToFile crc32 c height).1 = .ok c.allEntries := by
  have writable : ∀ e ∈ c.allEntries, Writable e := by
    intro e mem
    obtain ⟨s, _, inside⟩ := List.mem_flatMap.mp mem
    have fits := h.fits s e inside
    exact ⟨fits.vout, fits.outputIndex, short s e inside⟩
  have room : c.allEntries.length < 2 ^ 64 := by
    rw [length_allEntries]
    exact len_lt h
  unfold saveToFile bodyBytes
  rw [← length_allEntries]
  exact decode_file writable room

/-- **Round trip.** The file of a cache, loaded into empty shards of any capacity, leaves in each of
them the entries used most recently, as many as fit, in their order. The answer is the number of
entries saved, and the counters stay. -/
theorem loadFromFile_saveToFile (crc32 : List UInt8 → UInt32) (c target : UtxoCache) (height : ℕ)
    (built : Built crc32 c)
    (short : ∀ s, ∀ e ∈ (c.shards s).entries, ∀ address, e.2.address = some address →
      address.utf8ByteSize ≤ 65535)
    (empty : ∀ s, (target.shards s).entries = []) :
    ∃ after, target.loadFromFile crc32 (some (saveToFile crc32 c height).1) = (.ok c.len, after) ∧
      (saveToFile crc32 c height).2 = c.len ∧
      (∀ s, (after.shards s).entries = (c.shards s).entries.take (target.cap s)) ∧
      (∀ s, after.cap s = target.cap s) ∧ after.stats = target.stats := by
  have lawful := built.lawful
  refine ⟨target.insertAll c.allEntries, ?_, length_allEntries, fun s => ?_, fun s => ?_, rfl⟩
  · unfold loadFromFile
    simp only [decode_saveToFile lawful height short, loaded_allEntries lawful]
  · show ((target.shards s).puts (perShard c.allEntries s).reverse).entries = _
    rw [perShard_allEntries lawful, Lru.entries_puts_reverse, empty,
      Lru.stack_of_nodup (c.shards s).nodup]
    rfl
  · exact Lru.cap_puts ..

/-- Two outputs of one transaction in one shard: one with an address, then one without. -/
def sampleCache : UtxoCache :=
  ((UtxoCache.new 48).insert ⟨0, 0⟩
    ⟨0, 5000000000, .P2PK, some "1A1zP1eP5QGefi2DMPTfTL5SLmv7DivfNa"⟩).insert ⟨0, 16⟩
    ⟨16, 0, .NullData, none⟩

/-- The checksum of the sample's entries. -/
def sampleCrc32 : List UInt8 → UInt32 := fun _ => 1770207060

theorem loadFromFile_saveToFile_sample :
    ∃ after, (UtxoCache.new 16).loadFromFile sampleCrc32
        (some (saveToFile sampleCrc32 sampleCache 7).1) = (.ok sampleCache.len, after) ∧
      (saveToFile sampleCrc32 sampleCache 7).2 = sampleCache.len ∧
      (∀ s, (after.shards s).entries =
        (sampleCache.shards s).entries.take ((UtxoCache.new 16).cap s)) ∧
      (∀ s, after.cap s = (UtxoCache.new 16).cap s) ∧ after.stats = (UtxoCache.new 16).stats := by
  have built : Built sampleCrc32 sampleCache :=
    .insert (.insert (.new (by decide)) (by decide) (by decide)) (by decide) (by decide)
  have short : ∀ s, ∀ e ∈ (sampleCache.shards s).entries,
      (e.2.address.all fun address => address.utf8ByteSize ≤ 65535) = true := by
    decide +kernel
  refine loadFromFile_saveToFile sampleCrc32 sampleCache (.new 16) 7 built ?_ fun _ => rfl
  intro s e mem address some
  have all := short s e mem
  rw [some] at all
  simpa using all

/-! ## Loading any file -/

/-- What a load should do to a cache: nothing if it fails; if it succeeds, each shard holds the
entries of the file, every key once with the value written first, as many as fit. -/
structure Replaces (crc32 : List UInt8 → UInt32) (c : UtxoCache) (file : List UInt8) : Prop where
  failed : ∀ e after, c.loadFromFile crc32 (some file) = (.error e, after) → after = c
  succeeded : ∀ n after, c.loadFromFile crc32 (some file) = (.ok n, after) →
    ∃ entries, decode crc32 file = .ok entries ∧
      ∀ s, (after.shards s).entries = (Lru.stack (perShard entries s) []).take (c.cap s)

/-- The file leaves no room for the cache: if it can be read, then in every shard it has all the
keys that are there, or as many keys as the shard has room for. -/
def Covers (crc32 : List UInt8 → UInt32) (c : UtxoCache) (file : List UInt8) : Prop :=
  ∀ entries, decode crc32 file = .ok entries → ∀ s,
    (∀ key ∈ (c.shards s).keys, key ∈ (perShard entries s).map Prod.fst) ∨
      c.cap s ≤ ((perShard entries s).map Prod.fst).toFinset.card

theorem loadFromFile_of_error {file : List UInt8} {e : IoError}
    (read : decode crc32 file = .error e) :
    c.loadFromFile crc32 (some file) = (.error e, c) := by
  unfold loadFromFile
  simp only [read]

theorem loadFromFile_of_ok {file : List UInt8} {entries : List Entry}
    (read : decode crc32 file = .ok entries) :
    c.loadFromFile crc32 (some file) = (.ok (loaded entries), c.insertAll entries) := by
  unfold loadFromFile
  simp only [read]

/-- A load that fails leaves the cache as it was, and a load that succeeds replaces its contents
just when the file leaves no room for them. -/
theorem replaces_iff_covers (crc32 : List UInt8 → UInt32) (c : UtxoCache) (file : List UInt8) :
    Replaces crc32 c file ↔ Covers crc32 c file := by
  have replaced (entries : List Entry) (s : Fin numShards) :
      ((c.insertAll entries).shards s).entries =
          (Lru.stack (perShard entries s) []).take (c.cap s) ↔
        (∀ key ∈ (c.shards s).keys, key ∈ (perShard entries s).map Prod.fst) ∨
          c.cap s ≤ ((perShard entries s).map Prod.fst).toFinset.card :=
    Lru.entries_puts_reverse_eq_iff (c.shards s) (perShard entries s)
  constructor
  · intro h entries read s
    obtain ⟨decoded, again, holds⟩ := h.succeeded _ _ (loadFromFile_of_ok read)
    rw [read] at again
    cases again
    exact (replaced entries s).mp (holds s)
  · intro covers
    refine ⟨fun e after load => ?_, fun n after load => ?_⟩
    · cases read : decode crc32 file with
      | error e' =>
        rw [loadFromFile_of_error read] at load
        cases load
        rfl
      | ok entries =>
        rw [loadFromFile_of_ok read] at load
        cases load
    · cases read : decode crc32 file with
      | error e' =>
        rw [loadFromFile_of_error read] at load
        cases load
      | ok entries =>
        rw [loadFromFile_of_ok read] at load
        have same : c.insertAll entries = after := (Prod.mk.inj load).2
        subst same
        exact ⟨entries, rfl, fun s => (replaced entries s).mpr (covers entries read s)⟩

/-- The file of an empty cache is read, and an entry that was there stays. -/
theorem entry_survives_load :
    ¬ Replaces (fun _ => 0) ((UtxoCache.new 16).insert ⟨0, 0⟩ ⟨0, 1, .P2PK, none⟩)
      (saveToFile (fun _ => 0) (.new 16) 0).1 := by
  intro h
  have read : decode (fun _ => 0) (saveToFile (fun _ => 0) (.new 16) 0).1 = .ok [] := by
    decide +kernel
  obtain ⟨entries, again, holds⟩ := h.succeeded _ _ (loadFromFile_of_ok read)
  rw [read] at again
  cases again
  have here := holds (shardIndex ⟨0, 0⟩)
  revert here
  decide +kernel

end UtxoCache

end ChainGraph

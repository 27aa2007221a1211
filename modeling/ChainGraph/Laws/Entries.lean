import ChainGraph.Foundation.Runs
import ChainGraph.Laws.Loader
import ChainGraph.Laws.Prewarm
import ChainGraph.Laws.Snapshot
import ChainGraph.Laws.Truthful

/-!
# Entries that are right, in the cache and in its file

An entry is right if it says of its key what the id denotes, and lies in the shard of its key.
Whatever the orchestrator does, entries stay in their shards; a file saved from right entries is
read back as right entries, and a load of it lays them over right ones. Pre-warming puts in right
entries too, from blocks of the chain whose scripts its classifier knows.
-/

namespace ChainGraph

open Foundation

namespace IngestionOrchestrator

open UtxoCache

variable {o : IngestionOrchestrator} {U : Denotation} {c c' c₀ : UtxoCache}
  {crc32 : List UInt8 → UInt32} {file : Option (List UInt8)}

/-! ## Right entries -/

/-- Every entry is in the shard of its key, and is what its id denotes. -/
def Sure (o : IngestionOrchestrator) (U : Denotation) (c : UtxoCache) : Prop :=
  ∀ s, ∀ e ∈ (c.shards s).entries, shardIndex e.1 = s ∧ o.valueOf U e.1 = some e.2

theorem sure_new (capacity : ℕ) : o.Sure U (.new capacity) := fun _ _ mem => by cases mem

theorem Sure.truthful (sure : o.Sure U c) : o.Truthful U c := fun k v present =>
  (sure (shardIndex k) (k, v) (Lru.peek_eq_some.mp present)).2

/-- New entries that are right, beside old ones. -/
theorem Sure.stems (sure : o.Sure U c) (stems : Stems (fun e => o.valueOf U e.1 = some e.2) c c') :
    o.Sure U c' := by
  intro s e mem
  rcases stems.entries s e mem with old | new
  · exact sure s e old
  · exact new

/-- Entries that stay in their shards, in a cache that is right about what it is asked. -/
theorem Sure.of_truthful (sure : o.Sure U c) (stems : Stems (fun _ => True) c c')
    (truthful : o.Truthful U c') : o.Sure U c' := by
  intro s e mem
  have home : shardIndex e.1 = s := by
    rcases stems.entries s e mem with old | new
    · exact (sure s e old).1
    · exact new.1
  subst home
  exact ⟨rfl, truthful e.1 e.2 (Lru.peek_eq_some.mpr mem)⟩

/-! ## The file -/

/-- What ids denote fits the format of the file. -/
def Recordable (o : IngestionOrchestrator) (U : Denotation) : Prop :=
  ∀ k v, o.valueOf U k = some v → Writable (k, v)

/-- The entries that can be read from a file are right. -/
def RightFile (o : IngestionOrchestrator) (U : Denotation) (crc32 : List UInt8 → UInt32)
    (file : Option (List UInt8)) : Prop :=
  ∀ bytes entries, file = some bytes → decode crc32 bytes = .ok entries →
    ∀ e ∈ entries, o.valueOf U e.1 = some e.2

theorem rightFile_none : o.RightFile U crc32 none := fun _ _ none => by cases none

/-- **Loading** a right file. -/
theorem Sure.loadFromFile (sure : o.Sure U c) (right : o.RightFile U crc32 file) :
    o.Sure U (c.loadFromFile crc32 file).2 := by
  unfold UtxoCache.loadFromFile
  split
  · exact sure
  · rename_i bytes
    split
    · exact sure
    · rename_i entries read
      exact sure.stems (stems_insertAll c (right bytes entries rfl read))

theorem Sure.lawful (sure : o.Sure U c) (recordable : o.Recordable U)
    (room : ((List.finRange numShards).map c.cap).sum < 2 ^ 64) : Lawful c where
  fits s e mem := by
    obtain ⟨home, value⟩ := sure s e mem
    have writable := recordable e.1 e.2 value
    exact ⟨home, writable.vout, writable.outputIndex⟩
  room := room

/-- **Saving** right entries. -/
theorem Sure.saveToFile (sure : o.Sure U c) (recordable : o.Recordable U)
    (room : ((List.finRange numShards).map c.cap).sum < 2 ^ 64) (height : ℕ) :
    o.RightFile U crc32 (some (c.saveToFile crc32 height).1) := by
  have decoded : UtxoCache.decode crc32 (c.saveToFile crc32 height).1 = .ok c.allEntries :=
    decode_saveToFile (sure.lawful recordable room) height
      fun s e mem => (recordable e.1 e.2 (sure s e mem).2).address
  intro bytes entries same read e mem
  cases same
  cases decoded.symm.trans read
  obtain ⟨s, -, inside⟩ := List.mem_flatMap.mp mem
  exact (sure s e inside).2

/-! ## Entries stay in their shards -/

section Stay

/-- The entries stem from those of a cache. -/
def StemsFrom (c₀ : UtxoCache) (w : World neo4j UtxoCache) : Prop :=
  Stems (fun _ => True) c₀ w.memory

/-- Wherever the program is, its entries stem from those of a cache. -/
abbrev Stays {α : Type} (c₀ : UtxoCache) (p : Ingest α) (w : World neo4j UtxoCache) : Prop :=
  Prog.Keeps World.handle (fun _ _ => True) (StemsFrom c₀) (fun _ _ => True) p w

variable {w : World neo4j UtxoCache}

theorem stays_io {α : Type} (p : Io α) (stems : StemsFrom c₀ w) : Stays c₀ (io p) w := by
  unfold io
  induction p generalizing w with
  | ret a => exact ⟨stems, trivial⟩
  | fail e => exact stems
  | vis call k ih => exact ⟨stems, fun _ => ih _ stems⟩

theorem stays_setCache (stems : Stems (fun _ => True) c₀ c) (here : StemsFrom c₀ w) :
    Stays c₀ (setCache c) w := ⟨here, fun _ => ⟨stems, trivial⟩⟩

theorem keeps_getCache (stems : StemsFrom c₀ w) :
    Prog.Keeps World.handle (fun _ _ => True) (StemsFrom c₀)
      (fun c _ => Stems (fun _ => True) c₀ c) getCache w := ⟨stems, fun _ => ⟨stems, stems⟩⟩

theorem stays_modifyCache {f : UtxoCache → UtxoCache} (each : ∀ c, Stems (fun _ => True) c (f c))
    (stems : StemsFrom c₀ w) : Stays c₀ (modifyCache f) w :=
  (keeps_getCache stems).bind fun c _ here stems => stays_setCache (stems.trans (each c)) here

theorem stays_spawnAll (tasks : List (Io Unit)) (stems : StemsFrom c₀ w) :
    Stays c₀ (spawnAll tasks) w := by
  refine ⟨stems, fun _ => ?_⟩
  cases (World.handle (.fork tasks) w).1 with
  | ok u => exact ⟨stems, trivial⟩
  | error e => exact stems

theorem stems_populateCache (outputs : List OutputData) (c : UtxoCache) :
    Stems (fun _ => True) c (populateCache outputs c) :=
  Stems.foldl (fun c _ _ => stems_insert c trivial) c

theorem stems_supplement (keys : List UtxoKey) (found : Found) (c : UtxoCache) :
    Stems (fun _ => True) c (supplement keys found c).1 := by
  have steps : ∀ (l : List UtxoKey) (acc : UtxoCache × Found),
      Stems (fun _ => True) acc.1 (l.foldl supplementStep acc).1 := by
    intro l
    induction l with
    | nil => exact fun acc => .refl _ acc.1
    | cons key l ih =>
      intro acc
      have first : Stems (fun _ => True) acc.1 (supplementStep acc key).1 := by
        have after := stems_getQuiet (P := fun _ => True) acc.1 key
        unfold supplementStep
        split
        · exact .refl _ acc.1
        · split
          · rename_i look
            rwa [look] at after
          · rename_i look
            rwa [look] at after
      exact first.trans (ih _)
  exact steps keys (c, found)

theorem stays_prefetchUtxos (keys : List UtxoKey) (stems : StemsFrom c₀ w) :
    Stays c₀ (prefetchUtxos keys) w := by
  unfold prefetchUtxos
  split
  · exact .pure stems trivial
  · refine (keeps_getCache stems).bind fun c w₁ here from₀ => ?_
    have looked := from₀.trans (stems_getMany (P := fun _ => True) c keys)
    dsimp only
    refine (stays_setCache looked here).bind fun _ w₂ here _ => ?_
    split
    · exact .pure here trivial
    · refine (stays_io _ here).bind fun results w₃ here _ => ?_
      have absorbed := looked.trans
        (stems_absorbResults results _ (c.getMany keys).2.1 (c.getMany keys).2.2)
      dsimp only
      refine (stays_setCache ?_ here).bind fun _ w₄ here _ => .pure here trivial
      split
      · exact absorbed.withStats _
      · exact absorbed

theorem stays_processBatchChunk (chunk : List LocatedBlock) (found : Found)
    (stems : StemsFrom c₀ w) : Stays c₀ (o.processBatchChunk chunk found) w := by
  unfold processBatchChunk
  dsimp only
  refine (stays_io _ stems).bind fun _ w₁ here _ => ?_
  refine (stays_io _ here).attempt.bind fun written w₂ here _ => ?_
  refine (stays_modifyCache (stems_populateCache _) here).bind fun _ w₃ here _ => ?_
  cases written with
  | error e => exact .throw here
  | ok u =>
    refine (keeps_getCache here).bind fun c w₄ here from₀ => ?_
    have supplemented := from₀.trans
      (stems_supplement ((chunk.flatMap (·.block.txdata)).flatMap Transaction.inputKeys) found c)
    dsimp only
    refine (stays_setCache supplemented here).bind fun _ w₅ here _ => ?_
    refine (stays_io _ here).bind fun _ w₆ here _ => ?_
    refine (stays_io _ here).bind fun _ w₇ here _ => ?_
    refine (stays_io _ here).bind fun _ w₈ here _ => ?_
    refine (stays_spawnAll _ here).bind fun _ w₉ here _ => ?_
    refine (stays_modifyCache (fun c => stems_removeMany c _) here).bind fun _ w₁₀ here _ => ?_
    exact (stays_io _ here).bind fun _ w₁₁ here _ => .pure here trivial

/-- **A chunk** leaves every entry in its shard, whether or not it is committed. -/
theorem stays_ingestChunk (chunk : List LocatedBlock) (w : World neo4j UtxoCache) :
    Stays w.memory (o.ingestChunk chunk) w := by
  have start : StemsFrom w.memory w := .refl _ _
  unfold ingestChunk
  refine (stays_io _ start).bind fun _ w₁ here _ => ?_
  refine (stays_prefetchUtxos _ here).bind fun found w₂ here _ => ?_
  refine (stays_io _ here).bind fun _ w₃ here _ => ?_
  refine (stays_processBatchChunk chunk found here).attempt.bind fun r w₄ here _ => ?_
  cases r with
  | ok counts => exact (stays_io _ here).bind fun _ w₅ here _ => .pure here trivial
  | error e => exact (stays_io _ here).attempt.bind fun _ w₅ here _ => .throw here

end Stay

/-! ## Pre-warming -/

section Warm

open SingleBlockLoader BlockIndex

variable {l l' l₀ : SingleBlockLoader} {P : UtxoCache.Entry → Prop}

/-- A walk over blocks whose entries are in `P`. -/
theorem stems_walk {crate : AddressCrate} {network : Network} (opened : Open l₀.reader)
    (sole : Sole l₀.reader) (each : ∀ height b, l₀.answer height = .ok (some b) →
      ∀ e ∈ prewarmEntries crate network b.block, P e)
    {remaining loaded height n : ℕ} (knows : Knows l₀ l)
    (done : prewarmBack crate network remaining loaded height l c = .ok (n, l', c')) :
    Stems P c c' := by
  induction remaining generalizing loaded height l c with
  | zero =>
    cases done
    exact .refl ..
  | succ remaining ih =>
    unfold prewarmBack at done
    split at done
    · cases done
      exact .refl ..
    split at done
    · cases done
      exact .refl ..
    · obtain ⟨l₁, knows₁, load⟩ := loadBlock_eq knows opened sole height
      rw [load] at done
      obtain ⟨⟨data, l₂⟩, found, rest⟩ := Checked.bind_eq_ok.mp done
      obtain ⟨data', answered, same⟩ := Checked.bind_eq_ok.mp found
      cases same
      cases data with
      | none =>
        cases rest
        exact .refl ..
      | some located =>
        have inserted := stems_prewarmInsert (each height located answered) c
        dsimp only at rest
        split at rest
        · rename_i refused
          rw [refused] at inserted
          cases rest
          exact inserted
        · rename_i taken
          rw [taken] at inserted
          exact inserted.trans (ih knows₁ rest)

/-- A walk over blocks that can all be read. -/
theorem ok_walk {crate : AddressCrate} {network : Network} (opened : Open l₀.reader)
    (sole : Sole l₀.reader) (reads : ∀ height, ∃ data, l₀.answer height = .ok data)
    {remaining loaded height : ℕ} (knows : Knows l₀ l) :
    ∃ n l' c', prewarmBack crate network remaining loaded height l c = .ok (n, l', c') := by
  induction remaining generalizing loaded height l c with
  | zero => exact ⟨loaded, l, c, rfl⟩
  | succ remaining ih =>
    unfold prewarmBack
    split
    · exact ⟨loaded, l, c, rfl⟩
    split
    · exact ⟨loaded, l, c, rfl⟩
    · obtain ⟨l₁, knows₁, load⟩ := loadBlock_eq knows opened sole height
      obtain ⟨data, answered⟩ := reads height
      rw [load, answered]
      cases data with
      | none => exact ⟨loaded, l₁, c, rfl⟩
      | some located =>
        simp only [bind, Except.bind, pure, Except.pure]
        split
        · exact ⟨loaded, l₁, _, rfl⟩
        · exact ih knows₁

/-- **Pre-warming** from a directory whose blocks can all be read leaves entries of its blocks. -/
theorem stems_warmed {crate : AddressCrate} {network : Network} (opened : Open l.reader)
    (sole : Sole l.reader) (fresh : l.blockIndex = ∅)
    (reads : ∀ height, ∃ data, l.answer height = .ok data)
    (each : ∀ height b, l.answer height = .ok (some b) →
      ∀ e ∈ prewarmEntries crate network b.block, P e) (startHeight maxBlocks : ℕ) :
    ∃ c', warmed (l.prewarmCache crate network c startHeight maxBlocks) = .ok c' ∧
      Stems P c c' := by
  unfold prewarmCache
  split
  · exact ⟨c, rfl, .refl ..⟩
  · obtain ⟨batch, _, load, scanned⟩ := (Knows.fresh fresh).preloadRange opened.opens
      (startHeight - maxBlocks) (startHeight - 1)
    have knows := (Knows.fresh fresh).withBatch scanned
    obtain ⟨n, l', c', done⟩ : ∃ n l' c', prewarmBack crate network maxBlocks 0
        (startHeight - 1) (l.withBatch batch) c = .ok (n, l', c') :=
      ok_walk opened sole reads knows
    refine ⟨c', ?_, stems_walk opened sole each knows done⟩
    unfold preloadFullRange
    rw [load]
    simp only [bind, Except.bind]
    rw [done]
    rfl

/-- The entries a walk makes of a block are right, if its classifier knows the scripts. -/
theorem value_prewarmEntries (standard : o.crate.Standard) (recordable : o.Recordable U)
    {block : Block} (denoted : Denotes U block.txdata)
    (known : ∀ tx ∈ block.txdata, ∀ output ∈ tx.output,
      ¬ Overlooked o.crate output.scriptPubkey)
    {e : UtxoCache.Entry} (mem : e ∈ prewarmEntries o.crate o.network block) :
    o.valueOf U e.1 = some e.2 := by
  obtain ⟨tx, inBlock, inTx⟩ := List.mem_flatMap.mp mem
  obtain ⟨⟨output, i⟩, at_i, rfl⟩ := List.mem_map.mp inTx
  have here : tx.output[i]? = some output := List.mem_zipIdx_iff_getElem?.mp at_i
  have value : o.valueOf U ⟨tx.txid, i⟩ =
      some (.ofOutput (.fromOutput o.crate output tx.txid (asU32 i) o.network)) := by
    unfold valueOf rowOf
    dsimp only
    rw [denoted tx inBlock, here]
    rfl
  have small : i < 2 ^ 32 := (recordable _ _ value).vout
  have agree : Agree o.crate o.network output.scriptPubkey :=
    (agree_iff standard).mpr (known tx inBlock output (List.mem_of_getElem? here))
  show o.valueOf U ⟨tx.txid, asU32 i⟩ = some (prewarmOutput o.crate o.network (asU32 i) output)
  rw [asU32_of_lt small] at value ⊢
  rw [value]
  unfold prewarmOutput CachedOutput.ofOutput OutputData.fromOutput
  rw [agree.1, agree.2]

end Warm

end IngestionOrchestrator

end ChainGraph

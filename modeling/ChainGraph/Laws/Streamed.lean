import ChainGraph.Laws.Directory
import ChainGraph.Laws.Entries
import ChainGraph.Laws.Files
import ChainGraph.Laws.Ledger

/-!
# From block files to the database

Processes that resume over the block files of a chain, one after the other, each cut off somewhere
or not. Whenever the next one looks, the database mirrors the first blocks of the chain, never fewer
than before, and the entries of the cache file are right. A process that is not cut off ends without
an error, and leaves fewer blocks out than a batch has, or none up to the last height it was given.
-/

namespace ChainGraph

open Foundation Foundation.Store

/-! ## Recovery keeps the checkpoint -/

/-- There is a checkpoint, and it does not say that ingestion is complete. -/
def Graph.Ongoing (g : Graph) : Prop := ∃ c, g.checkpoint = some c ∧ c.status ≠ "completed"

/-- The statements of recovery, that move the checkpoint or leave it. -/
def Query.Proceeds : Query → Prop
  | .rollbackDeleteInputs _ => True
  | .rollbackDeleteOutputs _ => True
  | .rollbackDeleteTransactions _ => True
  | .rollbackDeleteBlock _ => True
  | .updateCheckpoint c => c.status ≠ "completed"
  | _ => False

namespace IngestionOrchestrator

open Neo4jWriter

variable {o : IngestionOrchestrator}

theorem proceeds_rollbackBlock (height : ℕ) : OnlySends Query.Proceeds (rollbackBlock height) := by
  apply sends_rollbackBlock
  intro step mem
  simp only [rollbackSteps, List.mem_cons, List.not_mem_nil, or_false] at mem
  rcases mem with rfl | rfl | rfl | rfl <;> trivial

theorem proceeds_findComplete (checkpointHeight : ℤ) (heights : List ℕ) :
    OnlySends Query.Proceeds (findComplete checkpointHeight heights) := by
  induction heights with
  | nil => trivial
  | cons height rest ih =>
    refine (sends_checkBlockComplete height).bind fun counts => ?_
    obtain ⟨expected, actual⟩ := counts
    dsimp only
    split
    · trivial
    · exact (proceeds_rollbackBlock height).bind fun _ => ih

theorem proceeds_getResumeHeight : OnlySends Query.Proceeds o.getResumeHeight := by
  refine sends_getCheckpoint.bind fun checkpoint => ?_
  cases checkpoint with
  | none => trivial
  | some checkpoint =>
    dsimp only
    split <;> trivial

theorem proceeds_syncCheckpointWithDb : OnlySends Query.Proceeds o.syncCheckpointWithDb := by
  refine sends_getCheckpoint.bind fun checkpoint => ?_
  dsimp only
  refine sends_getMaxBlockHeight.bind fun maxDbHeight => ?_
  cases maxDbHeight with
  | none => exact proceeds_getResumeHeight
  | some dbHeight =>
    dsimp only
    split
    · refine (proceeds_findComplete _ _).bind fun highestComplete => ?_
      have saves : OnlySends Query.Proceeds (o.saveRecovered checkpoint highestComplete) :=
        (sends_lookupBlockHash _).bind fun _ => sends_updateCheckpoint (by simp [Query.Proceeds])
      split
      · exact saves.bind fun _ => trivial
      · trivial
    · exact proceeds_getResumeHeight

theorem ongoing_exec {q : Query} {g g' : Graph} (proceeds : q.Proceeds) (ongoing : g.Ongoing)
    (ran : Query.exec q g = .ok g') : g'.Ongoing := by
  cases q with
  | rollbackDeleteInputs | rollbackDeleteOutputs | rollbackDeleteTransactions =>
    cases ran
    exact ongoing
  | rollbackDeleteBlock height =>
    cases ran
    unfold Graph.Ongoing Graph.detachDeleteBlockAt
    split <;> exact ongoing
  | updateCheckpoint c =>
    cases ran
    exact ⟨_, rfl, proceeds⟩
  | _ => exact proceeds.elim

/-- Recovery leaves a checkpoint that is not complete. -/
theorem ongoing_syncCheckpointWithDb {g : Graph} (ongoing : g.Ongoing) {r : Except WriterError ℕ}
    {s : Store neo4j} (ran : o.syncCheckpointWithDb.run handle ⟨g, none⟩ = (r, s)) :
    s.committed.Ongoing := by
  have inv : (o.syncCheckpointWithDb.run handle ⟨g, none⟩).2.Lawful Graph.Ongoing :=
    Prog.Always.run (S := fun s : Store neo4j => s.Lawful Graph.Ongoing)
      (fun call s sends inv => inv.handle_obeys
        (fun q db db' proceeds ongoing ran => ongoing_exec proceeds ongoing ran) call sends.obeys)
      proceeds_syncCheckpointWithDb (.idle ongoing)
  rw [ran] at inv
  exact inv.committed

end IngestionOrchestrator

/-! ## A process at work on a chain -/

/-- A chain, and what a process needs to ingest it: what its txids denote can be written to the
cache file, and the cache has room for every chunk. -/
structure Course (o : IngestionOrchestrator) where
  chain : List LocatedBlock
  denotation : Denotation
  capacity : ℕ
  valid : Valid denotation chain
  recordable : o.Recordable denotation
  word : ((List.finRange numShards).map (UtxoCache.new capacity).cap).sum < 2 ^ 64
  room : ∀ blocks, blocks <:+: chain → o.Roomy (UtxoCache.new capacity).cap blocks

namespace Course

open Process IngestionOrchestrator

variable {o : IngestionOrchestrator} (d : Course o) (crc32 : List UInt8 → UInt32)

/-- What one process leaves to the next, with the first `count` blocks stored. -/
structure Rests (count : ℕ) (s : State) : Prop where
  within : count ≤ d.chain.length
  mirrors : o.Mirrors (d.chain.take count) s.graph
  file : o.RightFile d.denotation crc32 s.file
  ongoing : s.graph.Ongoing

/-- A process at work, with the first `count` blocks stored. -/
structure Works (count : ℕ) (s : State) : Prop extends d.Rests crc32 count s where
  free : s.Free
  sure : o.Sure d.denotation s.world.memory
  cap : s.world.memory.cap = (UtxoCache.new d.capacity).cap

/-- A process at work, with no fewer blocks stored. -/
def Moment (first : ℕ) (s : State) : Prop := ∃ count, first ≤ count ∧ d.Works crc32 count s

/-- The surroundings serve the first `size` blocks of the chain. -/
structure Served (config : Config) (out : Outside) (size : ℕ) : Prop where
  within : size ≤ d.chain.length
  load : ∀ height, out.load height =
    .ok ((d.chain.take size)[height]?.map fun b => (b.block, b.fileName))
  preload : out.preload = .ok ()
  prewarm : config.utxoPrewarmDepth > 0 → ∀ startHeight c, o.Sure d.denotation c →
    ∃ c', out.prewarm startHeight c = .ok c' ∧ o.Sure d.denotation c' ∧ c'.cap = c.cap

variable {d crc32} (config : Config) (out : Outside) {s s' : State} {count first size : ℕ}

theorem Works.moment (works : d.Works crc32 count s) (low : first ≤ count) :
    d.Moment crc32 first s := ⟨count, low, works⟩

theorem Moment.weaken {lower : ℕ} (moment : d.Moment crc32 first s) (low : lower ≤ first) :
    d.Moment crc32 lower s := by
  obtain ⟨count, above, works⟩ := moment
  exact ⟨count, low.trans above, works⟩

/-! ## Calls -/

section Calls

variable {α : Type} {S : State → Prop} {c : Op} {r : Reply c}
  {post : Except String α → State → Prop}

/-- A call whose effect is known, and what comes after it. -/
theorem passes_call {out : Outside} {f : Reply c → Proc α}
    (acts : Process.handle o crc32 out c s = (r, s'))
    (here : S s) (rest : Prog.Passes (Process.handle o crc32 out) S post (f r) s') :
    Prog.Passes (Process.handle o crc32 out) S post (perform c >>= f) s := by
  refine ⟨here, ?_⟩
  rw [acts]
  exact rest

end Calls

/-- The world and the file are the same. -/
theorem Works.congr (works : d.Works crc32 count s) (world : s'.world = s.world)
    (file : s'.file = s.file) : d.Works crc32 count s' := by
  obtain ⟨⟨within, mirrors, right, ongoing⟩, free, sure, cap⟩ := works
  unfold State.graph at mirrors ongoing
  unfold State.Free at free
  refine ⟨⟨within, ?_, file ▸ right, ?_⟩, ?_, world ▸ sure, world ▸ cap⟩
  · unfold State.graph
    rw [world]
    exact mirrors
  · unfold State.graph
    rw [world]
    exact ongoing
  · unfold State.Free
    rw [world]
    exact free

/-- Only the cache is another. -/
theorem Works.withMemory (works : d.Works crc32 count s) {memory : UtxoCache}
    (sure : o.Sure d.denotation memory) (cap : memory.cap = s.world.memory.cap) (clock : ℕ) :
    d.Works crc32 count { s with world := { s.world with memory }, clock } :=
  ⟨⟨works.within, works.mirrors, works.file, works.ongoing⟩, works.free, sure,
    cap.trans works.cap⟩

/-- Only the cache file is another. -/
theorem Works.withFile (works : d.Works crc32 count s) {file : Option (List UInt8)}
    (right : o.RightFile d.denotation crc32 file) (clock : ℕ) :
    d.Works crc32 count { s with file, clock } :=
  ⟨⟨works.within, works.mirrors, right, works.ongoing⟩, works.free, works.sure, works.cap⟩

/-- The cache file is saved, or cannot be written. -/
theorem Works.saveToFile (works : d.Works crc32 count s) (site : SaveSite) (height : ℕ) :
    ∃ r s', Process.handle o crc32 out (.saveToFile site height) s = (r, s') ∧
      d.Works crc32 count s' := by
  by_cases written : out.writable s.clock = true
  · have word : ((List.finRange numShards).map s.world.memory.cap).sum < 2 ^ 64 :=
      works.cap ▸ d.word
    refine ⟨.ok (), _, ?_,
      works.withFile (works.sure.saveToFile d.recordable word height) (s.clock + 1)⟩
    simp only [Process.handle, act, written, if_true]
  · refine ⟨.error "cache file cannot be written", { s with clock := s.clock + 1 }, ?_,
      works.congr rfl rfl⟩
    simp only [Process.handle, act, if_neg written]

/-- The cache file is loaded, or cannot be read. -/
theorem Works.loadFromFile (works : d.Works crc32 count s) :
    ∃ r s', Process.handle o crc32 out .loadFromFile s = (r, s') ∧ d.Works crc32 count s' := by
  refine ⟨_, _, rfl, works.withMemory (works.sure.loadFromFile works.file) ?_ (s.clock + 1)⟩
  have stems : UtxoCache.Stems (fun _ => True) s.world.memory
      (s.world.memory.loadFromFile crc32 s.file).2 :=
    UtxoCache.stems_loadFromFile _ fun _ _ _ _ _ => trivial
  exact funext stems.cap

/-! ## Chunks and batches -/

/-- The first blocks of the chain are a chain. -/
theorem valid_take (d : Course o) (count : ℕ) : Valid d.denotation (d.chain.take count) := by
  have whole := d.valid
  rw [← List.take_append_drop count d.chain] at whole
  exact whole.left

/-- The chain up to where the next blocks end is a chain. -/
theorem valid_next {blocks : List LocatedBlock}
    (next : d.chain.take (count + blocks.length) = d.chain.take count ++ blocks) :
    Valid d.denotation (d.chain.take count ++ blocks) := by
  rw [← next]
  exact d.valid_take (count + blocks.length)

/-- **The next chunk** is committed. -/
theorem Works.ingestChunk (works : d.Works crc32 count s) {chunk : List LocatedBlock}
    (next : d.chain.take (count + chunk.length) = d.chain.take count ++ chunk)
    (within : count + chunk.length ≤ d.chain.length) (some : chunk ≠ [])
    (room : ∀ k, (sameShard k (o.outputRows chunk)).length ≤
      (UtxoCache.new d.capacity).cap (UtxoCache.shardIndex k)) :
    ∃ counts s', Process.handle o crc32 out (.ingestChunk chunk) s = (.ok counts, s') ∧
      d.Works crc32 (count + chunk.length) s' := by
  have valid := valid_next next
  have fits : o.Fits d.denotation s.world (chunk ++ []) := by
    rw [List.append_nil]
    exact works.mirrors.fits ⟨works.free, works.sure.truthful, works.cap⟩ valid
  have retains : o.Retains s.world.memory.cap chunk := by
    have rows := fits.ready.rows
    have alone : [chunk].flatten = chunk := by simp
    rw [← alone] at rows
    refine retains_of_room (rows.nodup_outputIds (List.mem_singleton.mpr rfl)) ?_
    exact works.cap ▸ room
  obtain ⟨counts, w', ran, ready, truthful, step⟩ := fits.ready.commitChunk fits.truthful retains
    fits.parent.left fits.newBlocks
  have mirrors := works.mirrors.advance valid step.grown ready.sound step.checkpoint
  have stays : UtxoCache.Stems (fun _ => True) s.world.memory w'.memory := by
    have final := (stays_ingestChunk (o := o) chunk s.world).final
    rw [ran] at final
    exact final
  refine ⟨counts, { s with
    world := w', clock := s.clock + 1, rolledBack := s.rolledBack && ! true }, ?_, ?_⟩
  · simp only [Process.handle, act, State.orchestrate, ran]
    rfl
  · refine ⟨⟨within, next ▸ mirrors, works.file, ?_⟩, ready.free,
      works.sure.of_truthful stays truthful, step.cap.trans works.cap⟩
    obtain ⟨last, found⟩ : ∃ last, chunk.getLast? = .some last := by
      cases found : chunk.getLast? with
      | none => exact absurd (List.getLast?_eq_none_iff.mp found) some
      | some last => exact ⟨last, rfl⟩
    refine ⟨.ofData (chunkCheckpoint last), ?_, ?_⟩
    · show w'.store.committed.checkpoint = _
      rw [step.checkpoint, lastCheckpoint, found]
      rfl
    · simp [Checkpoint.ofData, chunkCheckpoint]

theorem passes_trySaveSnapshot (works : d.Works crc32 count s) (height : ℕ) (low : first ≤ count) :
    Prog.Passes (Process.handle o crc32 out) (d.Moment crc32 first)
      (fun r s' => r = .ok () ∧ d.Works crc32 count s') (trySaveSnapshot config height) s := by
  unfold trySaveSnapshot
  split
  · obtain ⟨r, s', acts, works'⟩ := works.saveToFile out .chunk height
    exact passes_call acts (works.moment low) (.pure (works'.moment low) ⟨rfl, works'⟩)
  · exact .pure (works.moment low) ⟨rfl, works⟩

/-- Chunks that follow one another. -/
theorem passes_ingestChunks {chunks : List (List LocatedBlock)} (works : d.Works crc32 count s)
    (next : d.chain.take (count + chunks.flatten.length) =
      d.chain.take count ++ chunks.flatten)
    (within : count + chunks.flatten.length ≤ d.chain.length)
    (some : ∀ chunk ∈ chunks, chunk ≠ [])
    (room : ∀ chunk ∈ chunks, ∀ k, (sameShard k (o.outputRows chunk)).length ≤
      (UtxoCache.new d.capacity).cap (UtxoCache.shardIndex k)) (low : first ≤ count) :
    Prog.Passes (Process.handle o crc32 out) (d.Moment crc32 first)
      (fun r s' => r = .ok (.ok ()) ∧ d.Works crc32 (count + chunks.flatten.length) s')
      (Process.ingestChunks config chunks) s := by
  induction chunks generalizing count s with
  | nil => exact .pure (works.moment low) ⟨rfl, works⟩
  | cons chunk rest ih =>
    rw [List.flatten_cons, List.length_append] at next within ⊢
    have head : d.chain.take (count + chunk.length) = d.chain.take count ++ chunk := by
      have cut := congrArg (List.take (count + chunk.length)) next
      rw [List.take_take, Nat.min_eq_left (by omega), ← List.append_assoc] at cut
      rw [cut, List.take_left' (by rw [List.length_append, List.length_take]; omega)]
    obtain ⟨counts, s₁, acts, works₁⟩ := works.ingestChunk out head (by omega)
      (some chunk List.mem_cons_self) (room chunk List.mem_cons_self)
    have low₁ : first ≤ count + chunk.length := by omega
    unfold Process.ingestChunks
    refine passes_call acts (works.moment low) ?_
    refine (passes_trySaveSnapshot config out works₁ _ low₁).bind (fun u s₂ _ done => ?_)
      (fun e _ _ failed => by cases failed.1)
    rw [← Nat.add_assoc] at next within ⊢
    refine ih done.2 ?_ within (fun c mem => some c (List.mem_cons_of_mem _ mem))
      (fun c mem => room c (List.mem_cons_of_mem _ mem)) low₁
    rw [next, head, List.append_assoc]

/-- **The next batch** is stored. -/
theorem passes_ingestBlocksBatch {blocks : List LocatedBlock} (works : d.Works crc32 count s)
    (next : d.chain.take (count + blocks.length) = d.chain.take count ++ blocks)
    (within : count + blocks.length ≤ d.chain.length) (low : first ≤ count) :
    Prog.Passes (Process.handle o crc32 out) (d.Moment crc32 first)
      (fun r s' => r = .ok (.ok ()) ∧ d.Works crc32 (count + blocks.length) s')
      (Process.ingestBlocksBatch o config blocks) s := by
  have inside : blocks <:+: d.chain := by
    refine ⟨d.chain.take count, d.chain.drop (count + blocks.length), ?_⟩
    rw [← next, List.take_append_drop]
  have whole := o.flatten_adaptiveChunks blocks
  have next' : d.chain.take (count + (o.adaptiveChunks blocks).flatten.length) =
      d.chain.take count ++ (o.adaptiveChunks blocks).flatten := by
    rw [whole]
    exact next
  have passes := passes_ingestChunks config out works next' (by rw [whole]; exact within)
    (fun chunk mem => o.ne_nil_of_mem_adaptiveChunks blocks mem) (d.room blocks inside) low
  rw [whole] at passes
  exact passes

/-! ## The loop -/

/-- How far a run gets: to the last height it was given, if there is a block at it, and otherwise
to less than a batch before the end of the block files. -/
def Done (batchSize maxHeight size count : ℕ) : Prop :=
  (maxHeight < size → maxHeight < count) ∧
    (size ≤ maxHeight → size < count + max 1 batchSize)

variable {config out}

theorem height_of_getElem? {height : ℕ} {b : LocatedBlock}
    (found : (d.chain.take size)[height]? = some b) : b.height = height := by
  have whole : d.chain[height]? = some b := by
    rw [List.getElem?_take] at found
    split at found
    · exact found
    · cases found
  have heights := congrArg (fun l => l[height]?) (heights_of_fromGenesis d.valid.toFromGenesis)
  obtain ⟨inside, here⟩ := List.getElem?_eq_some_iff.mp whole
  rw [← here]
  simpa [inside] using heights

/-- The block at a height. -/
theorem Served.loadBlock (served : d.Served config out size) (works : d.Works crc32 count s)
    (height : ℕ) : ∃ s', Process.handle o crc32 out (.loadBlock height) s =
      (.ok (d.chain.take size)[height]?, s') ∧ d.Works crc32 count s' := by
  refine ⟨{ s with clock := s.clock + 1 }, ?_, works.congr rfl rfl⟩
  have same : ((d.chain.take size)[height]?.map fun b =>
      (⟨height, b.block, b.fileName⟩ : LocatedBlock)) = (d.chain.take size)[height]? := by
    cases found : (d.chain.take size)[height]? with
    | none => rfl
    | some b =>
      have here := height_of_getElem? found
      simp [← here]
  simp only [Process.handle, act, served.load, Except.map, Option.map_map, Function.comp_def, same]

/-- Before the first block of a batch. -/
theorem next_nil (n : ℕ) : d.chain.take (n + ([] : List LocatedBlock).length) =
    d.chain.take n ++ [] := by simp

/-- The loop with the batch so far, and `m` heights to go. -/
theorem passes_mainLoop (served : d.Served config out size) {m n : ℕ} {batch : List LocatedBlock}
    (works : d.Works crc32 count s) (low : first ≤ count)
    (next : d.chain.take (count + batch.length) = d.chain.take count ++ batch)
    (within : count + batch.length ≤ d.chain.length)
    (small : batch.length < max 1 config.batchSize)
    (ends : count + batch.length + m = config.maxHeight + 1 ∨ config.maxHeight < count ∧ m = 0)
    (flushed : m = 0 → batch = []) :
    Prog.Passes (Process.handle o crc32 out) (d.Moment crc32 first)
      (fun r s' => (∃ n', r = .ok n') ∧
        ∃ count', first ≤ count' ∧ d.Works crc32 count' s' ∧
          Done config.batchSize config.maxHeight size count')
      ((Streaming.mainLoop config.batchSize config.maxHeight
        (List.range' (count + batch.length) m) batch n).interpret (streamingCall o config)) s := by
  induction m generalizing s batch count n with
  | zero =>
    obtain rfl := flushed rfl
    refine .pure (works.moment low) ⟨⟨n, rfl⟩, count, low, works, ?_⟩
    rw [List.length_nil] at ends
    constructor <;> omega
  | succ m ih =>
    rw [List.range'_succ]
    unfold Streaming.mainLoop Streaming.perform
    rw [Prog.interpret_bind, Prog.interpret_perform]
    obtain ⟨s₁, acts, works₁⟩ := served.loadBlock works (count + batch.length)
    refine passes_call acts (works.moment low) ?_
    cases found : (d.chain.take size)[count + batch.length]? with
    | none =>
      refine .pure (works₁.moment low) ⟨⟨n, rfl⟩, count, low, works₁, ?_⟩
      have beyond := List.getElem?_eq_none_iff.mp found
      have short := served.within
      rw [List.length_take] at beyond
      constructor <;> omega
    | some b =>
      obtain ⟨inside, here⟩ := List.getElem?_eq_some_iff.mp found
      rw [List.length_take] at inside
      have length : (batch ++ [b]).length = batch.length + 1 := by simp
      have next' : d.chain.take (count + (batch ++ [b]).length) =
          d.chain.take count ++ (batch ++ [b]) := by
        rw [length, ← Nat.add_assoc, List.take_add_one, next, List.append_assoc]
        rw [List.getElem?_take_of_lt (by omega)] at found
        rw [found]
        rfl
      have start : count + batch.length + 1 = count + (batch ++ [b]).length := by
        rw [length, Nat.add_assoc]
      dsimp only
      split
      · rename_i full
        rw [Prog.interpret_bind, Prog.interpret_perform]
        refine (passes_ingestBlocksBatch config out works₁ next' (by omega) low).bind
          (fun r s₂ _ done => ?_) (fun e _ _ failed => by cases failed.1)
        obtain ⟨answer, works₂⟩ := done
        cases answer
        rw [start]
        refine ih works₂ (by omega) (next_nil _) ?_ ?_ ?_ fun _ => rfl
        · rw [List.length_nil]
          omega
        · rw [List.length_nil]
          omega
        · rw [List.length_nil]
          omega
      · rename_i short
        rw [start]
        refine ih works₁ low next' (by omega) ?_ ?_ ?_
        · omega
        · omega
        · omega

/-! ## The command -/

theorem passes_restoreCache (works : d.Works crc32 count s) (low : first ≤ count) :
    Prog.Passes (Process.handle o crc32 out) (d.Moment crc32 first)
      (fun r s' => r = .ok () ∧ d.Works crc32 count s') (restoreCache config) s := by
  unfold restoreCache
  split
  · obtain ⟨r, s', acts, works'⟩ := works.loadFromFile out
    exact passes_call acts (works.moment low) (.pure (works'.moment low) ⟨rfl, works'⟩)
  · exact .pure (works.moment low) ⟨rfl, works⟩

theorem passes_prewarm (served : d.Served config out size) (works : d.Works crc32 count s)
    (low : first ≤ count) (startHeight : ℕ) (enablePrewarm : Bool) :
    Prog.Passes (Process.handle o crc32 out) (d.Moment crc32 first)
      (fun r s' => r = .ok () ∧ d.Works crc32 count s')
      ((Streaming.prewarm config.toStreamConfig startHeight enablePrewarm).interpret
        (streamingCall o config)) s := by
  unfold Streaming.prewarm Streaming.perform
  split
  · rename_i wanted
    obtain ⟨c', warmed, sure, cap⟩ := served.prewarm wanted.2.1 startHeight _ works.sure
    rw [Prog.interpret_bind, Prog.interpret_perform]
    have acts : Process.handle o crc32 out (.prewarmCache startHeight) s =
        (.ok (), { s with world := { s.world with memory := c' }, clock := s.clock + 1 }) := by
      simp only [Process.handle, act, warmed]
    have works' := works.withMemory sure cap (s.clock + 1)
    exact passes_call acts (works.moment low) (.pure (works'.moment low) ⟨rfl, works'⟩)
  · exact .pure (works.moment low) ⟨rfl, works⟩

theorem passes_preload (served : d.Served config out size) (works : d.Works crc32 count s)
    (low : first ≤ count) (startHeight maxHeight : ℕ) :
    Prog.Passes (Process.handle o crc32 out) (d.Moment crc32 first)
      (fun r s' => r = .ok () ∧ d.Works crc32 count s')
      ((Streaming.preload startHeight maxHeight).interpret (streamingCall o config)) s := by
  unfold Streaming.preload Streaming.perform
  split
  · rw [Prog.interpret_bind, Prog.interpret_perform]
    have acts : Process.handle o crc32 out (.preloadFullRange startHeight maxHeight) s =
        (.ok (), { s with clock := s.clock + 1 }) := by
      simp only [Process.handle, act, served.preload]
    have works' : d.Works crc32 count { s with clock := s.clock + 1 } := works.congr rfl rfl
    exact passes_call acts (works.moment low) (.pure (works'.moment low) ⟨rfl, works'⟩)
  · exact .pure (works.moment low) ⟨rfl, works⟩

theorem passes_saveCache (works : d.Works crc32 count s) (low : first ≤ count) (height : ℕ) :
    Prog.Passes (Process.handle o crc32 out) (d.Moment crc32 first)
      (fun r s' => r = .ok () ∧ d.Works crc32 count s')
      ((Streaming.saveCache config.toStreamConfig height).interpret (streamingCall o config))
      s := by
  unfold Streaming.saveCache Streaming.perform
  split
  · rw [Prog.interpret_bind, Prog.interpret_perform]
    obtain ⟨r, s', acts, works'⟩ := works.saveToFile out .completion height
    exact passes_call acts (works.moment low) (.pure (works'.moment low) ⟨rfl, works'⟩)
  · exact .pure (works.moment low) ⟨rfl, works⟩

/-- **The streaming loop** from the height after the stored blocks. -/
theorem passes_runStreamingIngestion (served : d.Served config out size)
    (works : d.Works crc32 count s) :
    Prog.Passes (Process.handle o crc32 out) (d.Moment crc32 count)
      (fun r s' => r = .ok () ∧
        ∃ count', count ≤ count' ∧ d.Works crc32 count' s' ∧
          Done config.batchSize config.maxHeight size count')
      (Process.runStreamingIngestion o config count true) s := by
  have low := Nat.le_refl count
  unfold Process.runStreamingIngestion Streaming.runStreamingIngestion
  refine (passes_restoreCache works low).bind (fun _ s₁ _ done => ?_)
    (fun e _ _ failed => by cases failed.1)
  simp only [Prog.interpret_bind]
  refine (passes_prewarm served done.2 low count true).bind (fun _ s₂ _ done => ?_)
    (fun e _ _ failed => by cases failed.1)
  refine (passes_preload served done.2 low count config.maxHeight).bind (fun _ s₃ _ done => ?_)
    (fun e _ _ failed => by cases failed.1)
  have within := done.2.within
  refine (passes_mainLoop served done.2 low (next_nil count) within ?_ ?_ fun _ => rfl).bind
    (fun n s₄ _ done => ?_) (fun e _ _ failed => ?_)
  · rw [List.length_nil]
    omega
  · rw [List.length_nil]
    omega
  · obtain ⟨-, count', above, works', done⟩ := done
    refine (passes_saveCache works' above _).mono fun r s' _ saved => ?_
    exact ⟨saved.1, count', above, saved.2, done⟩
  · obtain ⟨⟨n, same⟩, -⟩ := failed
    cases same

/-- The checkpoint is there, and does not end the command. -/
theorem Works.getCheckpoint (works : d.Works crc32 count s) (out : Outside) :
    ∃ c s', Process.handle o crc32 out .getCheckpoint s = (.ok (some c), s') ∧
      c.status ≠ "completed" ∧ d.Works crc32 count s' := by
  obtain ⟨c, found, status⟩ := works.ongoing
  have read : s.world.store.committed.getCheckpoint.isSome := by
    unfold Graph.getCheckpoint
    rw [show s.world.store.committed.checkpoint = some c from found]
    rfl
  obtain ⟨data, here⟩ := Option.isSome_iff_exists.mp read
  refine ⟨data, { s with clock := s.clock + 1 }, ?_, ?_, works.congr rfl rfl⟩
  · simp only [Process.handle, act, State.orchestrate, run_io, Neo4jWriter.run_getCheckpoint, here]
  · unfold Graph.getCheckpoint at here
    rw [show s.world.store.committed.checkpoint = some c from found] at here
    cases here
    exact status

/-- Recovery answers the number of stored blocks. -/
theorem Works.syncCheckpointWithDb (works : d.Works crc32 count s) (out : Outside) :
    ∃ s', Process.handle o crc32 out .syncCheckpointWithDb s = (.ok count, s') ∧
      d.Works crc32 count s' := by
  have valid : Valid d.denotation (d.chain.take count) := d.valid_take count
  obtain ⟨g', started, mirrors⟩ := works.mirrors.startUp valid
  rw [List.length_take, Nat.min_eq_left works.within] at started
  have initialized : o.initSchema.run Store.handle ⟨s.graph, none⟩ =
      (.ok (), ⟨s.graph, none⟩) := by
    obtain ⟨g, ran, same⟩ := run_initSchema (o := o) s.graph
    obtain ⟨c, found, -⟩ := works.ongoing
    rcases same with rfl | ⟨none, -⟩
    · exact ran
    · rw [found] at none
      cases none
  have ran : o.syncCheckpointWithDb.run Store.handle ⟨s.graph, none⟩ =
      (.ok count, ⟨g', none⟩) := (Prog.run_bind_ok initialized).symm.trans started
  have ongoing : g'.Ongoing := ongoing_syncCheckpointWithDb works.ongoing ran
  refine ⟨{ s with world := ⟨⟨g', none⟩, s.world.memory⟩, clock := s.clock + 1 }, ?_,
    ⟨works.within, mirrors, works.file, ongoing⟩, rfl, works.sure, works.cap⟩
  have answered : (io o.syncCheckpointWithDb).run World.handle s.world =
      (.ok count, ⟨⟨g', none⟩, s.world.memory⟩) := by
    rw [world_of_free works.free]
    exact run_io_eq ran
  simp only [Process.handle, act, orchestrate_eq answered]

/-- **`resume`** ends without an error, with at least as many blocks stored. It stops at once when
the last height it was given is the next to store. -/
theorem passes_resume (served : d.Served config out size) (works : d.Works crc32 count s) :
    Prog.Passes (Process.handle o crc32 out) (d.Moment crc32 count)
      (fun r s' => r = .ok () ∧ ∃ count', count ≤ count' ∧ d.Works crc32 count' s' ∧
        (config.maxHeight = count ∨ Done config.batchSize config.maxHeight size count'))
      (Process.resume o config) s := by
  have low := Nat.le_refl count
  unfold Process.resume
  obtain ⟨c, s₁, acts, status, works₁⟩ := works.getCheckpoint out
  refine passes_call acts (works.moment low) ?_
  show Prog.Passes _ _ _ (if c.status = "completed" then _ else _) s₁
  rw [if_neg status]
  obtain ⟨s₂, acts, works₂⟩ := works₁.syncCheckpointWithDb out
  refine passes_call acts (works₁.moment low) ?_
  show Prog.Passes _ _ _ (if count ≥ config.maxHeight ∧ config.maxHeight ≠ Streaming.unbounded
    then _ else _) s₂
  split
  · rename_i reached
    refine .pure (works₂.moment low) ⟨rfl, count, low, works₂, ?_⟩
    rcases Nat.eq_or_lt_of_le reached.1 with same | above
    · exact Or.inl same
    · exact Or.inr ⟨fun _ => above, fun _ => by omega⟩
  · refine (passes_runStreamingIngestion served works₂).mono fun r s' _ ended => ?_
    obtain ⟨answer, count', above, works', done⟩ := ended
    exact ⟨answer, count', above, works', Or.inr done⟩

/-! ## Directories -/

open Files SingleBlockLoader in
/-- A life of `resume` over block files that hold the first `size` blocks of the chain. -/
structure Holds (d : Course o) (life : Life) (size : ℕ) : Prop extends life.Plain where
  command : life.command = .resume
  within : size ≤ d.chain.length
  blocks : ∀ height, life.loader.blockAt height = .ok (d.chain.take size)[height]?

open SingleBlockLoader in
/-- Block files that were written with the first blocks of the chain. -/
theorem holds_of_written {life : Files.Life} {serialize : Block → List UInt8}
    {hash : ℕ → List UInt8} {disk : ℕ → BlockIndex.DiskBlockIndex}
    (written : life.loader.Written serialize ((d.chain.take size).map (·.block)) hash disk)
    (command : life.command = .resume) (within : size ≤ d.chain.length)
    (names : ∀ b ∈ d.chain.take size, b.fileName = blkFileName (disk b.height).file.toNat) :
    d.Holds life size := by
  refine ⟨⟨written.opened, written.sole, written.fresh⟩, command, within, fun height => ?_⟩
  rw [(Knows.fresh written.fresh).blockAt written.opened written.sole, written.answer_eq,
    List.getElem?_map]
  cases found : (d.chain.take size)[height]? with
  | none => rfl
  | some b =>
    have here := height_of_getElem? found
    have name := names b (List.mem_of_getElem? found)
    simp [← here, ← name]

/-- Pre-warming is off, or its classifier knows the scripts of the chain. -/
def Warmable (d : Course o) (config : Config) : Prop :=
  config.utxoPrewarmDepth > 0 → o.crate.Standard ∧
    ∀ tx ∈ txsOf d.chain, ∀ output ∈ tx.output, ¬ Overlooked o.crate output.scriptPubkey

variable {life : Files.Life} (describe : Halt LoaderError → String)

/-- What a walk puts into the cache is right. -/
theorem value_of_walked (standard : o.crate.Standard)
    (known : ∀ tx ∈ txsOf d.chain, ∀ output ∈ tx.output,
      ¬ Overlooked o.crate output.scriptPubkey) {b : LocatedBlock} (mem : b ∈ d.chain)
    {e : UtxoCache.Entry} (entry : e ∈ prewarmEntries o.crate o.network b.block) :
    o.valueOf d.denotation e.1 = some e.2 := by
  have inChain : ∀ tx ∈ b.block.txdata, tx ∈ txsOf d.chain := fun tx inBlock =>
    List.mem_flatMap.mpr ⟨b, mem, inBlock⟩
  exact value_prewarmEntries standard d.recordable
    (fun tx inBlock => d.valid.denoted tx (inChain tx inBlock))
    (fun tx inBlock => known tx (inChain tx inBlock)) entry

theorem Holds.served (out : Outside) (holds : d.Holds life size) (warm : d.Warmable config) :
    d.Served config (Files.reading o config describe life.loader out) size := by
  have answers : ∀ height, life.loader.answer height = .ok (d.chain.take size)[height]? :=
    fun height => by
      rw [← holds.blocks, (SingleBlockLoader.Knows.fresh holds.fresh).blockAt holds.opened
        holds.sole]
  refine ⟨holds.within, fun height => ?_, rfl, fun wanted startHeight c sure => ?_⟩
  · simp only [Files.reading, answers]
    rfl
  · obtain ⟨standard, known⟩ := warm wanted
    obtain ⟨c', done, stems⟩ : ∃ c', SingleBlockLoader.warmed
        (life.loader.prewarmCache o.crate o.network c startHeight config.utxoPrewarmDepth) =
          .ok c' ∧ UtxoCache.Stems (fun e => o.valueOf d.denotation e.1 = some e.2) c c' := by
      refine stems_warmed holds.opened holds.sole holds.fresh
        (fun height => ⟨_, answers height⟩) (fun height b found e mem => ?_) _ _
      have here : (d.chain.take size)[height]? = some b :=
        Except.ok.inj ((answers height).symm.trans found)
      exact value_of_walked standard known
        (List.mem_of_mem_take (List.mem_of_getElem? here)) mem
    refine ⟨c', ?_, sure.stems stems, funext stems.cap⟩
    simp only [Files.reading, done]
    rfl

/-! ## Lives -/

/-- A new process finds the database and the file, and an empty cache. -/
theorem Rests.restarted (rests : d.Rests crc32 count s) :
    d.Works crc32 count (Live.restarted d.capacity s) :=
  ⟨⟨rests.within, rests.mirrors, rests.file, rests.ongoing⟩, rfl, sure_new d.capacity, rfl⟩

/-- **One life** of `resume`. -/
theorem Rests.live (out : Outside) (rests : d.Rests crc32 count s)
    (holds : d.Holds life size) (warm : d.Warmable config) :
    let (ended, left) := Files.live o config crc32 out describe d.capacity life s
    ∃ stored, count ≤ stored ∧ d.Rests crc32 stored left ∧ (life.cut = none →
      ended = some (.ok ()) ∧
        (life.maxHeight = count ∨ Done config.batchSize life.maxHeight size stored)) := by
  rw [Files.live_eq_liveReading holds.toPlain]
  have warm' : d.Warmable { config with maxHeight := life.maxHeight } := warm
  have passes := passes_resume (holds.served describe out warm')
    rests.restarted
  unfold Files.liveReading
  rw [holds.command]
  cases life.cut with
  | some n =>
    obtain ⟨stored, above, works⟩ := passes.crash n
    exact ⟨stored, above, works.toRests, fun whole => by cases whole⟩
  | none =>
    obtain ⟨-, answer, stored, above, works, done⟩ := passes.run
    exact ⟨stored, above, works.toRests, fun _ => ⟨congrArg some answer, done⟩⟩

/-- **From block files to the database.** Processes resume over the block files of a chain, each cut
off somewhere or not. What they leave mirrors the first blocks of the chain, no fewer than before;
and one that is not cut off ends well, with less than a batch left out. -/
theorem resume_lives (d : Course o) (config : Config) (crc32 : List UInt8 → UInt32)
    (out : Outside) (describe : Halt LoaderError → String) (warm : d.Warmable config) {count : ℕ}
    {s : State} (rests : d.Rests crc32 count s) (lives : List Files.Life)
    (held : ∀ life ∈ lives, ∃ size, d.Holds life size) :
    let live := Files.live o config crc32 out describe d.capacity
    ∃ stored, count ≤ stored ∧ d.Rests crc32 stored (Files.inTurn live lives s).2 ∧
      ∀ life size, d.Holds life size → life.cut = none →
        (live life (Files.inTurn live lives s).2).1 = some (.ok ()) ∧
        ∃ stored', stored ≤ stored' ∧
          d.Rests crc32 stored' (live life (Files.inTurn live lives s).2).2 ∧
          (life.maxHeight = stored ∨ Done config.batchSize life.maxHeight size stored') := by
  intro live
  have each : ∃ stored, count ≤ stored ∧ d.Rests crc32 stored (Files.inTurn live lives s).2 := by
    induction lives generalizing s count with
    | nil => exact ⟨count, Nat.le_refl _, rests⟩
    | cons life rest ih =>
      obtain ⟨size, holds⟩ := held life List.mem_cons_self
      obtain ⟨stored, above, rests₁, -⟩ := rests.live describe out holds warm
      obtain ⟨stored', above', rests'⟩ := ih rests₁ fun life mem =>
        held life (List.mem_cons_of_mem _ mem)
      exact ⟨stored', above.trans above', rests'⟩
  obtain ⟨stored, above, rests'⟩ := each
  refine ⟨stored, above, rests', fun life size holds whole => ?_⟩
  obtain ⟨stored', above', rests'', ended⟩ :=
    rests'.live describe out holds warm
  exact ⟨(ended whole).1, stored', above', rests'', (ended whole).2⟩

/-- What a chain denotes can be recorded if its outputs are few and its addresses short. -/
theorem recordable_outputsUnder {chain : List LocatedBlock}
    (few : ∀ tx ∈ txsOf chain, tx.output.length ≤ 2 ^ 32)
    (short : ∀ tx ∈ txsOf chain, ∀ output ∈ tx.output,
      ∀ a ∈ (extractAddress o.crate output.scriptPubkey o.network).address,
        a.utf8ByteSize ≤ 65535) : o.Recordable (outputsUnder chain) := by
  intro k v value
  obtain ⟨row, denoted, rfl⟩ := Option.map_eq_some_iff.mp value
  obtain ⟨output, here, rfl⟩ := Option.map_eq_some_iff.mp denoted
  unfold outputsUnder at here
  cases found : (txsOf chain).find? (·.txid = k.txid) with
  | none =>
    rw [found] at here
    cases here
  | some tx =>
    rw [found] at here
    have mem := List.mem_of_find?_eq_some found
    obtain ⟨inside, -⟩ := List.getElem?_eq_some_iff.mp here
    have small : k.vout < 2 ^ 32 := Nat.lt_of_lt_of_le inside (few tx mem)
    refine ⟨small, ?_, short tx mem output (List.mem_of_getElem? here)⟩
    show asU32 k.vout < 2 ^ 32
    rw [asU32_of_lt small]
    exact small

end Course

/-! ## A small chain from its directory -/

namespace Sample

open Live.Sample

/-- The small chain, for a process with a cache of 64 entries. -/
def course : Course (orchestrator 1000000) where
  chain := [first, second]
  denotation := outputs
  capacity := 64
  valid := valid_first
  recordable := Course.recordable_outputsUnder (by decide) (by decide +kernel)
  word := by decide +kernel
  room blocks inside := by
    have few : ∀ blocks ∈ [first, second].sublists,
        ∀ chunk ∈ (orchestrator 1000000).adaptiveChunks blocks,
          ((orchestrator 1000000).outputRows chunk).length ≤ 4 := by
      decide +kernel
    exact roomy_of_few (few blocks (List.mem_sublists.mpr inside.sublist))

/-- Each block is a batch, and the cache is not pre-warmed. -/
def oneByOne : Process.Config := { config "utxo.cache" with batchSize := 1 }

/-- An empty database with its checkpoint. -/
def prepared : Process.State :=
  ⟨⟨⟨{ Graph.empty with checkpoint := some .initial }, none⟩, .new 64⟩, none, 0, false⟩

end Sample

namespace Course

open Process Files SingleBlockLoader BlockIndex

theorem rests_prepared : Sample.course.Rests Live.Sample.crc32 0 Sample.prepared where
  within := Nat.zero_le _
  mirrors := IngestionOrchestrator.mirrors_empty.checkpointed (fun _ => by decide)
    fun _ length => by cases length
  file := IngestionOrchestrator.rightFile_none
  ongoing := ⟨.initial, rfl, by decide⟩

theorem holds_directory (cut : Option ℕ) :
    Sample.course.Holds ⟨.resume, 5, Sample.directory, cut⟩ 2 := by
  refine holds_of_written Sample.written_directory rfl (Nat.le_refl 2) fun b mem => ?_
  rcases List.mem_pair.mp mem with rfl | rfl
  · decide +kernel
  · decide +kernel

/-- A `resume` up to height 5 leaves out neither block. -/
theorem both_stored {stored stored' : ℕ} (within : stored ≤ 2) (within' : stored' ≤ 2)
    (done : 5 = stored ∨ Done 1 5 2 stored') : stored' = 2 := by
  rcases done with same | ⟨-, done⟩
  · omega
  · have batch : 2 < stored' + max 1 1 := done (by decide)
    omega

/-- The first process is cut off after seven calls; the next one stores both blocks. -/
theorem resume_lives_sample :
    let live := Files.live (Sample.orchestrator 1000000) Sample.oneByOne Live.Sample.crc32
      Live.Sample.steady (fun _ => "") 64
    let left := (inTurn live [⟨.resume, 5, Sample.directory, some 7⟩] Sample.prepared).2
    let ended := live ⟨.resume, 5, Sample.directory, none⟩ left
    ended.1 = some (.ok ()) ∧ (Sample.orchestrator 1000000).Mirrors [Sample.first, Sample.second]
      ended.2.graph := by
  intro live left ended
  have cold : Sample.course.Warmable Sample.oneByOne := fun warm => by cases warm
  obtain ⟨stored, -, rests, next⟩ := resume_lives Sample.course Sample.oneByOne Live.Sample.crc32
    Live.Sample.steady (fun _ => "") cold rests_prepared [⟨.resume, 5, Sample.directory, some 7⟩]
    fun life mem => by
      cases List.mem_singleton.mp mem
      exact ⟨2, holds_directory _⟩
  obtain ⟨answer, stored', -, rests', done⟩ := next _ 2 (holds_directory none) rfl
  refine ⟨answer, ?_⟩
  obtain rfl := both_stored rests.within rests'.within done
  exact rests'.mirrors

end Course

end ChainGraph

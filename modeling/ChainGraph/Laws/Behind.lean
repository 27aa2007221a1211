import ChainGraph.Laws.Checkpoint
import ChainGraph.Laws.Forks

/-!
# The snapshot and the checkpoint

The height in the header of the cache file against the stored height of the checkpoint, at every
moment of every run of the commands, over any number of lives of the process.

A save after a committed chunk writes the height that has just been stored. The other two saves and
a rollback can leave the file ahead of the database, and the conditions on the calls say when they
do not.
-/

namespace ChainGraph

open Foundation

namespace UtxoCache

/-- The height in the header is the one the file was saved with, as a word. -/
theorem headerHeight_saveToFile (crc32 : List UInt8 → UInt32) (c : UtxoCache) (height : ℕ) :
    headerHeight (c.saveToFile crc32 height).1 = height % 2 ^ 32 := by
  have placed : (((c.saveToFile crc32 height).1.drop 16).take 4) = leBytes 4 height := by
    unfold saveToFile headerBytes
    rw [show cacheFileMagic ++ (leBytes 4 cacheFileVersion ++ (leBytes 8 c.len ++
        (leBytes 4 height ++ leBytes 4 (crc32 c.bodyBytes).toNat))) ++ c.bodyBytes =
      (cacheFileMagic ++ (leBytes 4 cacheFileVersion ++ leBytes 8 c.len)) ++
        (leBytes 4 height ++ (leBytes 4 (crc32 c.bodyBytes).toNat ++ c.bodyBytes)) by
      simp only [List.append_assoc]]
    rw [List.drop_left' (by simp [cacheFileMagic]), List.take_left' (length_leBytes 4 height)]
  unfold headerHeight
  rw [placed, ofLe_leBytes, show 256 ^ 4 = 2 ^ 32 by decide]

end UtxoCache

namespace Process

open IngestionOrchestrator UtxoCache

variable {o : IngestionOrchestrator} {config : Config} {crc32 : List UInt8 → UInt32}
  {out : Outside} {s s' : State}

/-! ## The invariant -/

/-- The height in the file's header is at most the stored height of the checkpoint. -/
def State.Behind (s : State) : Prop :=
  ∀ file, s.file = some file → (headerHeight file : ℤ) ≤ s.graph.storedHeight

/-- A state between two calls: no transaction is open, and a stored height is a signed word. -/
structure Safe (s : State) : Prop where
  free : s.Free
  word : s.graph.storedHeight < 2 ^ 31
  behind : s.Behind

/-- When a call cannot put the file ahead of the database. -/
def Cautious (out : Outside) : Op → State → Prop
  -- the height after the last block is saved on completion
  | .saveToFile .completion _, s => out.writable s.clock = false
  -- the height of the last block committed, which may have been rolled back since
  | .saveToFile .shutdown _, s => out.writable s.clock = true → s.rolledBack = false
  | .rollbackToHeight _ forkPoint, s => ∀ file, s.file = some file → headerHeight file ≤ forkPoint
  | .ingestChunk chunk, _ => ∀ b ∈ chunk, b.height < 2 ^ 31
  -- a stop between a batch and the next leaves the current height where the batch began
  | .getBlock height, s => ∀ block, out.block s.clock height = .ok (some block) →
      ∀ file, s.file = some file → headerHeight file ≤ height ∨ s.Stored height
  -- the checkpoint at height 255 is read as none
  | .getResumeHeight, s => s.graph.storedHeight ≠ 255
  | .syncCheckpointWithDb, s => s.graph.storedHeight = 255 → s.graph.TopComplete
  | _, _ => True

/-! ## Calls that move nothing -/

/-- File, graph and the rollback mark are the same. -/
structure Unmoved (s s' : State) : Prop where
  file : s'.file = s.file
  store : s'.world.store = s.world.store
  rolledBack : s'.rolledBack = s.rolledBack

theorem Unmoved.graph (h : Unmoved s s') : s'.graph = s.graph := congrArg (·.committed) h.store

theorem Safe.congr (safe : Safe s) (h : Unmoved s s') : Safe s' := by
  refine ⟨?_, ?_, fun file saved => ?_⟩
  · unfold State.Free
    rw [h.store]
    exact safe.free
  · rw [h.graph]
    exact safe.word
  · rw [h.graph]
    exact safe.behind file (h.file ▸ saved)

theorem Unmoved.trans {s'' : State} (h : Unmoved s s') (h' : Unmoved s' s'') : Unmoved s s'' :=
  ⟨h'.file.trans h.file, h'.store.trans h.store, h'.rolledBack.trans h.rolledBack⟩

/-- The calls that read, or change the cache only. -/
def Still : Op → Prop
  | .initSchema => False
  | .syncCheckpointWithDb => False
  | .ingestChunk _ => False
  | .rollbackToHeight _ _ => False
  | .saveToFile _ _ => False
  | _ => True

theorem unmoved_orchestrate {α : Type} {p : Io α}
    (still : (p.run Store.handle s.world.store).2 = s.world.store) (clock : ℕ) :
    Unmoved s { (s.orchestrate (io p)).2 with clock := clock } := by
  refine ⟨rfl, ?_, rfl⟩
  show ((io p).run World.handle s.world).2.store = s.world.store
  unfold io
  rw [World.run_lift]
  exact still

theorem unmoved_handle {c : Op} (still : Still c) (free : s.Free) :
    Unmoved s (handle o crc32 out c s).2 := by
  cases c with
  | getCheckpoint => exact unmoved_orchestrate rfl _
  | getResumeHeight =>
    refine unmoved_orchestrate ?_ _
    rw [world_of_free free]
    obtain ⟨height, ran, _⟩ := run_getResumeHeight (o := o) s.graph
    rw [ran]
  | lookupBlockHash height => exact unmoved_orchestrate rfl _
  | prewarmCache startHeight =>
    cases warmed : out.prewarm startHeight s.world.memory with
    | ok cache =>
      simp only [handle, act, warmed]
      exact ⟨rfl, rfl, rfl⟩
    | error e =>
      simp only [handle, act, warmed]
      exact ⟨rfl, rfl, rfl⟩
  | loadFromFile | preloadFullRange | loadBlock | verifyConnection | getTipHeight | getBlocks
  | getBlock | getBlockHash | isCancelled | connectZmq | recvBlockHash | backoff =>
    exact ⟨rfl, rfl, rfl⟩
  | _ => exact still.elim

/-- An invariant that holds where no transaction is open, and that calls which move nothing keep. -/
def Steady (S : State → Prop) : Prop := ∀ s, S s → s.Free ∧ ∀ s', Unmoved s s' → S s'

theorem steady_safe : Steady Safe := fun _ safe => ⟨safe.free, fun _ same => safe.congr same⟩

theorem steady_free : Steady State.Free := by
  intro s free
  refine ⟨free, fun s' same => ?_⟩
  unfold State.Free
  rw [same.store]
  exact free

section Steady

variable {cond : Op → State → Prop} {S : State → Prop}

/-- A call that moves nothing. -/
theorem keeps_unmoved (steady : Steady S) {c : Op} (still : Still c) (here : S s) :
    Prog.Keeps (handle o crc32 out) cond S
      (fun r s' => Unmoved s s' ∧ cond c s ∧ r = (handle o crc32 out c s).1) (perform c) s := by
  obtain ⟨free, stays⟩ := steady s here
  have same : Unmoved s (handle o crc32 out c s).2 := unmoved_handle still free
  exact Prog.Keeps.perform here fun met => ⟨stays _ same, same, met, rfl⟩

/-! What the streaming commands do before their loop moves nothing. -/

theorem keeps_restoreCache (steady : Steady S) (here : S s) :
    Prog.Keeps (handle o crc32 out) cond S (fun _ s' => Unmoved s s') (restoreCache config) s := by
  unfold restoreCache
  split
  · exact (keeps_unmoved (c := .loadFromFile) steady trivial here).bind fun _ s' here' same =>
      .pure here' same.1
  · exact .pure here ⟨rfl, rfl, rfl⟩

theorem keeps_prewarm (steady : Steady S) {startHeight : ℕ} {enablePrewarm : Bool} (here : S s) :
    Prog.Keeps (handle o crc32 out) cond S (fun _ s' => Unmoved s s')
      ((Streaming.prewarm config.toStreamConfig startHeight enablePrewarm).interpret
        (streamingCall o config)) s := by
  unfold Streaming.prewarm Streaming.perform
  split
  · rw [Prog.interpret_bind, Prog.interpret_perform]
    refine (keeps_unmoved (c := .prewarmCache startHeight) steady trivial here).bind
      fun r s' here' same => ?_
    cases r with
    | ok u => exact .pure here' same.1
    | error e => exact .throw here'
  · exact .pure here ⟨rfl, rfl, rfl⟩

theorem keeps_preload (steady : Steady S) {startHeight maxHeight : ℕ} (here : S s) :
    Prog.Keeps (handle o crc32 out) cond S (fun _ s' => Unmoved s s')
      ((Streaming.preload startHeight maxHeight).interpret (streamingCall o config)) s := by
  unfold Streaming.preload Streaming.perform
  split
  · rw [Prog.interpret_bind, Prog.interpret_perform]
    refine (keeps_unmoved (c := .preloadFullRange startHeight maxHeight) steady trivial here).bind
      fun r s' here' same => ?_
    cases r with
    | ok u => exact .pure here' same.1
    | error e => exact .throw here'
  · exact .pure here ⟨rfl, rfl, rfl⟩

end Steady

theorem keeps_still {c : Op} (still : Still c) (safe : Safe s) :
    Prog.Keeps (handle o crc32 out) (Cautious out) Safe
      (fun r s' => Unmoved s s' ∧ Cautious out c s ∧ r = (handle o crc32 out c s).1)
      (perform c) s := keeps_unmoved steady_safe still safe

/-! ## Saving -/

/-- A save of a height that is not ahead of the checkpoint, if it is written at all. -/
theorem keeps_saveToFile {site : SaveSite} {height : ℕ} (safe : Safe s)
    (reached : Cautious out (.saveToFile site height) s → out.writable s.clock = true →
      (height : ℤ) ≤ s.graph.storedHeight) :
    Prog.Keeps (handle o crc32 out) (Cautious out) Safe
      (fun _ s' => s'.world = s.world ∧ s'.rolledBack = s.rolledBack ∧
        ∀ file, s'.file = some file → s.file = some file ∨ headerHeight file = height % 2 ^ 32)
      (perform (.saveToFile site height)) s := by
  refine Prog.Keeps.perform (I := Calls) (o := Op.saveToFile site height) safe fun met => ?_
  by_cases written : out.writable s.clock = true
  · have moved : handle o crc32 out (.saveToFile site height) s = (.ok (), { s with
        file := some (s.world.memory.saveToFile crc32 height).1
        clock := s.clock + 1 }) := by
      simp only [handle, act, written, if_true]
    rw [moved]
    have header := headerHeight_saveToFile crc32 s.world.memory height
    refine ⟨⟨safe.free, safe.word, fun file saved => ?_⟩, rfl, rfl, fun file saved => ?_⟩
    · cases saved
      have low := reached met written
      have small := Nat.mod_le height (2 ^ 32)
      show (headerHeight (s.world.memory.saveToFile crc32 height).1 : ℤ) ≤ s.graph.storedHeight
      rw [header]
      omega
    · cases saved
      exact Or.inr header
  · have kept : handle o crc32 out (.saveToFile site height) s =
        (.error "cache file cannot be written", { s with clock := s.clock + 1 }) := by
      simp only [handle, act, if_neg written]
    rw [kept]
    exact ⟨safe.congr ⟨rfl, rfl, rfl⟩, rfl, rfl, fun file saved => Or.inl saved⟩

/-! ## Committing -/

/-- What committing some blocks in order leaves. -/
structure Committed (s : State) (done : List LocatedBlock) (s' : State) : Prop where
  file : ∀ file, s'.file = some file → s.file = some file ∨ ∃ b ∈ done, headerHeight file = b.height
  none : done = [] → s'.graph.storedHeight = s.graph.storedHeight ∧ s'.rolledBack = s.rolledBack
  last : ∀ b, done.getLast? = some b → s'.graph.storedHeight = b.height ∧ s'.rolledBack = false
  small : ∀ b ∈ done, b.height < 2 ^ 31
  kept : ∀ height, s.Stored height → s'.Stored height

theorem Committed.append {first rest : List LocatedBlock} {s'' : State}
    (h : Committed s first s') (h' : Committed s' rest s'') : Committed s (first ++ rest) s'' where
  file file saved := by
    rcases h'.file file saved with before | ⟨b, mem, header⟩
    · rcases h.file file before with old | ⟨b, mem, header⟩
      · exact Or.inl old
      · exact Or.inr ⟨b, List.mem_append_left _ mem, header⟩
    · exact Or.inr ⟨b, List.mem_append_right _ mem, header⟩
  none empty := by
    obtain ⟨rfl, rfl⟩ := List.append_eq_nil_iff.mp empty
    exact ⟨(h'.none rfl).1.trans (h.none rfl).1, (h'.none rfl).2.trans (h.none rfl).2⟩
  last b isLast := by
    rw [List.getLast?_append] at isLast
    cases rest' : rest.getLast? with
    | some c =>
      rw [rest'] at isLast
      cases isLast
      exact h'.last b rest'
    | none =>
      rw [rest'] at isLast
      have empty := List.getLast?_eq_none_iff.mp rest'
      have before := h.last b isLast
      exact ⟨(h'.none empty).1.trans before.1, (h'.none empty).2.trans before.2⟩
  small b mem := by
    rcases List.mem_append.mp mem with inFirst | inRest
    · exact h.small b inFirst
    · exact h'.small b inRest
  kept height stored := h'.kept height (h.kept height stored)

/-- The file is behind these blocks, or they are stored already. -/
def Ahead (s : State) (blocks : List LocatedBlock) : Prop :=
  ∀ file, s.file = some file → ∀ b ∈ blocks, headerHeight file ≤ b.height ∨ s.Stored b.height

/-- The height of a reported reorganization is a height of the chain. -/
def SmallReorg {α : Type} (r : Except WriterError α) : Prop :=
  ∀ height expected actual, r = .error (.ReorgDetected height expected actual) → height < 2 ^ 31

/-- A chunk commits all its blocks, or none. -/
theorem keeps_chunk {chunk : List LocatedBlock} (nonempty : chunk ≠ []) (safe : Safe s)
    (ahead : Ahead s chunk) :
    Prog.Keeps (handle o crc32 out) (Cautious out) Safe
      (fun (r : Except WriterError (ℕ × ℕ × ℕ)) s' =>
        Committed s (if r.isOk then chunk else []) s' ∧ s'.file = s.file ∧ SmallReorg r)
      (perform (.ingestChunk chunk)) s := by
  have effect : ChunkEffect s.graph chunk ((handle o crc32 out (.ingestChunk chunk) s).1,
      (handle o crc32 out (.ingestChunk chunk) s).2.world) := chunkEffect_handle safe.free chunk
  have file : (handle o crc32 out (.ingestChunk chunk) s).2.file = s.file := rfl
  have mark : (handle o crc32 out (.ingestChunk chunk) s).2.rolledBack =
      (s.rolledBack && ! (handle o crc32 out (.ingestChunk chunk) s).1.isOk) := rfl
  have failed : ∀ e, (handle o crc32 out (.ingestChunk chunk) s).1 = .error e →
      ReorgAmong chunk e := fun e same => reorgAmong_ingestChunk (w := s.world) same
  refine Prog.Keeps.perform (I := Calls) (o := Op.ingestChunk chunk) safe fun met => ?_
  generalize handle o crc32 out (.ingestChunk chunk) s = result at effect file mark failed
  obtain ⟨r, s'⟩ := result
  have reorg : SmallReorg r := by
    intro height expected actual same
    obtain ⟨b, mem, here, _⟩ := failed _ same
    rw [← here]
    exact met b mem
  have kept : ∀ height, s.Stored height → s'.Stored height := by
    intro height stored
    obtain ⟨n, mem, here⟩ := stored_iff.mp stored
    exact stored_iff.mpr ⟨n, (effect.blocks n).mpr (Or.inr mem), here⟩
  cases r with
  | error e =>
    have same : s'.graph.storedHeight = s.graph.storedHeight :=
      Graph.storedHeight_congr effect.checkpoint
    refine ⟨⟨effect.free, ?_, fun saved isFile => ?_⟩, ⟨fun saved isFile => ?_, fun _ => ?_,
      fun b isLast => (by cases isLast), fun b mem => (by cases mem), kept⟩, file, reorg⟩
    · rw [same]
      exact safe.word
    · rw [same]
      exact safe.behind saved (file ▸ isFile)
    · exact Or.inl (file ▸ isFile)
    · exact ⟨same, mark.trans (Bool.and_true _)⟩
  | ok counts =>
    obtain ⟨last, isLast⟩ : ∃ last, chunk.getLast? = some last := by
      cases found : chunk.getLast? with
      | none => exact absurd (List.getLast?_eq_none_iff.mp found) nonempty
      | some last => exact ⟨last, rfl⟩
    have inside := List.mem_of_getLast? isLast
    have stored : s'.graph.storedHeight = last.height := by
      have checkpoint := effect.checkpoint
      simp only [Except.isOk, Except.toBool, if_true] at checkpoint
      unfold lastCheckpoint at checkpoint
      rw [isLast] at checkpoint
      exact (Graph.storedHeight_of_data (chunkCheckpoint last) checkpoint).trans
        (asI32_of_lt (met last inside))
    refine ⟨⟨effect.free, ?_, fun saved isFile => ?_⟩, ⟨fun saved isFile => ?_, fun empty => ?_,
      fun b isLast' => ?_, met, kept⟩, file, reorg⟩
    · rw [stored]
      have small := met last inside
      omega
    · rw [stored]
      rcases ahead saved (file ▸ isFile) last inside with below | taken
      · omega
      · obtain ⟨n, mem, here⟩ := stored_iff.mp taken
        exact absurd here (effect.fresh rfl last inside n mem)
    · exact Or.inl (file ▸ isFile)
    · exact absurd empty nonempty
    · cases isLast.symm.trans isLast'
      exact ⟨stored, mark.trans (Bool.and_false _)⟩

theorem keeps_trySave {chunk : List LocatedBlock} {s₀ : State} {last : LocatedBlock}
    (isLast : chunk.getLast? = some last) (safe : Safe s) (committed : Committed s₀ chunk s) :
    Prog.Keeps (handle o crc32 out) (Cautious out) Safe (fun _ s' => Committed s₀ chunk s')
      (trySaveSnapshot config (endHeight chunk)) s := by
  have height : endHeight chunk = last.height := by
    unfold endHeight
    rw [isLast]
    rfl
  have small := committed.small last (List.mem_of_getLast? isLast)
  rw [height]
  unfold trySaveSnapshot
  split
  · refine (keeps_saveToFile safe fun _ _ => ?_).bind fun r s' safe' saved => .pure safe' ?_
    · rw [(committed.last last isLast).1]
    · have graph : s'.graph = s.graph := congrArg (·.store.committed) saved.1
      refine ⟨fun file isFile => ?_, fun empty => ?_, fun b found => ?_, committed.small,
        fun height stored => ?_⟩
      · rcases saved.2.2 file isFile with old | header
        · exact committed.file file old
        · rw [Nat.mod_eq_of_lt (by omega)] at header
          exact Or.inr ⟨last, List.mem_of_getLast? isLast, header⟩
      · rw [graph, saved.2.1]
        exact committed.none empty
      · rw [graph, saved.2.1]
        exact committed.last b found
      · exact (stored_congr saved.1 height).mpr (committed.kept height stored)
  · exact .pure safe committed

/-- A batch commits some of its blocks in order, and all of them if it succeeds. -/
structure BatchDone (s : State) (blocks : List LocatedBlock) (r : Except WriterError Unit)
    (s' : State) : Prop where
  split : ∃ done rest, blocks = done ++ rest ∧ (r = .ok () ↔ rest = []) ∧ Committed s done s'
  reorg : SmallReorg r

theorem keeps_chunks (chunks : List (List LocatedBlock)) (nonempty : ∀ chunk ∈ chunks, chunk ≠ [])
    (ascending : chunks.flatten.Pairwise fun a b => a.height < b.height) (safe : Safe s)
    (ahead : Ahead s chunks.flatten) :
    Prog.Keeps (handle o crc32 out) (Cautious out) Safe (BatchDone s chunks.flatten)
      (ingestChunks config chunks) s := by
  induction chunks generalizing s with
  | nil =>
    refine .pure safe ⟨⟨[], [], rfl, iff_of_true rfl rfl, ?_⟩, fun _ _ _ same => by cases same⟩
    exact ⟨fun _ saved => Or.inl saved, fun _ => ⟨rfl, rfl⟩, fun _ isLast => (by cases isLast),
      fun _ mem => (by cases mem), fun _ stored => stored⟩
  | cons chunk rest ih =>
    have here : chunk ≠ [] := nonempty chunk List.mem_cons_self
    obtain ⟨_, later, across⟩ := List.pairwise_append.mp ascending
    unfold ingestChunks
    refine (keeps_chunk here safe fun file saved b mem =>
      ahead file saved b (List.mem_append_left _ mem)).bind fun r s₁ safe₁ done => ?_
    obtain ⟨committed, file, reorg⟩ := done
    cases r with
    | error e =>
      refine .pure safe₁ ⟨⟨[], (chunk :: rest).flatten, rfl, ?_, committed⟩,
        fun height expected actual same => ?_⟩
      · exact iff_of_false (fun ok => by cases ok) fun empty =>
          here (List.append_eq_nil_iff.mp empty).1
      · cases same
        exact reorg height expected actual rfl
    | ok counts =>
      obtain ⟨last, isLast⟩ : ∃ last, chunk.getLast? = some last := by
        cases found : chunk.getLast? with
        | none => exact absurd (List.getLast?_eq_none_iff.mp found) here
        | some last => exact ⟨last, rfl⟩
      have all : Committed s chunk s₁ := committed
      refine (keeps_trySave isLast safe₁ all).bind fun _ s₂ safe₂ committed₂ => ?_
      have ahead₂ : Ahead s₂ rest.flatten := by
        intro file saved b mem
        rcases committed₂.file file saved with old | ⟨c, inside, header⟩
        · exact (ahead file old b (List.mem_append_right _ mem)).imp_right (committed₂.kept _)
        · exact Or.inl (header ▸ Nat.le_of_lt (across c inside b mem))
      refine (ih (fun c mem => nonempty c (List.mem_cons_of_mem _ mem)) later safe₂ ahead₂).mono
        fun r s₃ _ batch => ⟨?_, batch.reorg⟩
      obtain ⟨done, left, split, finished, committed₃⟩ := batch.split
      refine ⟨chunk ++ done, left, ?_, finished, committed₂.append committed₃⟩
      rw [List.flatten_cons, split, List.append_assoc]

theorem keeps_batch {blocks : List LocatedBlock}
    (ascending : blocks.Pairwise fun a b => a.height < b.height) (safe : Safe s)
    (ahead : Ahead s blocks) :
    Prog.Keeps (handle o crc32 out) (Cautious out) Safe (BatchDone s blocks)
      (ingestBlocksBatch o config blocks) s := by
  have flat := flatten_adaptiveChunks o blocks
  have keeps : Prog.Keeps (handle o crc32 out) (Cautious out) Safe
      (BatchDone s (o.adaptiveChunks blocks).flatten)
      (ingestChunks config (o.adaptiveChunks blocks)) s :=
    keeps_chunks _ (fun chunk mem => ne_nil_of_mem_adaptiveChunks blocks mem)
      (flat.symm ▸ ascending) safe (flat.symm ▸ ahead)
  rw [flat] at keeps
  exact keeps

/-! ## Starting -/

/-- The file is behind every height from a given one on. -/
def Below (s : State) (height : ℕ) : Prop :=
  ∀ file, s.file = some file → headerHeight file < height

theorem Below.congr {height : ℕ} (below : Below s height) (same : Unmoved s s') :
    Below s' height := fun file saved => below file (same.file ▸ saved)

theorem safe_orFail {ε α : Type} {context : String} {r : Except ε α} (safe : Safe s) :
    Prog.Keeps (handle o crc32 out) (Cautious out) Safe (fun a s' => s' = s ∧ r = .ok a)
      (orFail context r) s := keeps_orFail safe

/-- Without a checkpoint there is no file. -/
theorem keeps_initSchema (safe : Safe s) :
    Prog.Keeps (handle o crc32 out) (Cautious out) Safe (fun _ _ => True)
      (perform .initSchema) s := by
  obtain ⟨g, ran, made⟩ := run_initSchema (o := o) s.graph
  have world : (handle o crc32 out .initSchema s).2.world = ⟨⟨g, none⟩, s.world.memory⟩ := by
    show ((io o.initSchema).run World.handle s.world).2 = _
    rw [world_of_free safe.free, run_io_eq ran]
  have graph : (handle o crc32 out .initSchema s).2.graph = g := congrArg (·.store.committed) world
  have file : (handle o crc32 out .initSchema s).2.file = s.file := rfl
  have safe' : Safe (handle o crc32 out .initSchema s).2 := by
    refine ⟨?_, ?_, fun saved isFile => ?_⟩
    · unfold State.Free
      rw [world]
    · rw [graph]
      rcases made with same | ⟨_, initial⟩
      · rw [same]
        exact safe.word
      · rw [initial]
        show (-999 : ℤ) < 2 ^ 31
        decide
    · rw [file] at isFile
      have low := safe.behind saved isFile
      rw [graph]
      rcases made with same | ⟨none, _⟩
      · rw [same]
        exact low
      · have absent : s.graph.storedHeight = -1 := by
          unfold Graph.storedHeight
          rw [none]
          rfl
        omega
  exact Prog.Keeps.perform (I := Calls) (o := Op.initSchema) safe fun _ => ⟨safe', trivial⟩

theorem keeps_ensureSchema (safe : Safe s) :
    Prog.Keeps (handle o crc32 out) (Cautious out) Safe (fun _ _ => True) ensureSchema s := by
  unfold ensureSchema
  refine (keeps_still (c := .getCheckpoint) trivial safe).bind fun r s₁ safe₁ _ => ?_
  refine (safe_orFail safe₁).bind fun checkpoint s₂ safe₂ _ => ?_
  split
  · refine (keeps_initSchema safe₂).bind fun r s₃ safe₃ _ => ?_
    exact (safe_orFail safe₃).mono fun _ _ _ _ => trivial
  · exact .pure safe₂ trivial

/-- Recovery leaves the file behind the height it resumes at. -/
theorem keeps_syncCheckpointWithDb (safe : Safe s) :
    Prog.Keeps (handle o crc32 out) (Cautious out) Safe
      (fun (r : Except WriterError ℕ) s' =>
        s'.rolledBack = s.rolledBack ∧ ∀ height, r = .ok height → Below s' height)
      (perform .syncCheckpointWithDb) s := by
  have recovered := recovered_syncCheckpointWithDb (o := o) s.graph
  have store : (handle o crc32 out .syncCheckpointWithDb s).2.world.store =
      (o.syncCheckpointWithDb.run Store.handle ⟨s.graph, none⟩).2 := by
    show ((io o.syncCheckpointWithDb).run World.handle s.world).2.store = _
    unfold io
    rw [World.run_lift, world_of_free safe.free]
  have answer : (handle o crc32 out .syncCheckpointWithDb s).1 =
      (o.syncCheckpointWithDb.run Store.handle ⟨s.graph, none⟩).1 := by
    show ((io o.syncCheckpointWithDb).run World.handle s.world).1 = _
    unfold io
    rw [World.run_lift, world_of_free safe.free]
  have free : (handle o crc32 out .syncCheckpointWithDb s).2.Free := free_handle _ s safe.free
  have file : (handle o crc32 out .syncCheckpointWithDb s).2.file = s.file := rfl
  refine Prog.Keeps.perform (I := Calls) (o := Op.syncCheckpointWithDb) safe fun met => ?_
  have mark : (handle o crc32 out .syncCheckpointWithDb s).2.rolledBack = s.rolledBack := rfl
  generalize handle o crc32 out .syncCheckpointWithDb s = result at store answer free file mark
  obtain ⟨r, s'⟩ := result
  have graph : s'.graph = (o.syncCheckpointWithDb.run Store.handle ⟨s.graph, none⟩).2.committed :=
    congrArg (·.committed) store
  have ahead : ∀ saved, s.file = some saved → s.graph.storedHeight ≤ s'.graph.storedHeight ∧
      ∀ height, r = .ok height → s.graph.storedHeight < height := by
    intro saved isFile
    have low := safe.behind saved isFile
    obtain ⟨kept, resumes⟩ := recovered.kept (by omega) safe.word met
    rw [graph]
    exact ⟨kept, fun height same => resumes height (answer.symm.trans same)⟩
  refine ⟨⟨free, ?_, fun saved isFile => ?_⟩, mark, fun height same saved isFile => ?_⟩
  · rw [graph]
    exact recovered.word safe.word
  · have here : s.file = some saved := file.symm.trans isFile
    have low := safe.behind saved here
    have kept := (ahead saved here).1
    show (headerHeight saved : ℤ) ≤ s'.graph.storedHeight
    omega
  · have here : s.file = some saved := file.symm.trans isFile
    have low := safe.behind saved here
    have resumes := (ahead saved here).2 height same
    omega

/-- A resume height that is read leaves the file behind it. -/
theorem keeps_getResumeHeight (safe : Safe s) :
    Prog.Keeps (handle o crc32 out) (Cautious out) Safe
      (fun (r : Except WriterError ℕ) s' => ∀ height, r = .ok height → Below s' height)
      (perform .getResumeHeight) s := by
  refine (keeps_still (c := .getResumeHeight) trivial safe).mono fun r s' _ done height same => ?_
  obtain ⟨unmoved, usual, answer⟩ := done
  have answered : (handle o crc32 out .getResumeHeight s).1 =
      (o.getResumeHeight.run Store.handle ⟨s.graph, none⟩).1 := by
    show ((io o.getResumeHeight).run World.handle s.world).1 = _
    unfold io
    rw [World.run_lift, world_of_free safe.free]
  intro saved isFile
  have low := safe.behind saved (unmoved.file ▸ isFile)
  have recovered := recovered_getResumeHeight (o := o) s.graph fun special => absurd special usual
  have next := (recovered.kept (by omega) safe.word fun special => absurd special usual).2 height
    (answered.symm.trans (answer.symm.trans same))
  omega

/-! ## The streaming commands -/

/-- A block that is loaded is at the height that was asked for. -/
theorem height_loaded {height : ℕ} {data : LocatedBlock}
    (loaded : (handle o crc32 out (.loadBlock height) s).1 = .ok (some data)) :
    data.height = height := by
  have given : (out.load height).map (Option.map fun found =>
      (⟨height, found.1, found.2⟩ : LocatedBlock)) = .ok (some data) := loaded
  cases read : out.load height with
  | error e =>
    rw [read] at given
    cases given
  | ok found =>
    rw [read] at given
    cases found with
    | none => cases given
    | some found =>
      cases given
      rfl

/-- The loop, with the heights of the batch and those still to be loaded ahead of the file. -/
theorem keeps_mainLoop {batchSize maxHeight : ℕ} (heights : List ℕ) {batch : List LocatedBlock}
    {blocksProcessed : ℕ} (safe : Safe s)
    (ascending : (batch.map (·.height) ++ heights).Pairwise (· < ·))
    (ahead : ∀ file, s.file = some file → ∀ h ∈ batch.map (·.height) ++ heights,
      headerHeight file < h) :
    Prog.Keeps (handle o crc32 out) (Cautious out) Safe (fun _ _ => True)
      ((Streaming.mainLoop batchSize maxHeight heights batch blocksProcessed).interpret
        (streamingCall o config)) s := by
  induction heights generalizing s batch blocksProcessed with
  | nil => exact .pure safe trivial
  | cons height heights ih =>
    unfold Streaming.mainLoop Streaming.perform
    rw [Prog.interpret_bind, Prog.interpret_perform]
    refine (keeps_still (c := .loadBlock height) trivial safe).bind fun r s₁ safe₁ loaded => ?_
    obtain ⟨unmoved, _, answer⟩ := loaded
    cases r with
    | error e => exact .throw safe₁
    | ok found =>
      cases found with
      | none => exact .pure safe₁ trivial
      | some data =>
        have here : data.height = height := height_loaded answer.symm
        have heights' : (batch ++ [data]).map (·.height) ++ heights =
            batch.map (·.height) ++ height :: heights := by
          rw [List.map_append, List.append_assoc, List.map_singleton, here, List.singleton_append]
        rw [← heights'] at ascending ahead
        have ahead₁ : ∀ file, s₁.file = some file → ∀ h ∈ (batch ++ [data]).map (·.height) ++
            heights, headerHeight file < h := fun file saved => ahead file (unmoved.file ▸ saved)
        dsimp only
        split
        · rw [Prog.interpret_bind, Prog.interpret_perform]
          obtain ⟨inBatch, later, across⟩ := List.pairwise_append.mp ascending
          have ready : Ahead s₁ (batch ++ [data]) := fun file saved b mem =>
            Or.inl (Nat.le_of_lt (ahead₁ file saved b.height
              (List.mem_append_left _ (List.mem_map.mpr ⟨b, mem, rfl⟩))))
          refine (keeps_batch (List.pairwise_map.mp inBatch) safe₁ ready).bind
            fun r s₂ safe₂ done => ?_
          cases r with
          | error e => exact .throw safe₂
          | ok u =>
            refine ih safe₂ later fun file saved h mem => ?_
            obtain ⟨done, rest, split, _, committed⟩ := done.split
            rcases committed.file file saved with old | ⟨b, inDone, header⟩
            · exact ahead₁ file old h (List.mem_append_right _ mem)
            · have inside : b ∈ batch ++ [data] := split ▸ List.mem_append_left _ inDone
              rw [header]
              exact across b.height (List.mem_map.mpr ⟨b, inside, rfl⟩) h mem
        · exact ih safe₁ ascending ahead₁

theorem keeps_runStreamingIngestion {startHeight : ℕ} {enablePrewarm : Bool} (safe : Safe s)
    (below : Below s startHeight) :
    Prog.Keeps (handle o crc32 out) (Cautious out) Safe (fun _ _ => True)
      (runStreamingIngestion o config startHeight enablePrewarm) s := by
  unfold runStreamingIngestion Streaming.runStreamingIngestion
  refine (keeps_restoreCache steady_safe safe).bind fun _ s₁ safe₁ same₁ => ?_
  have below₁ := below.congr same₁
  simp only [Prog.interpret_bind]
  refine (keeps_prewarm steady_safe safe₁).bind fun _ s₂ safe₂ same₂ => ?_
  have below₂ := below₁.congr same₂
  refine (keeps_preload steady_safe safe₂).bind fun _ s₃ safe₃ same₃ => ?_
  have below₃ := below₂.congr same₃
  refine (keeps_mainLoop _ safe₃ List.pairwise_lt_range' fun file saved h mem => ?_).bind
    fun processed s₄ safe₄ _ => ?_
  · exact Nat.lt_of_lt_of_le (below₃ file saved) (List.mem_range'_1.mp mem).1
  · unfold Streaming.saveCache Streaming.perform
    split
    · rw [Prog.interpret_bind, Prog.interpret_perform]
      refine (keeps_saveToFile safe₄ fun stopped written => ?_).bind fun _ s₅ safe₅ _ =>
        .pure safe₅ trivial
      exact absurd (stopped.symm.trans written) (by decide)
    · exact .pure safe₄ trivial

theorem keeps_ingest (safe : Safe s) :
    Prog.Keeps (handle o crc32 out) (Cautious out) Safe (fun _ _ => True) (ingest o config) s := by
  unfold ingest
  refine (keeps_ensureSchema safe).bind fun _ s₁ safe₁ _ => ?_
  refine (keeps_getResumeHeight safe₁).bind fun r s₂ safe₂ read => ?_
  refine (safe_orFail safe₂).bind fun resumeHeight s₃ _ same => ?_
  rw [same.1]
  split
  · exact .pure safe₂ trivial
  · rename_i none
    have zero : resumeHeight = 0 := by omega
    exact keeps_runStreamingIngestion safe₂ (zero ▸ read resumeHeight same.2)

theorem keeps_resume (safe : Safe s) :
    Prog.Keeps (handle o crc32 out) (Cautious out) Safe (fun _ _ => True) (resume o config) s := by
  unfold resume
  refine (keeps_still (c := .getCheckpoint) trivial safe).bind fun r s₁ safe₁ _ => ?_
  refine (safe_orFail safe₁).bind fun checkpoint s₂ safe₂ _ => ?_
  cases checkpoint with
  | none => exact .throw safe₂
  | some checkpoint =>
    dsimp only
    split
    · exact .pure safe₂ trivial
    refine (keeps_syncCheckpointWithDb safe₂).bind fun r s₃ safe₃ recovered => ?_
    refine (safe_orFail safe₃).bind fun resumeHeight s₄ _ same => ?_
    rw [same.1]
    split
    · exact .pure safe₃ trivial
    · exact keeps_runStreamingIngestion safe₃ (recovered.2 resumeHeight same.2)

end Process

namespace Live

open Process UtxoCache

variable {o : IngestionOrchestrator} {config : Config} {crc32 : List UInt8 → UInt32}
  {out : Outside} {s s' : State} {v : Vars}

/-! ## Live mode -/

/-- The height that a shutdown would save is not ahead of the checkpoint, unless blocks have been
rolled back since it was recorded. -/
def Tracked (s : State) (tracker : Option ℕ) : Prop :=
  ∀ height, tracker = some height → s.rolledBack = false → (height : ℤ) ≤ s.graph.storedHeight

theorem Tracked.congr {tracker : Option ℕ} (tracked : Tracked s tracker) (same : Unmoved s s') :
    Tracked s' tracker := by
  intro height isSome mark
  rw [same.graph]
  exact tracked height isSome (same.rolledBack ▸ mark)

/-- What holds between two iterations. -/
structure Ready (v : Vars) (s : State) : Prop where
  below : v.phase = .catchUp → Below s v.currentHeight
  tracked : Tracked s v.tracker

theorem Ready.congr (ready : Ready v s) (same : Unmoved s s') : Ready v s' :=
  ⟨fun phase => (ready.below phase).congr same, ready.tracked.congr same⟩

theorem keeps_leave (safe : Safe s) (tracked : Tracked s v.tracker) :
    Prog.Keeps (handle o crc32 out) (Cautious out) Safe Ready (leaveCatchUp config v) s := by
  unfold leaveCatchUp
  split
  · exact .pure safe ⟨fun phase => (by cases phase), tracked⟩
  · refine (keeps_still (c := .connectZmq) trivial safe).bind fun r s₁ safe₁ same => ?_
    refine (safe_orFail safe₁).bind fun _ s₂ _ same₂ => ?_
    rw [same₂.1]
    exact .pure safe₁ ⟨fun phase => (by cases phase), tracked.congr same.1⟩

/-- The blocks of a fetched batch are among the heights asked for, in their order. -/
theorem sublist_collectBatch {answers : List (ℕ × Except String (Option Block))}
    {blocks : List LocatedBlock} (ok : collectBatch answers = .ok blocks) :
    (blocks.map (·.height)).Sublist (answers.map Prod.fst) := by
  induction answers generalizing blocks with
  | nil =>
    cases ok
    exact List.Sublist.refl _
  | cons a answers ih =>
    obtain ⟨height, answer⟩ := a
    cases answer with
    | error e => cases ok
    | ok found =>
      cases found with
      | none => exact (ih ok).cons height
      | some block =>
        unfold collectBatch at ok
        cases rest : collectBatch answers with
        | error e =>
          rw [rest] at ok
          cases ok
        | ok blocks' =>
          rw [rest] at ok
          cases ok
          exact (ih rest).cons_cons height

theorem keeps_fetch (first count : ℕ) (safe : Safe s) :
    Prog.Keeps (handle o crc32 out) (Cautious out) Safe
      (fun r s' => Unmoved s s' ∧ ∀ blocks, r = .ok blocks →
        (blocks.map (·.height)).Sublist (List.range' first count))
      (getBlockBatch first count) s := by
  unfold getBlockBatch
  refine (keeps_still (c := .getBlocks _) trivial safe).bind fun answers s₁ safe₁ done => ?_
  refine .pure safe₁ ⟨done.1, fun blocks ok => ?_⟩
  have heights : answers.map Prod.fst = List.range' first count := by
    rw [done.2.2]
    show ((List.range' first count).map fun height =>
      (height, out.block s.clock height)).map Prod.fst = _
    rw [List.map_map]
    exact List.map_id _
  rw [← heights]
  exact sublist_collectBatch ok

theorem keeps_fetched {blocks : List LocatedBlock} {last : LocatedBlock}
    (phase : v.phase = .catchUp)
    (safe : Safe s) (ready : Ready v s)
    (ascending : blocks.Pairwise fun a b => a.height < b.height)
    (above : ∀ b ∈ blocks, v.currentHeight ≤ b.height) (isLast : blocks.getLast? = some last) :
    Prog.Keeps (handle o crc32 out) (Cautious out) Safe Ready
      (ingestFetched o config v blocks last.height) s := by
  have ahead : Ahead s blocks := fun file saved b mem =>
    Or.inl (Nat.le_of_lt (Nat.lt_of_lt_of_le (ready.below phase file saved) (above b mem)))
  unfold ingestFetched
  refine (keeps_batch ascending safe ahead).bind fun r s₁ safe₁ batch => ?_
  cases r with
  | error e => exact .throw safe₁
  | ok u =>
    obtain ⟨done, rest, split, finished, committed⟩ := batch.split
    have empty := finished.mp rfl
    rw [empty, List.append_nil] at split
    rw [← split] at committed
    have tracked : Tracked s₁ (some last.height) := by
      intro height same _
      cases same
      rw [(committed.last last isLast).1]
    have below : Below s₁ (last.height + 1) := by
      intro file saved
      have inside := List.mem_of_getLast? isLast
      rcases committed.file file saved with old | ⟨b, mem, header⟩
      · have low := ready.below phase file old
        have high := above last inside
        omega
      · have upTo : b.height ≤ last.height := by
          obtain ⟨init, rfl⟩ := List.getLast?_eq_some_iff.mp isLast
          rcases List.mem_append.mp mem with before | here
          · exact Nat.le_of_lt ((List.pairwise_append.mp ascending).2.2 b before last
              List.mem_cons_self)
          · rw [List.mem_singleton.mp here]
        omega
    refine (keeps_still (c := .isCancelled) trivial safe₁).bind fun cancelled s₂ safe₂ same => ?_
    split
    · exact keeps_leave safe₂ (tracked.congr same.1)
    · have small := committed.small last (List.mem_of_getLast? isLast)
      refine .pure safe₂ ⟨fun _ => ?_, tracked.congr same.1⟩
      show Below s₂ (asU32 (last.height + 1))
      rw [show asU32 (last.height + 1) = last.height + 1 from Nat.mod_eq_of_lt (by omega)]
      exact below.congr same.1

theorem keeps_catchingUp (phase : v.phase = .catchUp) (safe : Safe s) (ready : Ready v s) :
    Prog.Keeps (handle o crc32 out) (Cautious out) Safe Ready (catchUp o config v) s := by
  unfold catchUp
  refine (keeps_still (c := .isCancelled) trivial safe).bind fun cancelled s₁ safe₁ same₁ => ?_
  have ready₁ := ready.congr same₁.1
  split
  · exact keeps_leave safe₁ ready₁.tracked
  refine (keeps_still (c := .getTipHeight) trivial safe₁).bind fun r s₂ safe₂ same₂ => ?_
  refine (safe_orFail safe₂).bind fun tip s₃ _ same₃ => ?_
  rw [same₃.1]
  have ready₂ := ready₁.congr same₂.1
  dsimp only
  split
  · exact keeps_leave safe₂ ready₂.tracked
  refine (keeps_fetch v.currentHeight _ safe₂).bind fun r s₄ safe₄ fetched => ?_
  refine (safe_orFail safe₄).bind fun blocks s₅ _ same₅ => ?_
  rw [same₅.1]
  have ready₄ := ready₂.congr fetched.1
  have heights := fetched.2 blocks same₅.2
  split
  · exact keeps_leave safe₄ ready₄.tracked
  · rename_i last isLast
    refine (keeps_still (c := .isCancelled) trivial safe₄).bind fun cancelled s₆ safe₆ same₆ => ?_
    split
    · exact keeps_leave safe₆ (ready₄.congr same₆.1).tracked
    · refine keeps_fetched phase safe₆ (ready₄.congr same₆.1)
        (List.pairwise_map.mp (List.Pairwise.sublist heights List.pairwise_lt_range'))
        (fun b mem => ?_) isLast
      have asked := heights.subset (List.mem_map.mpr ⟨b, mem, rfl⟩)
      exact (List.mem_range'_1.mp asked).1

theorem keeps_walk (heights : List ℕ) (safe : Safe s) :
    Prog.Keeps (handle o crc32 out) (Cautious out) Safe
      (fun fork s' => Unmoved s s' ∧ fork ∈ heights) (walkBack heights) s := by
  induction heights generalizing s with
  | nil => exact .throw safe
  | cons height rest ih =>
    unfold walkBack
    refine (keeps_still (c := .lookupBlockHash height) trivial safe).bind
      fun r s₁ safe₁ same₁ => ?_
    refine (safe_orFail safe₁).bind fun ourHash s₂ _ same₂ => ?_
    rw [same₂.1]
    refine (keeps_still (c := .getBlockHash height) trivial safe₁).bind
      fun r s₃ safe₃ same₃ => ?_
    refine (safe_orFail safe₃).bind fun canonicalHash s₄ _ same₄ => ?_
    rw [same₄.1]
    have same := same₁.1.trans same₃.1
    split
    · exact .pure safe₃ ⟨same, List.mem_cons_self⟩
    · exact (ih safe₃).mono fun fork s₅ _ found =>
        ⟨same.trans found.1, List.mem_cons_of_mem _ found.2⟩

/-- A rollback that stops no lower than the file's height. -/
theorem keeps_rollback {currentTip forkPoint : ℕ} {tracker : Option ℕ} (small : forkPoint < 2 ^ 31)
    (safe : Safe s) (tracked : Tracked s tracker) :
    Prog.Keeps (handle o crc32 out) (Cautious out) Safe (fun _ s' => Tracked s' tracker)
      (perform (.rollbackToHeight currentTip forkPoint)) s := by
  refine Prog.Keeps.perform (I := Calls) (o := Op.rollbackToHeight currentTip forkPoint) safe
    fun met => ?_
  rw [handle_rollbackToHeight o crc32 out safe.free]
  have moved := Graph.storedHeight_rollbackTo s.graph currentTip forkPoint
  rw [asI32_of_lt small] at moved
  refine ⟨⟨rfl, ?_, fun file saved => ?_⟩, fun height isSome mark => ?_⟩
  · show (s.graph.rollbackTo currentTip forkPoint).storedHeight < 2 ^ 31
    have word := safe.word
    omega
  · show (headerHeight file : ℤ) ≤ (s.graph.rollbackTo currentTip forkPoint).storedHeight
    have low := safe.behind file saved
    have high := met file saved
    omega
  · have unmarked : s.rolledBack = false ∧ ¬ forkPoint < currentTip := by
      simpa [Bool.or_eq_false_iff] using mark
    show (height : ℤ) ≤ (s.graph.rollbackTo currentTip forkPoint).storedHeight
    have low := tracked height isSome unmarked.1
    omega

theorem keeps_reorg {reorgHeight : ℕ} {tracker : Option ℕ} (small : reorgHeight < 2 ^ 31)
    (safe : Safe s) (tracked : Tracked s tracker) :
    Prog.Keeps (handle o crc32 out) (Cautious out) Safe (fun _ s' => Tracked s' tracker)
      (handleReorg reorgHeight) s := by
  unfold handleReorg findForkPoint
  refine (keeps_withContext (keeps_walk _ safe)).bind fun fork s₁ safe₁ found => ?_
  obtain ⟨unmoved, mem⟩ := found
  have upTo := (Graph.mem_heightsDown.mp mem).2
  refine (keeps_rollback (by omega) safe₁ (tracked.congr unmoved)).bind
    fun r s₃ safe₃ tracked₃ => ?_
  refine (safe_orFail safe₃).bind fun _ s₄ _ same₄ => ?_
  rw [same₄.1]
  exact .pure safe₃ tracked₃

theorem keeps_new (remaining : ℕ) {height : ℕ} {tracker : Option ℕ} (safe : Safe s)
    (tracked : Tracked s tracker) :
    Prog.Keeps (handle o crc32 out) (Cautious out) Safe (fun r s' => Tracked s' r.2)
      (ingestNew o config remaining height tracker) s := by
  induction remaining generalizing s height tracker with
  | zero => exact .pure safe tracked
  | succ remaining ih =>
    unfold ingestNew
    refine (keeps_still (c := .getBlock height) trivial safe).bind fun r s₁ safe₁ done => ?_
    obtain ⟨unmoved, served, answer⟩ := done
    have tracked₁ := tracked.congr unmoved
    refine (safe_orFail safe₁).bind fun found s₂ _ same => ?_
    rw [same.1]
    cases found with
    | none => exact ih safe₁ tracked₁
    | some block =>
      dsimp only
      have ahead : Ahead s₁ [⟨height, block, "rpc"⟩] := by
        intro file saved b mem
        rw [List.mem_singleton.mp mem]
        refine (served block (answer.symm.trans same.2) file (unmoved.file ▸ saved)).imp_right ?_
        intro stored
        unfold State.Stored at stored ⊢
        rwa [unmoved.graph]
      refine (keeps_batch (List.pairwise_singleton _ _) safe₁ ahead).bind
        fun r s₃ safe₃ batch => ?_
      obtain ⟨done, rest, split, finished, committed⟩ := batch.split
      cases r with
      | ok u =>
        have empty := finished.mp rfl
        rw [empty, List.append_nil] at split
        rw [← split] at committed
        refine ih safe₃ fun h isSome _ => ?_
        cases isSome
        rw [(committed.last ⟨height, block, "rpc"⟩ rfl).1]
      | error e =>
        -- the only block has not been committed
        have left : rest ≠ [] := fun empty => by cases finished.mpr empty
        have nothing : done = [] := by
          cases done with
          | nil => rfl
          | cons b done =>
            have short := congrArg List.length split
            have some := List.length_pos_iff.mpr left
            simp only [List.length_append, List.length_cons, List.length_nil] at short
            omega
        have tracked₃ : Tracked s₃ tracker := by
          intro h isSome mark
          rw [(committed.none nothing).1]
          exact tracked₁ h isSome ((committed.none nothing).2 ▸ mark)
        cases e with
        | ReorgDetected reorgHeight expected actual =>
          refine (keeps_reorg (batch.reorg _ _ _ rfl) safe₃ tracked₃).bind
            fun next s₄ safe₄ tracked₄ => .pure safe₄ tracked₄
        | _ => exact .throw safe₃

theorem keeps_end (safe : Safe s) (tracked : Tracked s v.tracker) :
    Prog.Keeps (handle o crc32 out) (Cautious out) Safe Ready (finish config v) s := by
  unfold finish
  split
  · rename_i height isSome
    split
    · refine (keeps_saveToFile safe fun (met : Cautious out (.saveToFile .shutdown height) s)
        written => tracked height isSome (met written)).bind fun r s₁ safe₁ saved =>
          .pure safe₁ ⟨fun phase => (by cases phase), fun h some mark => ?_⟩
      have graph : s₁.graph = s.graph := congrArg (·.store.committed) saved.1
      rw [graph]
      exact tracked h some (saved.2.1 ▸ mark)
    · exact .pure safe ⟨fun phase => (by cases phase), tracked⟩
  · exact .pure safe ⟨fun phase => (by cases phase), tracked⟩

theorem keeps_notification (phase : v.phase = .realTime) (safe : Safe s) (ready : Ready v s) :
    Prog.Keeps (handle o crc32 out) (Cautious out) Safe Ready (notified o config v) s := by
  unfold notified
  refine (keeps_still (c := .getTipHeight) trivial safe).bind fun r s₁ safe₁ same₁ => ?_
  refine (safe_orFail safe₁).bind fun tip s₂ _ same₂ => ?_
  rw [same₂.1]
  refine (keeps_new _ safe₁ (ready.tracked.congr same₁.1)).bind fun r s₃ safe₃ tracked => ?_
  dsimp only
  split
  · exact keeps_end safe₃ tracked
  · refine .pure safe₃ ⟨fun catching => ?_, tracked⟩
    exact absurd (phase.symm.trans catching) (by decide)

theorem keeps_listening (phase : v.phase = .realTime) (safe : Safe s) (ready : Ready v s) :
    Prog.Keeps (handle o crc32 out) (Cautious out) Safe Ready (realTime o config v) s := by
  unfold realTime
  refine (keeps_still (c := .recvBlockHash) trivial safe).bind fun event s₁ safe₁ same₁ => ?_
  have ready₁ := ready.congr same₁.1
  cases event with
  | shutdown => exact keeps_end safe₁ ready₁.tracked
  | received => exact keeps_notification phase safe₁ ready₁
  | failed =>
    dsimp only
    split
    · exact .throw safe₁
    refine (keeps_still (c := .backoff) trivial safe₁).bind fun stop s₂ safe₂ same₂ => ?_
    have ready₂ := ready₁.congr same₂.1
    split
    · exact keeps_end safe₂ ready₂.tracked
    · exact .pure safe₂ ⟨ready₂.below, ready₂.tracked⟩

theorem keeps_iterating (n : ℕ) (safe : Safe s) (ready : Ready v s) :
    Prog.Keeps (handle o crc32 out) (Cautious out) Safe Ready (iterations o config n v) s := by
  induction n generalizing s v with
  | zero => exact .pure safe ready
  | succ n ih =>
    unfold iterations
    have step : Prog.Keeps (handle o crc32 out) (Cautious out) Safe Ready
        (iterate o config v) s := by
      unfold iterate
      cases phase : v.phase with
      | catchUp => exact keeps_catchingUp phase safe ready
      | realTime => exact keeps_listening phase safe ready
      | done => exact .pure safe ready
    exact step.bind fun v' s₁ safe₁ ready₁ => ih safe₁ ready₁

theorem keeps_begin (safe : Safe s) :
    Prog.Keeps (handle o crc32 out) (Cautious out) Safe Ready (begin config) s := by
  unfold begin
  refine (keeps_restoreCache steady_safe safe).bind fun _ s₁ safe₁ _ => ?_
  refine (keeps_ensureSchema safe₁).bind fun _ s₂ safe₂ _ => ?_
  refine (keeps_syncCheckpointWithDb safe₂).bind fun r s₃ safe₃ recovered => ?_
  refine (safe_orFail safe₃).bind fun resumeHeight s₄ _ same₄ => ?_
  rw [same₄.1]
  refine (keeps_still (c := .verifyConnection) trivial safe₃).bind fun r s₅ safe₅ same₅ => ?_
  refine (safe_orFail safe₅).bind fun _ s₆ _ same₆ => ?_
  rw [same₆.1]
  refine .pure safe₅ ⟨fun _ => ?_, fun height isSome => by cases isSome⟩
  exact (recovered.2 resumeHeight same₄.2).congr same₅.1

theorem keeps_runLiveIngestion (n : ℕ) (safe : Safe s) :
    Prog.Keeps (handle o crc32 out) (Cautious out) Safe Ready (runLiveIngestion o config n) s := by
  unfold runLiveIngestion
  exact (keeps_begin safe).bind fun v s₁ safe₁ ready => keeps_iterating n safe₁ ready

/-! ## Every moment of every life -/

theorem keeps_command (command : Command) (safe : Safe s) :
    Prog.Keeps (handle o crc32 out) (Cautious out) Safe (fun _ _ => True)
      (command.run o config) s := by
  cases command with
  | ingest => exact keeps_ingest safe
  | resume => exact keeps_resume safe
  | live n => exact (keeps_runLiveIngestion n safe).bind fun _ _ safe' _ => .pure safe' trivial

theorem safe_restarted {capacity : ℕ} (safe : Safe s) : Safe (restarted capacity s) :=
  ⟨rfl, safe.word, safe.behind⟩

/-- The calls of every life meet the condition. -/
def LivesAllowed (o : IngestionOrchestrator) (config : Config) (crc32 : List UInt8 → UInt32)
    (out : Outside) (capacity : ℕ) : List (Command × ℕ) → State → Prop
  | [], _ => True
  | (command, n) :: rest, s =>
    Prog.Allowed (handle o crc32 out) (Cautious out) n (command.run o config) s ∧
      LivesAllowed o config crc32 out capacity rest
        (restarted capacity ((command.run o config).crash (handle o crc32 out) n s))

/-- At every moment of every run the height in the cache file is at most the stored height of the
checkpoint, as long as the calls keep the file from getting ahead. -/
theorem snapshot_behind_checkpoint (o : IngestionOrchestrator) (config : Config)
    (crc32 : List UInt8 → UInt32) (out : Outside) (capacity : ℕ) (lives : List (Command × ℕ))
    (s : State) (safe : Safe s) (met : LivesAllowed o config crc32 out capacity lives s) :
    (afterLives o config crc32 out capacity lives s).Behind := by
  induction lives generalizing s with
  | nil => exact safe.behind
  | cons life rest ih =>
    obtain ⟨command, n⟩ := life
    exact ih _ (safe_restarted ((keeps_command command safe).crash met.1)) met.2

end Live

namespace Live.Sample

open Process ChainGraph.Sample

/-- The block files hold the first block. -/
def archived : Outside :=
  { outside (fun _ => 0) fun _ _ => none with
    load := fun height => .ok (if height = 0 then some (first.block, first.fileName) else none) }

end Live.Sample

namespace Live

open Process UtxoCache

/-- A finished `ingest` of one block leaves the next height in the file, and a rollback leaves the
file at the height it has rolled back. -/
theorem snapshot_ahead_sample :
    let o := ChainGraph.Sample.orchestrator 1000000
    let finished := afterLives o { Sample.config "utxo.cache" with maxHeight := 0 } Sample.crc32
      Sample.archived 64 [(.ingest, 100)] Sample.empty
    let saved := { Sample.forked with
      file := some (Sample.forked.world.memory.saveToFile Sample.crc32 1).1 }
    let rolled := (iterations o (Sample.config "utxo.cache") 1 ⟨.realTime, 2, none, 0⟩).run
      (handle o Sample.crc32 Sample.longer) saved
    finished.file.map headerHeight = some 1 ∧ finished.graph.storedHeight = 0 ∧
      saved.file.map headerHeight = some 1 ∧ saved.graph.storedHeight = 1 ∧
      rolled.2.file.map headerHeight = some 1 ∧ rolled.2.graph.storedHeight = 0 := by
  decide +kernel

theorem snapshot_behind_checkpoint_sample :
    let s := afterLives (ChainGraph.Sample.orchestrator 1000000) (Sample.config "utxo.cache")
      Sample.crc32 Sample.steady 64 [(.live 1, 12)] Sample.empty
    s.file.map headerHeight = some 1 ∧ s.Behind := by
  refine ⟨by decide +kernel, ?_⟩
  refine snapshot_behind_checkpoint _ _ _ _ _ _ _
    ⟨rfl, by decide, fun file saved => by cases saved⟩ (And.intro ?_ trivial)
  have heights : ∀ b ∈ [(⟨0, ChainGraph.Sample.first.block, "rpc"⟩ : LocatedBlock),
      ⟨1, ChainGraph.Sample.second.block, "rpc"⟩], b.height < 2 ^ 31 := by
    decide
  -- loading, checking and making the checkpoint, recovering, connecting
  refine And.intro trivial (And.intro trivial (And.intro trivial (And.intro ?_ ?_)))
  · exact fun special => absurd special (by decide +kernel)
  -- the tip, the batch, the chunk and its save
  exact And.intro trivial (And.intro trivial (And.intro trivial (And.intro trivial
    (And.intro trivial (And.intro heights (And.intro trivial (And.intro trivial trivial)))))))

end Live

end ChainGraph

import ChainGraph.Laws.Behind
import ChainGraph.Laws.Synced

/-!
# What resume reaches

`resume` goes on after the checkpoint and stops at the configured height. What the loop ingests
is in the database, with the checkpoint at the last height. But the command leaves before the loop
if the height after the checkpoint is the configured one, or above it; so the one block that is
asked for there is not ingested, and nothing says so.
-/

namespace ChainGraph

open Foundation

namespace Process

open IngestionOrchestrator

variable {o : IngestionOrchestrator} {config : Config} {crc32 : List UInt8 → UInt32}
  {out : Outside} {s s' : State}

/-! ## Advancing -/

/-- What ingesting some blocks leaves: no block is lost, they are all stored, and the checkpoint is
that of the last one. -/
structure Advanced (s : State) (blocks : List LocatedBlock) (s' : State) : Prop where
  kept : ∀ height, s.Stored height → s'.Stored height
  stored : ∀ b ∈ blocks, s'.Stored b.height
  checkpoint : s'.graph.checkpoint = (lastCheckpoint blocks).or s.graph.checkpoint

theorem stored_congr_graph (same : s'.graph = s.graph) (height : ℕ) :
    s'.Stored height ↔ s.Stored height := by
  unfold State.Stored
  rw [same]

namespace Advanced

variable {s₁ : State} {first rest : List LocatedBlock}

/-- Nothing is ingested. -/
theorem of_graph (same : s'.graph = s.graph) : Advanced s [] s' where
  kept height := (stored_congr_graph same height).mpr
  stored b mem := by cases mem
  checkpoint := by
    rw [same]
    rfl

theorem append (before : Advanced s first s₁) (after : Advanced s₁ rest s') :
    Advanced s (first ++ rest) s' where
  kept height stored := after.kept height (before.kept height stored)
  stored b mem := by
    rcases List.mem_append.mp mem with early | late
    · exact after.kept _ (before.stored b early)
    · exact after.stored b late
  checkpoint := by
    rw [after.checkpoint, before.checkpoint, lastCheckpoint_append, Option.or_assoc]

end Advanced

theorem keeps_advanceChunk (chunk : List LocatedBlock) (free : s.Free) :
    Prog.Keeps (handle o crc32 out) (fun _ _ => True) State.Free
      (fun (r : Except WriterError (ℕ × ℕ × ℕ)) s' => r.isOk → Advanced s chunk s')
      (perform (.ingestChunk chunk)) s := by
  have effect : ChunkEffect s.graph chunk ((handle o crc32 out (.ingestChunk chunk) s).1,
      (handle o crc32 out (.ingestChunk chunk) s).2.world) := chunkEffect_handle free chunk
  refine Prog.Keeps.perform (I := Calls) (o := Op.ingestChunk chunk) free fun _ => ?_
  generalize handle o crc32 out (.ingestChunk chunk) s = result at effect
  obtain ⟨r, s'⟩ := result
  refine ⟨effect.free, fun ok => ⟨fun height stored => ?_, fun b mem => ?_, ?_⟩⟩
  · obtain ⟨n, inside, here⟩ := stored_iff.mp stored
    exact stored_iff.mpr ⟨n, (effect.blocks n).mpr (Or.inr inside), here⟩
  · have row : BlockData.fromBlock b.block b.height ∈ blockRows chunk :=
      List.mem_map.mpr ⟨b, mem, rfl⟩
    exact stored_iff.mpr ⟨_, (effect.blocks _).mpr (Or.inl ⟨ok, row⟩), rfl⟩
  · have checkpoint := effect.checkpoint
    rw [if_pos ok] at checkpoint
    exact checkpoint

theorem keeps_advanceChunks (chunks : List (List LocatedBlock)) (free : s.Free) :
    Prog.Keeps (handle o crc32 out) (fun _ _ => True) State.Free
      (fun (r : Except WriterError Unit) s' => r = .ok () → Advanced s chunks.flatten s')
      (ingestChunks config chunks) s := by
  induction chunks generalizing s with
  | nil => exact .pure free fun _ => .of_graph rfl
  | cons chunk rest ih =>
    unfold ingestChunks
    refine (keeps_advanceChunk chunk free).bind fun r s₁ free₁ done => ?_
    cases r with
    | error e => exact .pure free₁ fun ok => by cases ok
    | ok counts =>
      refine (keeps_trySaveSnapshot _ free₁).bind fun _ s₂ free₂ same => ?_
      have saved : Advanced s₁ [] s₂ := .of_graph (congrArg (·.store.committed) same)
      refine (ih free₂).mono fun r s₃ _ advanced ok => ?_
      exact (done rfl).append (saved.append (advanced ok))

theorem keeps_advanceBatch (blocks : List LocatedBlock) (free : s.Free) :
    Prog.Keeps (handle o crc32 out) (fun _ _ => True) State.Free
      (fun (r : Except WriterError Unit) s' => r = .ok () → Advanced s blocks s')
      (ingestBlocksBatch o config blocks) s := by
  have keeps : Prog.Keeps (handle o crc32 out) (fun _ _ => True) State.Free
      (fun r s' => r = .ok () → Advanced s (o.adaptiveChunks blocks).flatten s')
      (ingestChunks config (o.adaptiveChunks blocks)) s := keeps_advanceChunks _ free
  rw [flatten_adaptiveChunks] at keeps
  exact keeps

/-! ## The loop -/

theorem load_none {height : ℕ}
    (loaded : (handle o crc32 out (.loadBlock height) s).1 = .ok none) :
    out.load height = .ok none := by
  have given : (out.load height).map (Option.map fun found =>
      (⟨height, found.1, found.2⟩ : LocatedBlock)) = .ok none := loaded
  cases read : out.load height with
  | error e =>
    rw [read] at given
    cases given
  | ok found =>
    cases found with
    | none => rfl
    | some found =>
      rw [read] at given
      cases given

/-- With a block at every height up to the last, the loop ingests the batch and all that is left. -/
theorem keeps_advanceLoop {batchSize maxHeight height n processed : ℕ} {batch : List LocatedBlock}
    (upTo : height + n = maxHeight + 1) (index : ∀ k ≤ maxHeight, out.load k ≠ .ok none)
    (handed : n = 0 → batch = []) (free : s.Free) :
    Prog.Keeps (handle o crc32 out) (fun _ _ => True) State.Free
      (fun _ s' => ∃ blocks, blocks.map (·.height) = List.range' height n ∧
        Advanced s (batch ++ blocks) s')
      ((Streaming.mainLoop batchSize maxHeight (List.range' height n) batch processed).interpret
        (streamingCall o config)) s := by
  induction n generalizing s height batch processed with
  | zero =>
    rw [handed rfl]
    exact .pure free ⟨[], rfl, .of_graph rfl⟩
  | succ n ih =>
    rw [List.range'_succ]
    unfold Streaming.mainLoop Streaming.perform
    rw [Prog.interpret_bind, Prog.interpret_perform]
    refine (keeps_unmoved (c := .loadBlock height) steady_free trivial free).bind
      fun r s₁ free₁ loaded => ?_
    obtain ⟨same, _, answer⟩ := loaded
    have start : Advanced s [] s₁ := .of_graph same.graph
    cases r with
    | error e => exact .throw free₁
    | ok found =>
      cases found with
      | none => exact absurd (load_none answer.symm) (index height (by omega))
      | some data =>
        have here : data.height = height := height_loaded answer.symm
        dsimp only
        split
        · rw [Prog.interpret_bind, Prog.interpret_perform]
          refine (keeps_advanceBatch (batch ++ [data]) free₁).bind fun r s₂ free₂ done => ?_
          cases r with
          | error e => exact .throw free₂
          | ok u =>
            have ingested : Advanced s (batch ++ [data]) s₂ := start.append (done rfl)
            refine (ih (by omega) (fun _ => rfl) free₂).mono fun _ s₃ _ left => ?_
            obtain ⟨blocks, heights, advanced⟩ := left
            refine ⟨data :: blocks, ?_, ?_⟩
            · rw [List.map_cons, heights, here]
            · rw [List.append_cons]
              exact ingested.append advanced
        · rename_i wait
          rw [not_or] at wait
          refine (ih (by omega) (fun last => by omega) free₁).mono fun _ s₃ _ left => ?_
          obtain ⟨blocks, heights, advanced⟩ := left
          refine ⟨data :: blocks, ?_, ?_⟩
          · rw [List.map_cons, heights, here]
          · rw [List.append_cons]
            exact start.append advanced

/-- A streaming run that returns has ingested every height from its start to the last. -/
theorem keeps_advanceStreaming {startHeight : ℕ} {enablePrewarm : Bool}
    (within : startHeight ≤ config.maxHeight)
    (index : ∀ k ≤ config.maxHeight, out.load k ≠ .ok none) (free : s.Free) :
    Prog.Keeps (handle o crc32 out) (fun _ _ => True) State.Free
      (fun _ s' => ∃ blocks, blocks.map (·.height) =
          List.range' startHeight (config.maxHeight + 1 - startHeight) ∧ Advanced s blocks s')
      (runStreamingIngestion o config startHeight enablePrewarm) s := by
  unfold runStreamingIngestion Streaming.runStreamingIngestion
  simp only [Prog.interpret_bind]
  refine (keeps_restoreCache steady_free free).bind fun _ s₁ free₁ same₁ => ?_
  refine (keeps_prewarm steady_free free₁).bind fun _ s₂ free₂ same₂ => ?_
  refine (keeps_preload steady_free free₂).bind fun _ s₃ free₃ same₃ => ?_
  have start : Advanced s [] s₃ := .of_graph ((same₁.trans same₂).trans same₃).graph
  refine (keeps_advanceLoop (by omega) index (fun _ => rfl) free₃).bind fun n s₄ free₄ left => ?_
  obtain ⟨blocks, heights, advanced⟩ := left
  unfold Streaming.saveCache Streaming.perform
  split
  · rw [Prog.interpret_bind, Prog.interpret_perform]
    refine (keeps_quiet (c := .saveToFile .completion _) trivial free₄).bind
      fun r s₅ free₅ same => ?_
    have saved : Advanced s₄ [] s₅ := .of_graph (congrArg (·.store.committed) same.1)
    refine .pure free₅ ⟨blocks, heights, ?_⟩
    rw [← List.append_nil blocks]
    exact (start.append advanced).append saved
  · exact .pure free₄ ⟨blocks, heights, start.append advanced⟩

/-! ## Before the loop -/

/-- The blocks through a height are stored and none above, and the checkpoint is there. A checkpoint
at 255 is read back as none and looked for again, so there the block has its transactions too. -/
structure StoredThrough (s : State) (h : ℕ) : Prop where
  free : s.Free
  checkpoint : s.graph.storedHeight = h
  word : h < 2 ^ 31
  stored : ∀ height ≤ h, s.Stored height
  above : ∀ b ∈ s.graph.blocks, b.height ≤ h
  complete : h = 255 → s.graph.CompleteAt h

/-- The graph is the same, the checkpoint apart. -/
def Untouched (s s' : State) : Prop :=
  ∃ checkpoint, s'.graph = { s.graph with checkpoint := checkpoint }

/-- The checkpoint says that ingestion is complete. -/
def State.Completed (s : State) : Prop := s.graph.checkpoint.map (·.status) = some "completed"

instance (s : State) : Decidable s.Completed := inferInstanceAs (Decidable (_ = _))

section StoredThrough

variable {h : ℕ}

theorem getMaxBlockHeight_through (through : StoredThrough s h) :
    s.graph.getMaxBlockHeight = some h := by
  have word := through.word
  have here : (s.graph.lookupBlockHash h).isSome := through.stored h (Nat.le_refl h)
  rw [Graph.lookupBlockHash, Option.isSome_map] at here
  exact Graph.getMaxBlockHeight_eq here through.above (by omega)

/-- Recovery finds nothing to do, or its checkpoint again. -/
theorem run_sync_through (through : StoredThrough s h) :
    ∃ checkpoint, o.syncCheckpointWithDb.run Store.handle ⟨s.graph, none⟩ =
        (.ok (h + 1), ⟨{ s.graph with checkpoint := checkpoint }, none⟩) ∧
      Graph.storedHeight { s.graph with checkpoint := checkpoint } = h := by
  have max := getMaxBlockHeight_through through
  have word := through.word
  have height := through.checkpoint
  by_cases special : h = 255
  · have read : s.graph.readHeight = -1 := Graph.readHeight_255 (by rw [height, special]; rfl)
    have complete := through.complete special
    have synced := synced_above (o := o) (by rw [read]) max (by omega) (by rw [read]; omega)
    have whole : ¬ (s.graph.rolledBack h (h + 1)).IncompleteAt h := by
      rw [Graph.rolledBack_top]
      exact fun incomplete => incomplete.2 complete
    have reached_eq {k : ℕ} (high : k ≤ h) (reached : s.graph.Reached h k) : k = h := by
      by_contra other
      exact whole (reached h (by omega) (Nat.le_refl h))
    generalize o.syncCheckpointWithDb.run Store.handle ⟨s.graph, none⟩ = result at synced
    cases synced with
    | found k stored low high reached _ same =>
      have here := reached_eq high reached
      subst here
      rw [Graph.rolledBack_top]
      exact ⟨some stored, rfl, same⟩
    | nothing skipped => exact absurd (skipped h (by rw [read]; omega) (Nat.le_refl h)) whole
    | hole e store k low high reached none =>
      have here := reached_eq high reached
      subst here
      rw [Graph.rolledBack_top] at none
      have some := complete.isSome
      rw [none] at some
      cases some
  · have read : s.graph.readHeight = h := by
      rw [Graph.readHeight_eq, height] <;> rw [height] <;> omega
    refine ⟨s.graph.checkpoint, ?_, height⟩
    rw [run_sync_beside (by omega), read]
    · rfl
    · intro top same
      cases max.symm.trans same
      rw [asI32_of_lt word, read]

theorem Untouched.stored_iff (untouched : Untouched s s') (height : ℕ) :
    s'.Stored height ↔ s.Stored height := by
  obtain ⟨checkpoint, same⟩ := untouched
  unfold State.Stored
  rw [same]
  rfl

/-- Nothing is stored above. -/
theorem not_stored_above (through : StoredThrough s h) {height : ℕ} (above : h < height) :
    ¬ s.Stored height := by
  intro stored
  obtain ⟨n, mem, rfl⟩ := Process.stored_iff.mp stored
  have below := through.above n mem
  omega

theorem handle_getCheckpoint :
    handle o crc32 out .getCheckpoint s =
      (.ok s.graph.getCheckpoint, { s with clock := s.clock + 1 }) := rfl

variable (o crc32 out) in
theorem handle_syncCheckpointWithDb (through : StoredThrough s h) :
    ∃ checkpoint, handle o crc32 out .syncCheckpointWithDb s = (.ok (h + 1),
        { s with
          world := ⟨⟨{ s.graph with checkpoint := checkpoint }, none⟩, s.world.memory⟩
          clock := s.clock + 1 }) ∧
      Graph.storedHeight { s.graph with checkpoint := checkpoint } = h := by
  obtain ⟨checkpoint, ran, height⟩ := run_sync_through (o := o) through
  refine ⟨checkpoint, ?_, height⟩
  have lifted : (io o.syncCheckpointWithDb).run World.handle s.world =
      (.ok (h + 1), ⟨⟨{ s.graph with checkpoint := checkpoint }, none⟩, s.world.memory⟩) := by
    rw [world_of_free through.free]
    exact run_io_eq ran
  have acted := orchestrate_eq lifted
  show ((s.orchestrate (io o.syncCheckpointWithDb)).1,
    { (s.orchestrate (io o.syncCheckpointWithDb)).2 with clock := s.clock + 1 }) = _
  rw [acted]

variable (o config crc32 out) in
/-- The command leaves before the loop, or goes on with it from the height after the checkpoint. -/
theorem run_resume (through : StoredThrough s h) :
    ∃ s₁, s₁.Free ∧ Untouched s s₁ ∧ s₁.graph.storedHeight = h ∧
      (resume o config).run (handle o crc32 out) s =
        if s.Completed ∨ config.maxHeight ≤ h + 1 ∧ config.maxHeight ≠ Streaming.unbounded then
          (.ok (), s₁)
        else (runStreamingIngestion o config (h + 1) true).run (handle o crc32 out) s₁ := by
  obtain ⟨c, stored⟩ : ∃ c, s.graph.checkpoint = some c := by
    apply Option.ne_none_iff_exists'.mp
    intro none
    have height := through.checkpoint
    unfold Graph.storedHeight at height
    rw [none] at height
    have negative : (-1 : ℤ) = h := height
    omega
  have status : s.Completed ↔ c.status = "completed" := by
    unfold State.Completed
    rw [stored, Option.map_some, Option.some_inj]
  have later : StoredThrough { s with clock := s.clock + 1 } h :=
    ⟨through.free, through.checkpoint, through.word, through.stored, through.above,
      through.complete⟩
  unfold resume perform
  rw [Prog.run_bind, Prog.run_perform, handle_getCheckpoint]
  unfold Graph.getCheckpoint
  rw [stored, Option.map_some]
  show ∃ s₁, _ ∧ _ ∧ _ ∧ (if c.status = "completed" then _ else _ : Proc Unit).run _ _ = _
  by_cases completed : s.Completed
  · refine ⟨{ s with clock := s.clock + 1 }, through.free, ⟨s.graph.checkpoint, rfl⟩,
      through.checkpoint, ?_⟩
    rw [if_pos (Or.inl completed), if_pos (status.mp completed)]
    rfl
  · obtain ⟨checkpoint, recovered, height⟩ := handle_syncCheckpointWithDb o crc32 out later
    refine ⟨{ s with
      world := ⟨⟨{ s.graph with checkpoint := checkpoint }, none⟩, s.world.memory⟩
      clock := s.clock + 1 + 1 }, rfl, ⟨checkpoint, rfl⟩, height, ?_⟩
    rw [if_neg fun same => completed (status.mpr same), Prog.run_bind, Prog.run_perform, recovered]
    show (if h + 1 ≥ config.maxHeight ∧ _ then _ else _ : Proc Unit).run _ _ = _
    split
    · rename_i beyond
      rw [if_pos (Or.inr beyond)]
      rfl
    · rename_i goes
      rw [if_neg fun stops => goes (stops.resolve_left completed)]
      rfl

/-! ## Reaching the height -/

/-- Every block through a height is stored, and the checkpoint is at it. -/
def State.Reaches (s : State) (h : ℕ) : Prop :=
  (∀ height ≤ h, s.Stored height) ∧ s.graph.storedHeight = h

/-- The checkpoint of the last of some heights. -/
theorem storedHeight_advanced {blocks : List LocatedBlock} {first last : ℕ} (le : first ≤ last)
    (heights : blocks.map (·.height) = List.range' first (last + 1 - first))
    (advanced : Advanced s blocks s') : s'.graph.storedHeight = asI32 last := by
  have count : last + 1 - first = (last - first) + 1 := by omega
  have top := congrArg List.getLast? heights
  rw [List.getLast?_map, count, List.range'_1_concat, List.getLast?_concat,
    Nat.add_sub_cancel' le] at top
  obtain ⟨b, isLast, here⟩ := Option.map_eq_some_iff.mp top
  have checkpoint := advanced.checkpoint
  unfold lastCheckpoint at checkpoint
  rw [isLast, Option.map_some, Option.some_or] at checkpoint
  rw [Graph.storedHeight_of_data (chunkCheckpoint b) checkpoint, ← here]
  rfl

/-- The loop reaches its last height, if a checkpoint can be at it. -/
theorem reaches_advanced {last : ℕ} {blocks : List LocatedBlock} (through : ∀ k ≤ h, s.Stored k)
    (le : h + 1 ≤ last) (heights : blocks.map (·.height) = List.range' (h + 1) (last + 1 - (h + 1)))
    (advanced : Advanced s blocks s') : s'.Reaches last ↔ last < 2 ^ 31 := by
  have checkpoint := storedHeight_advanced le heights advanced
  constructor
  · rintro ⟨_, here⟩
    have bound := asI32_lt last
    omega
  · intro word
    refine ⟨fun k low => ?_, checkpoint.trans (asI32_of_lt word)⟩
    by_cases old : k ≤ h
    · exact advanced.kept k (through k old)
    · have inside : k ∈ blocks.map (·.height) := by
        rw [heights, List.mem_range'_1]
        omega
      obtain ⟨b, mem, rfl⟩ := List.mem_map.mp inside
      exact advanced.stored b mem

variable (o config crc32 out) in
/-- **Resuming reaches the configured height** iff the checkpoint does not say that ingestion is
complete, the height is not the next one, and a checkpoint can be at it. At or below the checkpoint
nothing is ingested. -/
theorem resume_reaches_iff {tip : ℕ} (through : StoredThrough s h)
    (index : ∀ k ≤ tip, out.load k ≠ .ok none) :
    (h < config.maxHeight → config.maxHeight ≤ tip →
      ∀ s', (resume o config).run (handle o crc32 out) s = (.ok (), s') →
        (s'.Reaches config.maxHeight ↔
          ¬ s.Completed ∧ config.maxHeight ≠ h + 1 ∧ config.maxHeight < 2 ^ 31)) ∧
      (config.maxHeight ≤ h →
        ∃ s', (resume o config).run (handle o crc32 out) s = (.ok (), s') ∧ Untouched s s') := by
  have word := through.word
  obtain ⟨s₁, free, untouched, height, result⟩ := run_resume o config crc32 out through
  rw [result]
  constructor
  · intro above within s' ran
    split at ran
    case isTrue stops =>
      cases ran
      apply iff_of_false
      · rintro ⟨stored, _⟩
        have top := stored config.maxHeight (Nat.le_refl _)
        exact not_stored_above through above ((untouched.stored_iff _).mp top)
      · rintro ⟨open', other, _⟩
        rcases stops with completed | ⟨next, _⟩
        · exact open' completed
        · omega
    case isFalse goes =>
      rw [not_or] at goes
      have other : config.maxHeight ≠ h + 1 := by
        intro next
        apply goes.2
        refine ⟨by omega, ?_⟩
        unfold Streaming.unbounded
        omega
      have keeps : Prog.Keeps (handle o crc32 out) (fun _ _ => True) State.Free _
          (runStreamingIngestion o config (h + 1) true) s₁ :=
        keeps_advanceStreaming (by omega) (fun k low => index k (low.trans within)) free
      obtain ⟨_, blocks, heights, advanced⟩ := keeps.done ran
      have before : ∀ k ≤ h, s₁.Stored k := fun k low =>
        (untouched.stored_iff k).mpr (through.stored k low)
      rw [reaches_advanced before (by omega) heights advanced]
      constructor
      · exact fun small => ⟨goes.1, other, small⟩
      · exact fun all => all.2.2
  · intro below
    have bounded : config.maxHeight ≠ Streaming.unbounded := by
      unfold Streaming.unbounded
      omega
    rw [if_pos (Or.inr ⟨by omega, bounded⟩)]
    exact ⟨s₁, rfl, untouched⟩

end StoredThrough

end Process

/-! ## One block more -/

namespace Sample

open Process

/-- The first block is stored. -/
def atFirst : State := ⟨⟨⟨crashed first [], none⟩, .new 64⟩, none, 0, false⟩

/-- The blocks of the files. -/
def inFiles : ℕ → Option LocatedBlock
  | 0 => some first
  | 1 => some second
  | 2 => some third
  | _ => none

def files : Outside :=
  { Live.Sample.outside (fun _ => 2) (fun _ => inFiles) with
    load := fun height => .ok ((inFiles height).map fun b => (b.block, b.fileName)) }

def upTo (maxHeight : ℕ) : Config := { Live.Sample.config "" with maxHeight := maxHeight }

theorem through_atFirst : StoredThrough atFirst 0 where
  free := rfl
  checkpoint := by decide +kernel
  word := by decide
  stored height low := by
    rw [Nat.le_zero.mp low]
    unfold State.Stored
    decide +kernel
  above := by
    have all : ∀ b ∈ atFirst.graph.blocks.rows, b.height ≤ 0 := by decide +kernel
    exact all
  complete := by simp

theorem index_files : ∀ k ≤ 2, files.load k ≠ .ok none := by
  intro k low same
  have known : k = 0 ∨ k = 1 ∨ k = 2 := by omega
  rcases known with rfl | rfl | rfl <;> cases same

end Sample

namespace Process

open ChainGraph.Sample (atFirst files upTo orchestrator)

/-- The second block is asked for and in the files; the command returns, and has not ingested it. -/
theorem next_block_left :
    StoredThrough atFirst 0 ∧ (∀ k ≤ 2, files.load k ≠ .ok none) ∧
      ∃ s', (resume (orchestrator 1000000) (upTo 1)).run
          (handle (orchestrator 1000000) Live.Sample.crc32 files) atFirst = (.ok (), s') ∧
        ¬ s'.Stored 1 ∧ ¬ s'.Reaches 1 := by
  refine ⟨ChainGraph.Sample.through_atFirst, ChainGraph.Sample.index_files, _,
    Prod.ext (by decide +kernel) rfl, ?_⟩
  have left : ¬ State.Stored ((resume (orchestrator 1000000) (upTo 1)).run
      (handle (orchestrator 1000000) Live.Sample.crc32 files) atFirst).2 1 := by
    unfold State.Stored
    decide +kernel
  exact ⟨left, fun reaches => left (reaches.1 1 (Nat.le_refl 1))⟩

/-- Up to the block after it, both are ingested. -/
theorem resume_reaches_iff_sample :
    ∃ s', (resume (orchestrator 1000000) (upTo 2)).run
        (handle (orchestrator 1000000) Live.Sample.crc32 files) atFirst = (.ok (), s') ∧
      s'.Reaches 2 := by
  have returned : ((resume (orchestrator 1000000) (upTo 2)).run
      (handle (orchestrator 1000000) Live.Sample.crc32 files) atFirst).1 = .ok () := by
    decide +kernel
  have reaches := (resume_reaches_iff (orchestrator 1000000) (upTo 2) Live.Sample.crc32 files
    ChainGraph.Sample.through_atFirst ChainGraph.Sample.index_files).1 (by decide) (by decide) _
    (Prod.ext returned rfl)
  refine ⟨_, Prod.ext returned rfl, reaches.mpr ⟨by decide +kernel, by decide, by decide⟩⟩

end Process

end ChainGraph

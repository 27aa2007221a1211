import ChainGraph.Laws.Errors
import ChainGraph.Laws.Linkage
import ChainGraph.Laws.Reorg
import ChainGraph.Laws.RpcProvider
import ChainGraph.Main.Live

/-!
# Live mode and the stored chain

What the calls of a run do to the blocks and the checkpoint, and from it that live mode stores every
height below the one it is at.

A height would be skipped where an answer without a block is followed by one with a block, or where
the real-time loop gets no block below the tip; the parent of the next block is then not stored, and
a missing parent is not an error. The provider never answers so: what it has no block for is an
error.
-/

namespace ChainGraph

open Foundation

namespace IngestionOrchestrator

variable {o : IngestionOrchestrator}

/-- What a chunk does to the blocks and to the checkpoint. -/
structure ChunkEffect {α : Type} (g : Graph) (chunk : List LocatedBlock)
    (r : Except WriterError α × World neo4j UtxoCache) : Prop where
  free : r.2.store.active = none
  blocks : ∀ n, n ∈ r.2.store.committed.blocks ↔ (r.1.isOk ∧ n ∈ blockRows chunk) ∨ n ∈ g.blocks
  fresh : r.1.isOk → ∀ b ∈ chunk, ∀ n ∈ g.blocks, n.height ≠ b.height
  checkpoint : r.2.store.committed.checkpoint =
    if r.1.isOk then (lastCheckpoint chunk).or g.checkpoint else g.checkpoint

theorem chunkEffect (g : Graph) (c : UtxoCache) (chunk : List LocatedBlock) :
    ChunkEffect g chunk ((o.ingestChunk chunk).run World.handle ⟨⟨g, none⟩, c⟩) := by
  obtain ⟨found, c₁, fetched⟩ := run_prefetchUtxos_total g none c (spentKeys chunk)
  have outcome := run_ingestChunk_outcome (o := o) fetched
  generalize (o.ingestChunk chunk).run World.handle ⟨⟨g, none⟩, c⟩ = result at outcome ⊢
  cases outcome with
  | orphan err unlinked =>
    exact ⟨rfl, fun n => (by simp [Except.isOk, Except.toBool]), fun ok => (by cases ok), rfl⟩
  | refused err g' c' parent outside =>
    rcases outside with rfl | rfl
    · exact ⟨rfl, fun n => (by simp [Except.isOk, Except.toBool]), fun ok => (by cases ok), rfl⟩
    · have same : (besideChunk o chunk g).blocks = g.blocks ∧
          (besideChunk o chunk g).checkpoint = g.checkpoint := by
        unfold besideChunk
        split
        · rw [Graph.foldl_putOutput_eq]
          exact ⟨rfl, rfl⟩
        · exact ⟨rfl, rfl⟩
      refine ⟨rfl, fun n => ?_, fun ok => (by cases ok), same.2⟩
      rw [same.1]
      simp [Except.isOk, Except.toBool]
  | committed g' parent sent =>
    obtain ⟨g₁, created, _, rfl⟩ := execAll_chunkQueries.mp sent
    obtain ⟨performs, benefits⟩ := chunkParts_perm o (resolvedChunk o chunk found c₁).2 chunk
    obtain ⟨new, hu, next, rfl, _⟩ := Graph.execAll_createBlocksFast created
    have members := fun n => Table.mem_foldl_upsert_new new.hashes new.free (x := n)
    have after : (o.afterBlocks (resolvedChunk o chunk found c₁).2 chunk
        (g.withBlocks ((blockRows chunk).foldl Table.upsert g.blocks) hu next)).blocks =
          (blockRows chunk).foldl Table.upsert g.blocks ∧
        (o.afterBlocks (resolvedChunk o chunk found c₁).2 chunk
          (g.withBlocks ((blockRows chunk).foldl Table.upsert g.blocks) hu next)).checkpoint =
          (lastCheckpoint chunk).or g.checkpoint := by
      unfold afterBlocks
      rw [phases_eq o _ chunk (hasBip30 chunk) false performs benefits]
      exact ⟨rfl, rfl⟩
    refine ⟨rfl, fun n => ?_, fun _ b mem n stored => ?_, after.2⟩
    · rw [after.1, members]
      exact or_congr_left (and_iff_right rfl).symm
    · exact new.unused (.fromBlock b.block b.height) (List.mem_map.mpr ⟨b, mem, rfl⟩) n stored

end IngestionOrchestrator

namespace Process

open IngestionOrchestrator Neo4jWriter

variable {o : IngestionOrchestrator} {config : Config} {crc32 : List UInt8 → UInt32}
  {out : Outside} {s : State}

/-! ## The calls -/

/-- No transaction is open. -/
def State.Free (s : State) : Prop := s.world.store.active = none

theorem world_of_free (free : s.Free) :
    s.world = ⟨⟨s.graph, none⟩, s.world.memory⟩ := by
  obtain ⟨⟨⟨g, active⟩, c⟩, file, clock, rolled⟩ := s
  cases free
  rfl

theorem chunkEffect_handle (free : s.Free) (chunk : List LocatedBlock) :
    ChunkEffect s.graph chunk ((handle o crc32 out (.ingestChunk chunk) s).1,
      (handle o crc32 out (.ingestChunk chunk) s).2.world) := by
  have effect := chunkEffect (o := o) s.graph s.world.memory chunk
  rw [← world_of_free free] at effect
  exact effect

theorem orchestrate_eq {α : Type} {p : Ingest α} {r : Except WriterError α}
    {w : World neo4j UtxoCache} (ran : p.run World.handle s.world = (r, w)) :
    s.orchestrate p = (r, { s with world := w }) := by
  unfold State.orchestrate
  rw [ran]

variable (o crc32 out) in
theorem handle_rollbackToHeight (free : s.Free) (currentTip forkPoint : ℕ) :
    handle o crc32 out (.rollbackToHeight currentTip forkPoint) s =
      (.ok (currentTip - forkPoint),
        { s with
          world := ⟨⟨s.graph.rollbackTo currentTip forkPoint, none⟩, s.world.memory⟩
          clock := s.clock + 1
          rolledBack := s.rolledBack || forkPoint < currentTip }) := by
  have ran : (io (o.rollbackToHeight currentTip forkPoint)).run World.handle s.world =
      (.ok (currentTip - forkPoint),
        ⟨⟨s.graph.rollbackTo currentTip forkPoint, none⟩, s.world.memory⟩) := by
    rw [world_of_free free]
    exact run_io_eq (run_rollbackToHeight ..)
  have acted := orchestrate_eq ran
  show ((s.orchestrate (io (o.rollbackToHeight currentTip forkPoint))).1,
    { (s.orchestrate (io (o.rollbackToHeight currentTip forkPoint))).2 with
      clock := s.clock + 1
      rolledBack := s.rolledBack || decide (forkPoint < currentTip) }) = _
  rw [acted]

/-- The calls that leave the database and the cache alone. -/
def Quiet : Op → Prop
  | .lookupBlockHash _ => True
  | .saveToFile _ _ => True
  | .preloadFullRange _ _ => True
  | .loadBlock _ => True
  | .verifyConnection => True
  | .getTipHeight => True
  | .getBlocks _ => True
  | .getBlock _ => True
  | .getBlockHash _ => True
  | .isCancelled => True
  | .connectZmq => True
  | .recvBlockHash => True
  | .backoff => True
  | _ => False

theorem quiet_world {c : Op} (quiet : Quiet c) : (handle o crc32 out c s).2.world = s.world := by
  cases c with
  | saveToFile site height =>
    show (if out.writable s.clock then (_ : Except String Unit × State) else _).2.world = s.world
    split <;> rfl
  | lookupBlockHash | preloadFullRange | loadBlock | verifyConnection | getTipHeight | getBlocks
  | getBlock | getBlockHash | isCancelled | connectZmq | recvBlockHash | backoff => rfl
  | _ => exact quiet.elim

theorem free_orchestrate {α : Type} {P : Query → Prop} {p : Io α} (sends : OnlySends P p)
    (free : s.Free) : (s.orchestrate (io p)).2.Free := by
  have before : s.world.store.Keeps (fun _ => True) (fun _ => True) false :=
    ⟨trivial, fun _ _ => trivial, by rw [free]; rfl⟩
  have kept : ((io p).run World.handle s.world).2.store.Keeps (fun _ => True) (fun _ => True)
      false := World.keeps_run (fun _ _ _ _ _ _ => trivial) (fun _ _ _ _ _ _ => trivial)
        (World.always_lift sends) before
  have closed : (s.orchestrate (io p)).2.world.store.active.isSome = false := kept.occupied
  exact Option.isSome_eq_false_iff.mp closed |> Option.isNone_iff_eq_none.mp

/-- No call leaves a transaction open. -/
theorem free_handle (c : Op) (s : State) (free : s.Free) : (handle o crc32 out c s).2.Free := by
  cases c with
  | getCheckpoint => exact free_orchestrate (P := fun _ => True) sends_getCheckpoint free
  | initSchema => exact free_orchestrate sends_initSchema free
  | getResumeHeight => exact free_orchestrate sends_getResumeHeight free
  | syncCheckpointWithDb => exact free_orchestrate sends_syncCheckpointWithDb free
  | ingestChunk chunk =>
    have effect : ChunkEffect s.graph chunk ((handle o crc32 out (.ingestChunk chunk) s).1,
        (handle o crc32 out (.ingestChunk chunk) s).2.world) := chunkEffect_handle free chunk
    exact effect.free
  | rollbackToHeight currentTip forkPoint =>
    rw [handle_rollbackToHeight o crc32 out free]
    rfl
  | prewarmCache startHeight =>
    unfold State.Free
    cases warmed : out.prewarm startHeight s.world.memory with
    | ok cache =>
      simp only [handle, act, warmed]
      exact free
    | error e =>
      simp only [handle, act, warmed]
      exact free
  | loadFromFile => exact free
  | saveToFile site height =>
    unfold State.Free
    rw [quiet_world (c := .saveToFile site height) trivial]
    exact free
  | lookupBlockHash | preloadFullRange | loadBlock | verifyConnection | getTipHeight | getBlocks
  | getBlock | getBlockHash | isCancelled | connectZmq | recvBlockHash | backoff => exact free

variable {cond : Op → State → Prop}

/-- What a quiet call answers, from a state without a transaction. -/
theorem keeps_quiet {c : Op} (quiet : Quiet c) (free : s.Free) :
    Prog.Keeps (handle o crc32 out) cond State.Free
      (fun r s' => s'.world = s.world ∧ cond c s ∧ r = (handle o crc32 out c s).1)
      (perform c) s := by
  have same : (handle o crc32 out c s).2.world = s.world := quiet_world quiet
  refine Prog.Keeps.perform free fun met => ⟨?_, same, met, rfl⟩
  unfold State.Free at free ⊢
  rw [same]
  exact free

theorem keeps_orFail {ε α : Type} {context : String} {r : Except ε α} {S : State → Prop}
    (here : S s) :
    Prog.Keeps (handle o crc32 out) cond S (fun a s' => s' = s ∧ r = .ok a)
      (orFail context r) s := by
  cases r with
  | ok a => exact ⟨here, rfl, rfl⟩
  | error e => exact here

theorem keeps_trySaveSnapshot (height : ℕ) (free : s.Free) :
    Prog.Keeps (handle o crc32 out) cond State.Free (fun _ s' => s'.world = s.world)
      (trySaveSnapshot config height) s := by
  unfold trySaveSnapshot
  split
  · exact (keeps_quiet (c := .saveToFile .chunk height) trivial free).bind
      fun _ s' free' same => .pure free' same.1
  · exact .pure free rfl

/-! ## What is stored -/

/-- There is a block at the height. -/
def State.Stored (s : State) (height : ℕ) : Prop := (s.graph.lookupBlockHash height).isSome

theorem stored_iff {height : ℕ} : s.Stored height ↔ ∃ n ∈ s.graph.blocks, n.height = height := by
  unfold State.Stored Graph.lookupBlockHash
  rw [Option.isSome_map]
  constructor
  · intro some
    obtain ⟨n, found⟩ := Option.isSome_iff_exists.mp some
    exact ⟨n, Graph.blockAt_eq_some.mp found⟩
  · intro found
    obtain ⟨n, mem, same⟩ := found
    rw [Graph.blockAt_eq_some.mpr ⟨mem, same⟩]
    rfl

theorem stored_congr {s' : State} (same : s'.world = s.world) (height : ℕ) :
    s'.Stored height ↔ s.Stored height := by
  unfold State.Stored State.graph
  rw [same]

/-- What ingesting some blocks leaves: no block is lost and no other stored, a success stores them
all, and a reorganization is reported for one of them. -/
structure Ingested {α : Type} (s : State) (blocks : List LocatedBlock) (r : Except WriterError α)
    (s' : State) : Prop where
  kept : ∀ height, s.Stored height → s'.Stored height
  stored : r.isOk → ∀ b ∈ blocks, s'.Stored b.height
  only : ∀ height, s'.Stored height → s.Stored height ∨ ∃ b ∈ blocks, b.height = height
  failed : ∀ e, r = .error e → ReorgAmong blocks e

theorem keeps_ingestChunk (chunk : List LocatedBlock) (free : s.Free) :
    Prog.Keeps (handle o crc32 out) cond State.Free (Ingested s chunk)
      (perform (.ingestChunk chunk)) s := by
  have effect : ChunkEffect s.graph chunk ((handle o crc32 out (.ingestChunk chunk) s).1,
      (handle o crc32 out (.ingestChunk chunk) s).2.world) := chunkEffect_handle free chunk
  have failed : ∀ e, (handle o crc32 out (.ingestChunk chunk) s).1 = .error e →
      ReorgAmong chunk e := fun e same => reorgAmong_ingestChunk (w := s.world) same
  refine Prog.Keeps.perform (I := Calls) (o := Op.ingestChunk chunk) free fun _ => ?_
  generalize handle o crc32 out (.ingestChunk chunk) s = result at effect failed
  obtain ⟨r, s'⟩ := result
  refine ⟨effect.free, fun height stored => ?_, fun ok b mem => ?_, fun height stored => ?_, failed⟩
  · obtain ⟨n, inside, same⟩ := stored_iff.mp stored
    exact stored_iff.mpr ⟨n, (effect.blocks n).mpr (Or.inr inside), same⟩
  · have row : BlockData.fromBlock b.block b.height ∈ blockRows chunk :=
      List.mem_map.mpr ⟨b, mem, rfl⟩
    exact stored_iff.mpr ⟨.fromBlock b.block b.height,
      (effect.blocks _).mpr (Or.inl ⟨ok, row⟩), rfl⟩
  · obtain ⟨n, inside, same⟩ := stored_iff.mp stored
    rcases (effect.blocks n).mp inside with new | old
    · obtain ⟨b, mem, rfl⟩ := List.mem_map.mp new.2
      exact Or.inr ⟨b, mem, same⟩
    · exact Or.inl (stored_iff.mpr ⟨n, old, same⟩)

theorem keeps_ingestChunks (chunks : List (List LocatedBlock)) (free : s.Free) :
    Prog.Keeps (handle o crc32 out) cond State.Free (Ingested s chunks.flatten)
      (ingestChunks config chunks) s := by
  induction chunks generalizing s with
  | nil =>
    refine .pure free ⟨fun _ stored => stored, fun _ b mem => ?_, fun _ stored => Or.inl stored,
      fun e same => by cases same⟩
    cases mem
  | cons chunk rest ih =>
    unfold ingestChunks
    refine (keeps_ingestChunk chunk free).bind fun r s₁ free₁ done => ?_
    cases r with
    | error e =>
      refine .pure free₁ ⟨done.kept, fun ok => (by cases ok), fun height stored => ?_,
        fun e' same => ?_⟩
      · exact (done.only height stored).imp_right fun found =>
          found.imp fun b here => ⟨List.mem_append_left _ here.1, here.2⟩
      · cases same
        exact (done.failed e rfl).mono fun b mem => List.mem_append_left _ mem
    | ok counts =>
      refine (keeps_trySaveSnapshot _ free₁).bind fun _ s₂ free₂ same => ?_
      have here : ∀ b ∈ chunk, s₂.Stored b.height := fun b mem =>
        (stored_congr same b.height).mpr (done.stored rfl b mem)
      refine (ih free₂).mono fun r s₃ _ last =>
        ⟨fun height stored => ?_, fun ok b mem => ?_, fun height stored => ?_, fun e failed => ?_⟩
      · exact last.kept height ((stored_congr same height).mpr (done.kept height stored))
      · rcases List.mem_append.mp mem with first | later
        · exact last.kept _ (here b first)
        · exact last.stored ok b later
      · rcases last.only height stored with old | ⟨b, mem, here⟩
        · refine (done.only height ((stored_congr same height).mp old)).imp_right fun found => ?_
          exact found.imp fun b here => ⟨List.mem_append_left _ here.1, here.2⟩
        · exact Or.inr ⟨b, List.mem_append_right _ mem, here⟩
      · exact (last.failed e failed).mono fun b mem => List.mem_append_right _ mem

theorem keeps_ingestBlocksBatch (blocks : List LocatedBlock) (free : s.Free) :
    Prog.Keeps (handle o crc32 out) cond State.Free (Ingested s blocks)
      (ingestBlocksBatch o config blocks) s := by
  have keeps : Prog.Keeps (handle o crc32 out) cond State.Free
      (Ingested s (o.adaptiveChunks blocks).flatten)
      (ingestChunks config (o.adaptiveChunks blocks)) s := keeps_ingestChunks _ free
  rw [flatten_adaptiveChunks] at keeps
  exact keeps

end Process

namespace Live

open Process

variable {o : IngestionOrchestrator} {config : Config} {crc32 : List UInt8 → UInt32}
  {out : Outside} {s : State} {startHeight : ℕ}

/-! ## No height is skipped -/

/-- After an answer without a block there is none with a block. -/
def NoGap (answers : List (ℕ × Except String (Option Block))) : Prop :=
  answers.Pairwise fun a b => a.2 = .ok none → ∀ block, b.2 ≠ .ok (some block)

/-- The node leaves no block out: a batch ends with its first missing block, and up to the tip the
real-time loop gets every block it asks for. -/
def NoGaps (out : Outside) : Op → State → Prop
  | .getBlocks heights, s => NoGap (heights.map fun height => (height, out.block s.clock height))
  | .getBlock height, s => out.block s.clock height ≠ .ok none
  | _, _ => True

theorem collectBatch_of_none {answers : List (ℕ × Except String (Option Block))}
    {blocks : List LocatedBlock} (none : ∀ a ∈ answers, ∀ block, a.2 ≠ .ok (some block))
    (ok : collectBatch answers = .ok blocks) : blocks = [] := by
  induction answers with
  | nil =>
    cases ok
    rfl
  | cons a answers ih =>
    obtain ⟨height, answer⟩ := a
    have rest := fun b mem => none b (List.mem_cons_of_mem _ mem)
    cases answer with
    | error e => cases ok
    | ok found =>
      cases found with
      | none => exact ih rest ok
      | some block => exact absurd rfl (none _ List.mem_cons_self block)

/-- Without a gap the blocks of a batch are at consecutive heights from the first one asked for. -/
theorem heights_collectBatch {answers : List (ℕ × Except String (Option Block))}
    {blocks : List LocatedBlock} {first count : ℕ}
    (heights : answers.map Prod.fst = List.range' first count) (whole : NoGap answers)
    (ok : collectBatch answers = .ok blocks) :
    blocks.map (·.height) = List.range' first blocks.length := by
  induction answers generalizing first count blocks with
  | nil =>
    cases ok
    rfl
  | cons a answers ih =>
    obtain ⟨height, answer⟩ := a
    obtain ⟨after, tailWhole⟩ := List.pairwise_cons.mp whole
    cases count with
    | zero => cases heights
    | succ count =>
      rw [List.map_cons, List.range'_succ, List.cons.injEq] at heights
      cases answer with
      | error e => cases ok
      | ok found =>
        cases found with
        | none =>
          rw [collectBatch_of_none (fun b mem => after b mem rfl) ok]
          rfl
        | some block =>
          unfold collectBatch at ok
          cases rest : collectBatch answers with
          | error e =>
            rw [rest] at ok
            cases ok
          | ok blocks' =>
            rw [rest] at ok
            cases ok
            rw [List.map_cons, List.length_cons, List.range'_succ, ih heights.2 tailWhole rest]
            exact congrArg (· :: _) heights.1

/-- Every height from the start to below another is stored. -/
def StoredBelow (startHeight : ℕ) (s : State) (height : ℕ) : Prop :=
  ∀ h, startHeight ≤ h → h < height → s.Stored h

theorem StoredBelow.congr {s' : State} {height : ℕ} (h : StoredBelow startHeight s height)
    (same : s'.world = s.world) : StoredBelow startHeight s' height :=
  fun k low high => (stored_congr same k).mpr (h k low high)

/-- What an iteration leaves: every height up to the current one is stored. -/
abbrev Complete (startHeight : ℕ) (v : Vars) (s : State) : Prop :=
  StoredBelow startHeight s v.currentHeight

theorem keeps_leaveCatchUp {v : Vars} (free : s.Free) (stored : Complete startHeight v s) :
    Prog.Keeps (handle o crc32 out) (NoGaps out) State.Free (Complete startHeight)
      (leaveCatchUp config v) s := by
  unfold leaveCatchUp
  split
  · exact .pure free stored
  · refine (keeps_quiet (c := .connectZmq) trivial free).bind fun r s₁ free₁ quiet => ?_
    refine (keeps_orFail free₁).bind fun _ s₂ free₂ same => ?_
    rw [same.1]
    exact .pure free₁ (stored.congr quiet.1)

theorem keeps_ingestFetched {v : Vars} {blocks : List LocatedBlock} {last : LocatedBlock}
    (free : s.Free) (stored : Complete startHeight v s)
    (heights : blocks.map (·.height) = List.range' v.currentHeight blocks.length)
    (isLast : blocks.getLast? = some last) :
    Prog.Keeps (handle o crc32 out) (NoGaps out) State.Free (Complete startHeight)
      (ingestFetched o config v blocks last.height) s := by
  -- the batch covers the heights from the current one to its last
  have covers : ∀ h, v.currentHeight ≤ h → h < last.height + 1 → ∃ b ∈ blocks, b.height = h := by
    intro h low high
    have lastHeight : (blocks.map (·.height)).getLast? = some last.height := by
      rw [List.getLast?_map, isLast]
      rfl
    rw [heights, List.getLast?_range'] at lastHeight
    have inside : h ∈ blocks.map (·.height) := by
      rw [heights, List.mem_range'_1]
      split at lastHeight
      · cases lastHeight
      · rename_i nonempty
        have top := Option.some.inj lastHeight
        omega
    exact List.mem_map.mp inside
  unfold ingestFetched
  refine (keeps_ingestBlocksBatch blocks free).bind fun r s₁ free₁ done => ?_
  cases r with
  | error e => exact free₁
  | ok u =>
    have before : StoredBelow startHeight s₁ v.currentHeight := fun h low high =>
      done.kept h (stored h low high)
    have after : StoredBelow startHeight s₁ (last.height + 1) := by
      intro h low high
      by_cases old : h < v.currentHeight
      · exact before h low old
      · obtain ⟨b, mem, same⟩ := covers h (by omega) high
        rw [← same]
        exact done.stored rfl b mem
    refine (keeps_quiet (c := .isCancelled) trivial free₁).bind fun cancelled s₂ free₂ quiet => ?_
    split
    · exact keeps_leaveCatchUp free₂ (before.congr quiet.1)
    · refine .pure free₂ fun h low high => (after.congr quiet.1) h low ?_
      exact Nat.lt_of_lt_of_le high (Nat.mod_le _ _)

theorem keeps_getBlockBatch (first count : ℕ) (free : s.Free) :
    Prog.Keeps (handle o crc32 out) (NoGaps out) State.Free
      (fun r s' => s'.world = s.world ∧
        ∀ blocks, r = .ok blocks → blocks.map (·.height) = List.range' first blocks.length)
      (getBlockBatch first count) s := by
  unfold getBlockBatch
  refine (keeps_quiet (c := .getBlocks _) trivial free).bind fun answers s₁ free₁ quiet => ?_
  refine .pure free₁ ⟨quiet.1, fun blocks ok => ?_⟩
  have heights : answers.map Prod.fst = List.range' first count := by
    rw [quiet.2.2]
    show ((List.range' first count).map fun height =>
      (height, out.block s.clock height)).map Prod.fst = _
    rw [List.map_map]
    exact List.map_id _
  have whole : NoGap answers := by
    rw [quiet.2.2]
    exact quiet.2.1
  exact heights_collectBatch heights whole ok

theorem keeps_catchUp {v : Vars} (free : s.Free) (stored : Complete startHeight v s) :
    Prog.Keeps (handle o crc32 out) (NoGaps out) State.Free (Complete startHeight)
      (catchUp o config v) s := by
  unfold catchUp
  refine (keeps_quiet (c := .isCancelled) trivial free).bind fun cancelled s₁ free₁ quiet₁ => ?_
  have stored₁ := stored.congr quiet₁.1
  split
  · exact keeps_leaveCatchUp free₁ stored₁
  refine (keeps_quiet (c := .getTipHeight) trivial free₁).bind fun r s₂ free₂ quiet₂ => ?_
  refine (keeps_orFail free₂).bind fun tip s₃ free₃ same => ?_
  rw [same.1]
  have stored₂ := stored₁.congr quiet₂.1
  dsimp only
  split
  · exact keeps_leaveCatchUp free₂ stored₂
  refine (keeps_getBlockBatch v.currentHeight _ free₂).bind fun r s₄ free₄ fetched => ?_
  refine (keeps_orFail free₄).bind fun blocks s₅ free₅ same => ?_
  rw [same.1]
  have stored₄ := stored₂.congr fetched.1
  split
  · exact keeps_leaveCatchUp free₄ stored₄
  · rename_i last isLast
    refine (keeps_quiet (c := .isCancelled) trivial free₄).bind fun cancelled s₆ free₆ quiet₆ => ?_
    split
    · exact keeps_leaveCatchUp free₆ (stored₄.congr quiet₆.1)
    · exact keeps_ingestFetched free₆ (stored₄.congr quiet₆.1) (fetched.2 blocks same.2) isLast

/-! ## The real-time loop -/

variable {cond : Op → State → Prop}

theorem keeps_walkBack (heights : List ℕ) (free : s.Free) :
    Prog.Keeps (handle o crc32 out) cond State.Free
      (fun fork s' => s'.world = s.world ∧ fork ∈ heights) (walkBack heights) s := by
  induction heights generalizing s with
  | nil => exact free
  | cons height rest ih =>
    unfold walkBack
    refine (keeps_quiet (c := .lookupBlockHash height) trivial free).bind
      fun r s₁ free₁ quiet₁ => ?_
    refine (keeps_orFail free₁).bind fun ourHash s₂ _ same₁ => ?_
    rw [same₁.1]
    refine (keeps_quiet (c := .getBlockHash height) trivial free₁).bind
      fun r s₃ free₃ quiet₃ => ?_
    refine (keeps_orFail free₃).bind fun canonicalHash s₄ _ same₃ => ?_
    rw [same₃.1]
    have world : s₃.world = s.world := quiet₃.1.trans quiet₁.1
    split
    · exact .pure free₃ ⟨world, List.mem_cons_self⟩
    · exact (ih free₃).mono fun fork s₅ _ found =>
        ⟨found.1.trans world, List.mem_cons_of_mem _ found.2⟩

theorem keeps_withContext {α : Type} {context : String} {p : Proc α} {S : State → Prop}
    {post : α → State → Prop} (keeps : Prog.Keeps (handle o crc32 out) cond S post p s) :
    Prog.Keeps (handle o crc32 out) cond S post (withContext context p) s := by
  refine keeps.attempt.bind fun r s₁ here done => ?_
  exact (keeps_orFail here).mono fun a s₂ _ same => same.1 ▸ done a same.2

/-- After a rollback the next height is at most the one the reorganization was found at, and below
it nothing is lost. -/
theorem keeps_handleReorg {reorgHeight : ℕ} (pos : 0 < reorgHeight) (free : s.Free) :
    Prog.Keeps (handle o crc32 out) cond State.Free
      (fun next s' => next ≤ reorgHeight ∧ ∀ h < next, s.Stored h → s'.Stored h)
      (handleReorg reorgHeight) s := by
  unfold handleReorg findForkPoint
  refine (keeps_withContext (keeps_walkBack _ free)).bind fun fork s₁ free₁ found => ?_
  have below := (Graph.mem_heightsDown.mp found.2).2
  have rolled : Prog.Keeps (handle o crc32 out) cond State.Free
      (fun _ s' => ∀ h ≤ fork, s.Stored h → s'.Stored h)
      (perform (.rollbackToHeight (reorgHeight - 1) fork)) s₁ := by
    refine Prog.Keeps.perform (I := Calls) (o := Op.rollbackToHeight (reorgHeight - 1) fork)
      free₁ fun _ => ?_
    rw [handle_rollbackToHeight o crc32 out free₁]
    refine ⟨rfl, fun h low stored => ?_⟩
    obtain ⟨n, mem, same⟩ := stored_iff.mp ((stored_congr found.1 h).mpr stored)
    refine stored_iff.mpr ⟨n, Graph.mem_blocks_rollbackTo.mpr ⟨mem, ?_⟩, same⟩
    omega
  refine rolled.bind fun r s₂ free₂ kept => ?_
  refine (keeps_orFail free₂).bind fun _ s₃ free₃ same => ?_
  have wraps : asU32 (fork + 1) ≤ fork + 1 := Nat.mod_le _ _
  refine .pure free₃ ⟨by omega, fun h low stored => ?_⟩
  rw [same.1]
  exact kept h (by omega) stored

theorem keeps_ingestNew (remaining : ℕ) {height : ℕ} (tracker : Option ℕ) (free : s.Free)
    (stored : StoredBelow startHeight s height) :
    Prog.Keeps (handle o crc32 out) (NoGaps out) State.Free
      (fun (r : ℕ × Option ℕ) s' => StoredBelow startHeight s' r.1)
      (ingestNew o config remaining height tracker) s := by
  induction remaining generalizing s height tracker with
  | zero => exact .pure free stored
  | succ remaining ih =>
    unfold ingestNew
    refine (keeps_quiet (c := .getBlock height) trivial free).bind fun r s₁ free₁ quiet => ?_
    refine (keeps_orFail free₁).bind fun found s₂ _ same => ?_
    rw [same.1]
    have stored₁ := stored.congr quiet.1
    cases found with
    | none =>
      -- the node has every block below its tip
      have answered : out.block s.clock height = .ok none := quiet.2.2.symm.trans same.2
      exact absurd answered quiet.2.1
    | some block =>
      dsimp only
      refine (keeps_ingestBlocksBatch _ free₁).bind fun r s₃ free₃ done => ?_
      have stored₃ : StoredBelow startHeight s₃ height := fun h low high =>
        done.kept h (stored₁ h low high)
      cases r with
      | ok u =>
        have wraps : asU32 (height + 1) ≤ height + 1 := Nat.mod_le _ _
        refine ih (some height) free₃ fun h low high => ?_
        by_cases old : h < height
        · exact stored₃ h low old
        · have new : h = height := by omega
          rw [new]
          exact done.stored rfl ⟨height, block, "rpc"⟩ List.mem_cons_self
      | error e =>
        cases e with
        | ReorgDetected reorgHeight expected actual =>
          obtain ⟨b, mem, here, _, pos⟩ := done.failed _ rfl
          rw [List.mem_singleton.mp mem] at here
          have reached : height = reorgHeight := here
          refine (keeps_handleReorg pos free₃).bind fun next s₄ free₄ rolled => ?_
          refine .pure free₄ fun h low high => rolled.2 h high (stored₃ h low ?_)
          have below := rolled.1
          omega
        | _ => exact free₃

theorem keeps_finish {v : Vars} (free : s.Free) (stored : Complete startHeight v s) :
    Prog.Keeps (handle o crc32 out) cond State.Free (Complete startHeight) (finish config v) s := by
  unfold finish
  split
  · rename_i height _
    split
    · refine (keeps_quiet (c := .saveToFile .shutdown height) trivial free).bind
        fun _ s₁ free₁ quiet => ?_
      exact .pure free₁ (stored.congr quiet.1)
    · exact .pure free stored
  · exact .pure free stored

theorem keeps_notified {v : Vars} (free : s.Free) (stored : Complete startHeight v s) :
    Prog.Keeps (handle o crc32 out) (NoGaps out) State.Free (Complete startHeight)
      (notified o config v) s := by
  unfold notified
  refine (keeps_quiet (c := .getTipHeight) trivial free).bind fun r s₁ free₁ quiet => ?_
  refine (keeps_orFail free₁).bind fun tip s₂ _ same => ?_
  rw [same.1]
  refine (keeps_ingestNew _ v.tracker free₁ (stored.congr quiet.1)).bind fun r s₃ free₃ done => ?_
  have complete : Complete startHeight
      { v with currentHeight := r.1, tracker := r.2, consecutiveFailures := 0 } s₃ := done
  dsimp only
  split
  · exact keeps_finish free₃ complete
  · exact .pure free₃ complete

theorem keeps_realTime {v : Vars} (free : s.Free) (stored : Complete startHeight v s) :
    Prog.Keeps (handle o crc32 out) (NoGaps out) State.Free (Complete startHeight)
      (realTime o config v) s := by
  unfold realTime
  refine (keeps_quiet (c := .recvBlockHash) trivial free).bind fun event s₁ free₁ quiet => ?_
  have stored₁ := stored.congr quiet.1
  cases event with
  | shutdown => exact keeps_finish free₁ stored₁
  | received => exact keeps_notified free₁ stored₁
  | failed =>
    dsimp only
    split
    · exact free₁
    refine (keeps_quiet (c := .backoff) trivial free₁).bind fun stop s₂ free₂ quiet₂ => ?_
    have stored₂ : Complete startHeight
        { v with consecutiveFailures := asU32 (v.consecutiveFailures + 1) } s₂ :=
      stored₁.congr quiet₂.1
    split
    · exact keeps_finish free₂ stored₂
    · exact .pure free₂ stored₂

/-! ## Every iteration -/

theorem keeps_iterate {v : Vars} (free : s.Free) (stored : Complete startHeight v s) :
    Prog.Keeps (handle o crc32 out) (NoGaps out) State.Free (Complete startHeight)
      (iterate o config v) s := by
  unfold iterate
  cases v.phase with
  | catchUp => exact keeps_catchUp free stored
  | realTime => exact keeps_realTime free stored
  | done => exact .pure free stored

theorem keeps_iterations (n : ℕ) {v : Vars} (free : s.Free) (stored : Complete startHeight v s) :
    Prog.Keeps (handle o crc32 out) (NoGaps out) State.Free (Complete startHeight)
      (iterations o config n v) s := by
  induction n generalizing s v with
  | zero => exact .pure free stored
  | succ n ih =>
    unfold iterations
    exact (keeps_iterate free stored).bind fun v' s₁ free₁ stored₁ => ih free₁ stored₁

/-- As long as no block is left out, every height below the current one is stored. -/
theorem complete_of_noGaps {n : ℕ} (free : s.Free)
    (whole : Prog.AllAllowed (handle o crc32 out) (NoGaps out)
      (iterations o config n ⟨.catchUp, startHeight, none, 0⟩) s) {v : Vars} {s' : State}
    (ran : (iterations o config n ⟨.catchUp, startHeight, none, 0⟩).run (handle o crc32 out) s =
      (.ok v, s')) : Complete startHeight v s' := by
  have before : Complete startHeight ⟨.catchUp, startHeight, none, 0⟩ s := by
    intro h low high
    exact absurd high (by simpa using low)
  exact ((keeps_iterations n free before).run whole ran).2

/-! ## Answers of a provider -/

variable {p : RpcBlockProvider} {rpc : ℕ → ℕ → Replies}

/-- A provider has a block for every height, or an error. -/
theorem fetched_ne_none (replies : Replies) (height : ℕ) : fetched p replies height ≠ .ok none := by
  intro none
  have meets : Pool.Meets (I := rpcCalls) (fun _ _ => True) (RpcBlockProvider.Given height)
    (p.getBlock height) := RpcBlockProvider.meets_given height
  unfold fetched at none
  rcases meets.run (h := replying replies) (fun _ _ => trivial) 0 with ⟨e, failed⟩ | ⟨block, found⟩
  · rw [failed] at none
    cases none
  · rw [found] at none
    cases none

/-- What the live model keeps of a result. -/
def answerOf (height : ℕ) (r : Except AnyhowError (Option LocatedBlock)) :
    ℕ × Except String (Option Block) :=
  (height, match r with
    | .ok found => .ok (found.map (·.block))
    | .error e => .error e.display)

/-- Blocks for all heights, in their order. -/
theorem collectBatch_of_given {results : List (Except AnyhowError (Option LocatedBlock))}
    {heights : List ℕ}
    (given : List.Forall₂ (fun r height => RpcBlockProvider.Given height r) results heights) :
    (collectBatch (List.zipWith answerOf heights results)).toOption =
      (RpcBlockProvider.gather results).toOption ∧
    ∀ blocks, RpcBlockProvider.gather results = .ok blocks → blocks.map (·.height) = heights ∧
      results = blocks.map fun b => .ok (some b) := by
  induction given with
  | nil =>
    refine ⟨rfl, fun blocks ok => ?_⟩
    cases ok
    exact ⟨rfl, rfl⟩
  | @cons r height results heights met _ ih =>
    obtain ⟨same, all⟩ := ih
    rcases met with ⟨e, rfl⟩ | ⟨block, rfl⟩
    · exact ⟨rfl, fun blocks ok => by cases ok⟩
    · show ((collectBatch (List.zipWith answerOf heights results)).map _).toOption =
        ((RpcBlockProvider.gather results).map _).toOption ∧ ∀ blocks,
          (RpcBlockProvider.gather results).map _ = .ok blocks → _
      cases gathered : RpcBlockProvider.gather results with
      | error e =>
        rw [gathered] at same
        cases collected : collectBatch (List.zipWith answerOf heights results) with
        | error e' => exact ⟨rfl, fun blocks ok => by cases ok⟩
        | ok blocks =>
          rw [collected] at same
          cases same
      | ok later =>
        obtain ⟨rfl, rfl⟩ := all later gathered
        rw [gathered] at same
        cases collected : collectBatch (List.zipWith answerOf _ _) with
        | error e' =>
          rw [collected] at same
          cases same
        | ok blocks =>
          rw [collected] at same
          cases same
          refine ⟨rfl, fun blocks ok => ?_⟩
          cases ok
          exact ⟨rfl, rfl⟩

theorem answers_of_given {results : List (Except AnyhowError (Option LocatedBlock))}
    {heights : List ℕ}
    (given : List.Forall₂ (fun r height => RpcBlockProvider.Given height r) results heights) :
    (List.zipWith answerOf heights results).map Prod.fst = heights ∧
      ∀ a ∈ List.zipWith answerOf heights results, a.2 ≠ .ok none := by
  induction given with
  | nil => exact ⟨rfl, fun a mem => by cases mem⟩
  | @cons r height results heights met _ ih =>
    refine ⟨congrArg (height :: ·) ih.1, fun a mem => ?_⟩
    rcases List.mem_cons.mp mem with rfl | later
    · rcases met with ⟨e, rfl⟩ | ⟨block, rfl⟩
      · exact fun none => by cases none
      · exact fun none => by cases none
    · exact ih.2 a later

/-- In whatever order the results come in, the batch is what they are in the order of height. -/
theorem finishBatch_of_perm {results aligned : List (Except AnyhowError (Option LocatedBlock))}
    {heights : List ℕ} (rising : heights.Pairwise (· < ·)) (perm : results.Perm aligned)
    (given : List.Forall₂ (fun r height => RpcBlockProvider.Given height r) aligned heights) :
    (RpcBlockProvider.finishBatch results).toOption =
      (RpcBlockProvider.gather aligned).toOption := by
  unfold RpcBlockProvider.finishBatch
  cases gathered : RpcBlockProvider.gather aligned with
  | ok blocks =>
    obtain ⟨sorted, rfl⟩ := (collectBatch_of_given given).2 blocks gathered
    rw [← sorted, List.pairwise_map] at rising
    have found : RpcBlockProvider.gather results =
        .ok (results.filterMap fun r => r.toOption.join) := by
      apply RpcBlockProvider.gather_eq_ok
      intro r among
      obtain ⟨b, _, rfl⟩ := List.mem_map.mp (perm.mem_iff.mp among)
      exact ⟨_, rfl⟩
    have same : (results.filterMap fun r => r.toOption.join).Perm blocks := by
      have both := perm.filterMap fun r => r.toOption.join
      rw [List.filterMap_map] at both
      exact both.trans (List.Perm.of_eq (List.filterMap_some ..))
    rw [found]
    exact congrArg some (RpcBlockProvider.mergeSort_eq_of_perm same rising)
  | error e =>
    obtain ⟨e', among⟩ : ∃ e', .error e' ∈ aligned := by
      by_contra none
      have fine : RpcBlockProvider.gather aligned = .ok _ :=
        RpcBlockProvider.gather_eq_ok fun r mem => by
          cases r with
          | ok found => exact ⟨found, rfl⟩
          | error e' => exact absurd ⟨e', mem⟩ none
      rw [fine] at gathered
      cases gathered
    obtain ⟨e'', failed⟩ := RpcBlockProvider.gather_eq_error (perm.mem_iff.mpr among)
    rw [failed]
    rfl

/-- **A batch of a provider**, in whatever order its requests are answered, is what the live model
collects from an answer for each height, none of which is without a block. -/
theorem ends_collectBatch {σ : Type} (h : Prog.Handler rpcCalls σ) (s : σ) {first count : ℕ}
    (small : first + count < 2 ^ 32) (room : 0 < p.maxConcurrent) :
    Ends (Pool.Step h p.maxConcurrent)
      (fun x => x.1.Finished ∧ ∃ answers : List (ℕ × Except String (Option Block)),
        answers.map Prod.fst = List.range' first count ∧ (∀ a ∈ answers, a.2 ≠ .ok none) ∧
        (RpcBlockProvider.finishBatch x.1.done).toOption = (collectBatch answers).toOption)
      (p.batch first count, s) := by
  unfold RpcBlockProvider.batch
  rw [RpcBlockProvider.batchHeights_eq small]
  have ends := Pool.ends_of_meets (h := h) (A := fun _ _ => True) (fun _ _ => trivial) room
    (fun height (_ : height ∈ List.range' first count) =>
      RpcBlockProvider.meets_given (p := p) height) s
  refine ends.mono fun x done => ⟨done.1, ?_⟩
  obtain ⟨aligned, perm, given⟩ := Pool.aligned_of_rel done.2
  obtain ⟨heights, found⟩ := answers_of_given given
  refine ⟨List.zipWith answerOf (List.range' first count) aligned, heights, found, ?_⟩
  rw [(collectBatch_of_given given).1]
  exact finishBatch_of_perm List.pairwise_lt_range' perm given

theorem noGaps_withProvider (c : Op) (s : State) : NoGaps (withProvider p rpc out) c s := by
  cases c with
  | getBlocks heights =>
    refine List.pairwise_of_forall_mem_list fun a mem b _ missing => ?_
    obtain ⟨height, _, rfl⟩ := List.mem_map.mp mem
    exact absurd missing (fetched_ne_none _ _)
  | getBlock height => exact fetched_ne_none _ _
  | _ => trivial

/-- **No height is skipped.** Whatever the node answers to the requests of the provider, and
whatever else comes from outside: after any number of iterations every height from the start to
below the current one is stored. -/
theorem no_height_skipped (o : IngestionOrchestrator) (config : Config)
    (crc32 : List UInt8 → UInt32) (p : RpcBlockProvider) (rpc : ℕ → ℕ → Replies) (out : Outside)
    (startHeight n : ℕ) (s : State) (free : s.Free) {v : Vars} {s' : State}
    (ran : (iterations o config n ⟨.catchUp, startHeight, none, 0⟩).run
      (handle o crc32 (withProvider p rpc out)) s = (.ok v, s')) :
    ∀ height, startHeight ≤ height → height < v.currentHeight → s'.Stored height :=
  complete_of_noGaps free (Prog.allAllowed_of_forall noGaps_withProvider _ _) ran

end Live

namespace Live.Sample

open Process ChainGraph.Sample

/-- A node that serves some blocks, with nothing else around: no shutdown and no block files. -/
def outside (tip : ℕ → ℕ) (served : ℕ → ℕ → Option LocatedBlock) : Outside where
  tip clock := .ok (tip clock)
  block clock height := .ok ((served clock height).map (·.block))
  hash clock height := match served clock height with
    | some b => .ok b.block.blockHash
    | none => .error "Block height out of range"
  cancelled _ := false
  connect _ := .ok ()
  event _ := .received
  backoff _ := false
  writable _ := true
  load _ := .ok none
  preload := .ok ()
  prewarm _ cache := .ok cache

def config (cacheFile : String) : Config where
  batchSize := 100
  cacheFile := cacheFile
  utxoPrewarmDepth := 0
  rpcBatchSize := 10
  zmqMaxConsecutiveFailures := 3
  maxHeight := Streaming.unbounded

/-- Nothing is stored. -/
def empty : State := ⟨⟨⟨Graph.empty, none⟩, UtxoCache.new 64⟩, none, 0, false⟩

def crc32 (_ : List UInt8) : UInt32 := 0

/-- Both blocks are there. -/
def steady : Outside :=
  outside (fun _ => 1) fun _ height => if height = 0 then some first else some second

/-- A node's answer with a result. -/
def reply (result : JsonValue) : Except String HttpResponse :=
  .ok ⟨⟨200, "200 OK"⟩, .error "", .ok (.object [("result", result), ("error", .null)])⟩

/-- The hash of the first block is `00`, that of the second `01`, and so is the text of each. Every
first request is lost. -/
def rpc (_ height : ℕ) : Replies := fun n request =>
  if n = 0 then .error "connection refused"
  else if request.method = "getblockhash" then
    reply (.string (if height = 0 then "00" else "01"))
  else reply (request.params.headD .null)

/-- A provider that knows the texts of the two blocks. -/
def provider : RpcBlockProvider where
  url := "http://127.0.0.1:8332"
  user := "bitcoin"
  password := ""
  batchSize := 50
  maxConcurrent := 32
  render _ := ""
  hexDecode text := if text = "00" then .ok [0] else .ok [1]
  deserialize bytes := .ok (if bytes = [0] then first.block else second.block)

end Live.Sample

namespace Live

open Process

theorem no_height_skipped_sample :
    let o := ChainGraph.Sample.orchestrator 1000000
    let out := withProvider Sample.provider Sample.rpc Sample.steady
    let r := (iterations o (Sample.config "") 1 ⟨.catchUp, 0, none, 0⟩).run
      (handle o Sample.crc32 out) Sample.empty
    r.1 = .ok ⟨.catchUp, 2, some 1, 0⟩ ∧ r.2.Stored 0 ∧ r.2.Stored 1 := by
  intro o out r
  have first : r.1 = .ok ⟨.catchUp, 2, some 1, 0⟩ := by decide +kernel
  have ran : r = (.ok ⟨.catchUp, 2, some 1, 0⟩, r.2) := by
    rw [← first]
  have stored := no_height_skipped o (Sample.config "") Sample.crc32 Sample.provider Sample.rpc
    Sample.steady 0 1 Sample.empty rfl ran
  exact ⟨first, stored 0 (by decide) (by decide), stored 1 (by decide) (by decide)⟩

end Live

end ChainGraph

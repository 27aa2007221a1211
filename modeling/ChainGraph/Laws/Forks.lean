import ChainGraph.Laws.Live

/-!
# Live mode and a fork of the chain

Where a chunk reports a reorganization, the real-time loop rolls back to the fork point and goes on
above it. The catch-up loop has no such arm: the error ends the run with the stored fork untouched,
and the next run meets the same block again.

What the node answers is fixed here: a chain of linked blocks, longer than the stored one.
-/

namespace ChainGraph

open Foundation

namespace Process

open IngestionOrchestrator

variable {o : IngestionOrchestrator} {config : Config} {crc32 : List UInt8 → UInt32}
  {out : Outside} {s t : State} {chunk : List LocatedBlock}

/-! ## Chunks that fail -/

/-- The calls that are no chunk. -/
def NotChunk : Op → Prop
  | .ingestChunk _ => False
  | _ => True

theorem notChunk_orFail {ε α : Type} {context : String} (r : Except ε α) :
    (orFail context r).Always NotChunk := by
  cases r <;> trivial

theorem notChunk_perform {c : Op} (other : NotChunk c) : (perform c).Always NotChunk :=
  Prog.always_perform.mpr other

theorem notChunk_trySaveSnapshot (height : ℕ) :
    (trySaveSnapshot config height).Always NotChunk := by
  unfold trySaveSnapshot
  split
  · exact (notChunk_perform (c := .saveToFile .chunk height) trivial).bind fun _ => trivial
  · trivial

/-- A call that is made in a sequence whose first part makes no chunk call is made after it. -/
theorem makes_after {α β : Type} {p : Proc α} {f : α → Proc β} (none : p.Always NotChunk)
    (made : Prog.Makes (handle o crc32 out) (.ingestChunk chunk) t (p >>= f) s) :
    ∃ a s', p.run (handle o crc32 out) s = (.ok a, s') ∧
      Prog.Makes (handle o crc32 out) (.ingestChunk chunk) t (f a) s' :=
  (Prog.makes_bind.mp made).resolve_left fun first => none.makes first

/-- A chunk that fails ends its batch. -/
theorem run_ingestChunks_of_makes {chunks : List (List LocatedBlock)} {e : WriterError}
    (made : Prog.Makes (handle o crc32 out) (.ingestChunk chunk) t (ingestChunks config chunks) s)
    (failed : (handle o crc32 out (.ingestChunk chunk) t).1 = .error e) :
    (ingestChunks config chunks).run (handle o crc32 out) s =
      (.ok (.error e), (handle o crc32 out (.ingestChunk chunk) t).2) ∧ chunk ∈ chunks := by
  induction chunks generalizing s with
  | nil => exact made.elim
  | cons first rest ih =>
    unfold ingestChunks at made ⊢
    rcases Prog.makes_bind.mp made with here | ⟨r, s₁, ran, later⟩
    · obtain ⟨same, rfl⟩ := Prog.makes_perform.mp here
      cases same
      refine ⟨?_, List.mem_cons_self⟩
      have answered : (perform (.ingestChunk chunk)).run (handle o crc32 out) s =
          (.ok (.error e), (handle o crc32 out (.ingestChunk chunk) s).2) :=
        Prod.ext (congrArg Except.ok failed) rfl
      rw [Prog.run_bind_ok answered]
      rfl
    · cases r with
      | error e' => exact later.elim
      | ok counts =>
        obtain ⟨u, s₂, saved, inRest⟩ := makes_after (notChunk_trySaveSnapshot _) later
        obtain ⟨last, mem⟩ := ih inRest
        refine ⟨?_, List.mem_cons_of_mem _ mem⟩
        rw [Prog.run_bind_ok ran]
        dsimp only
        rw [Prog.run_bind_ok saved]
        exact last

theorem run_ingestBlocksBatch_of_makes {blocks : List LocatedBlock} {e : WriterError}
    (made : Prog.Makes (handle o crc32 out) (.ingestChunk chunk) t
      (ingestBlocksBatch o config blocks) s)
    (failed : (handle o crc32 out (.ingestChunk chunk) t).1 = .error e) :
    (ingestBlocksBatch o config blocks).run (handle o crc32 out) s =
      (.ok (.error e), (handle o crc32 out (.ingestChunk chunk) t).2) ∧
      ∀ b ∈ chunk, b ∈ blocks := by
  obtain ⟨ran, mem⟩ := run_ingestChunks_of_makes made failed
  refine ⟨ran, fun b inside => ?_⟩
  rw [← flatten_adaptiveChunks o blocks]
  exact List.mem_flatten.mpr ⟨chunk, mem, inside⟩

end Process

namespace Live

open Process

variable {o : IngestionOrchestrator} {config : Config} {crc32 : List UInt8 → UInt32}
  {out : Outside} {s t : State} {chunk : List LocatedBlock} {v : Vars}

/-! ## The catch-up loop -/

theorem notChunk_leaveCatchUp (v : Vars) : (leaveCatchUp config v).Always NotChunk := by
  unfold leaveCatchUp
  split
  · trivial
  · refine (notChunk_perform (c := .connectZmq) trivial).bind fun r => ?_
    exact (notChunk_orFail r).bind fun _ => trivial

/-- A chunk that fails in the catch-up loop ends the run. -/
theorem run_catchUp_of_makes {e : WriterError}
    (made : Prog.Makes (handle o crc32 out) (.ingestChunk chunk) t (catchUp o config v) s)
    (failed : (handle o crc32 out (.ingestChunk chunk) t).1 = .error e) :
    ∃ context, (catchUp o config v).run (handle o crc32 out) s =
      (.error context, (handle o crc32 out (.ingestChunk chunk) t).2) := by
  have leaves : ∀ {v : Vars} {s : State}, ¬ Prog.Makes (handle o crc32 out) (.ingestChunk chunk) t
      (leaveCatchUp config v) s := fun inside => (notChunk_leaveCatchUp _).makes inside
  unfold catchUp at made ⊢
  obtain ⟨cancelled, s₁, ran₁, made⟩ :=
    makes_after (notChunk_perform (c := .isCancelled) trivial) made
  rw [Prog.run_bind_ok ran₁]
  split at made
  · exact (leaves made).elim
  rename_i going₁
  rw [if_neg going₁]
  obtain ⟨r, s₂, ran₂, made⟩ :=
    makes_after (notChunk_perform (c := .getTipHeight) trivial) made
  rw [Prog.run_bind_ok ran₂]
  obtain ⟨tip, s₃, ran₃, made⟩ := makes_after (notChunk_orFail r) made
  rw [Prog.run_bind_ok ran₃]
  dsimp only at made ⊢
  split at made
  · exact (leaves made).elim
  rename_i below
  rw [if_neg below]
  have fetches : ∀ first count, (getBlockBatch first count).Always NotChunk :=
    fun first count => (notChunk_perform (c := .getBlocks (List.range' first count)) trivial).bind
      fun _ => trivial
  obtain ⟨r, s₄, ran₄, made⟩ := makes_after (fetches _ _) made
  rw [Prog.run_bind_ok ran₄]
  obtain ⟨blocks, s₅, ran₅, made⟩ := makes_after (notChunk_orFail r) made
  rw [Prog.run_bind_ok ran₅]
  cases isLast : blocks.getLast? with
  | none =>
    rw [isLast] at made
    exact (leaves made).elim
  | some last =>
    rw [isLast] at made
    dsimp only at made ⊢
    obtain ⟨cancelled, s₆, ran₆, made⟩ :=
    makes_after (notChunk_perform (c := .isCancelled) trivial) made
    rw [Prog.run_bind_ok ran₆]
    split at made
    · exact (leaves made).elim
    rename_i going₆
    rw [if_neg going₆]
    unfold ingestFetched at made ⊢
    rcases Prog.makes_bind.mp made with inBatch | ⟨r, s₇, ran₇, made⟩
    · rw [Prog.run_bind_ok (run_ingestBlocksBatch_of_makes inBatch failed).1]
      exact ⟨_, rfl⟩
    · cases r with
      | error e' => exact made.elim
      | ok u =>
        obtain ⟨cancelled, s₈, _, made⟩ :=
    makes_after (notChunk_perform (c := .isCancelled) trivial) made
        split at made
        · exact (leaves made).elim
        · exact made.elim

/-! ## The fork point -/

/-- A node that serves a chain of linked blocks. -/
structure Serves (out : Outside) (chain : List Block) : Prop where
  block : ∀ clock height b, chain[height]? = some b → out.block clock height = .ok (some b)
  hash : ∀ clock height b, chain[height]? = some b → out.hash clock height = .ok b.blockHash
  linked : ∀ height b b', chain[height]? = some b → chain[height + 1]? = some b' →
    b'.header.prevBlockhash = b.blockHash

/-- The stored block at a height is the chain's. -/
def SharesAt (g : Graph) (chain : List Block) (height : ℕ) : Prop :=
  ∃ b, chain[height]? = some b ∧ g.lookupBlockHash height = some b.blockHash

/-- The highest height below another where the stored hash is the chain's. -/
structure ForkPoint (g : Graph) (chain : List Block) (reorgHeight fork : ℕ) : Prop where
  below : fork < reorgHeight
  shares : SharesAt g chain fork
  highest : ∀ height, fork < height → height < reorgHeight → ¬ SharesAt g chain height

theorem heightsDown_succ (height : ℕ) :
    IngestionOrchestrator.heightsDown 0 (height + 1) =
      (height + 1) :: IngestionOrchestrator.heightsDown 0 height := by
  unfold IngestionOrchestrator.heightsDown
  rw [Nat.sub_zero, Nat.sub_zero, List.range'_1_concat, List.reverse_concat, Nat.zero_add]

variable {chain : List Block}

variable (o crc32) in
/-- One height of the walk: the two hashes are compared. -/
theorem run_walkBack_cons (serves : Serves out chain) {height : ℕ} (inside : height < chain.length)
    (rest : List ℕ) :
    (SharesAt s.graph chain height →
      (walkBack (height :: rest)).run (handle o crc32 out) s =
        (.ok height, { s with clock := s.clock + 2 })) ∧
    (¬ SharesAt s.graph chain height →
      (walkBack (height :: rest)).run (handle o crc32 out) s =
        (walkBack rest).run (handle o crc32 out) { s with clock := s.clock + 2 }) := by
  have served : chain[height]? = some chain[height] := List.getElem?_eq_getElem inside
  have looked : (perform (.getBlockHash height)).run (handle o crc32 out)
      { s with clock := s.clock + 1 } =
        (.ok (.ok chain[height].blockHash), { s with clock := s.clock + 2 }) :=
    Prod.ext (congrArg Except.ok (serves.hash _ _ _ served)) rfl
  have step : (walkBack (height :: rest)).run (handle o crc32 out) s =
      (if s.graph.lookupBlockHash height = some chain[height].blockHash then pure height
        else walkBack rest).run (handle o crc32 out) { s with clock := s.clock + 2 } := by
    have stored : (perform (.lookupBlockHash height)).run (handle o crc32 out) s =
        (.ok (.ok (s.graph.lookupBlockHash height)), { s with clock := s.clock + 1 }) := rfl
    rw [walkBack, Prog.run_bind_ok stored]
    show ((perform (.getBlockHash height)) >>= _).run (handle o crc32 out)
      { s with clock := s.clock + 1 } = _
    rw [Prog.run_bind_ok looked]
    rfl
  constructor
  · intro shares
    obtain ⟨b, served', same⟩ := shares
    cases served.symm.trans served'
    rw [step, if_pos same]
    rfl
  · intro differs
    rw [step, if_neg fun same => differs ⟨_, served, same⟩]

variable (o crc32) in
/-- The walk down from a height below which some stored block is the chain's. -/
theorem run_walkBack (serves : Serves out chain) {height : ℕ} (inside : height < chain.length)
    (genesis : SharesAt s.graph chain 0) :
    ∃ fork s', (walkBack (IngestionOrchestrator.heightsDown 0 height)).run (handle o crc32 out) s =
        (.ok fork, s') ∧
      s'.world = s.world ∧ ForkPoint s.graph chain (height + 1) fork := by
  induction height generalizing s with
  | zero =>
    obtain ⟨found, _⟩ := run_walkBack_cons o crc32 serves inside []
    exact ⟨0, _, found genesis, rfl, by omega, genesis, fun h low high => by omega⟩
  | succ height ih =>
    rw [heightsDown_succ]
    obtain ⟨found, passed⟩ := run_walkBack_cons (s := s) o crc32 serves inside
      (IngestionOrchestrator.heightsDown 0 height)
    by_cases shares : SharesAt s.graph chain (height + 1)
    · exact ⟨height + 1, _, found shares, rfl, by omega, shares, fun h low high => by omega⟩
    · obtain ⟨fork, s', ran, same, point⟩ := ih (s := { s with clock := s.clock + 2 })
        (by omega) genesis
      refine ⟨fork, s', (passed shares).trans ran, same, by have := point.below; omega,
        point.shares, fun h low high => ?_⟩
      by_cases top : h = height + 1
      · rw [top]
        exact shares
      · exact point.highest h low (by omega)

variable (o crc32) in
/-- Handling a reorganization rolls back to the fork point, and goes on above it. -/
theorem run_handleReorg (serves : Serves out chain) {height : ℕ} (inside : height < chain.length)
    (word : height + 1 < 2 ^ 32) (free : s.Free) (genesis : SharesAt s.graph chain 0) :
    ∃ fork s', (handleReorg (height + 1)).run (handle o crc32 out) s = (.ok (fork + 1), s') ∧
      ForkPoint s.graph chain (height + 1) fork ∧ s'.graph = s.graph.rollbackTo height fork := by
  obtain ⟨fork, s₁, walked, same, point⟩ := run_walkBack o crc32 serves inside
    genesis
  have free₁ : s₁.Free := by
    unfold State.Free at free ⊢
    rw [same]
    exact free
  have graph : s₁.graph = s.graph := congrArg (·.store.committed) same
  have rolled := handle_rollbackToHeight o crc32 out free₁ height fork
  have found : (withContext "Failed to find fork point during reorg" (findForkPoint height)).run
      (handle o crc32 out) s = (.ok fork, s₁) := by
    unfold withContext findForkPoint
    rw [Prog.run_bind_ok (Prog.run_attempt ..), walked]
    rfl
  have done : (perform (.rollbackToHeight height fork)).run (handle o crc32 out) s₁ =
      (.ok (.ok (height - fork)), (handle o crc32 out (.rollbackToHeight height fork) s₁).2) :=
    Prod.ext (congrArg Except.ok (congrArg Prod.fst rolled)) rfl
  have below := point.below
  refine ⟨fork, (handle o crc32 out (.rollbackToHeight height fork) s₁).2, ?_, point, ?_⟩
  · unfold handleReorg
    rw [Nat.add_sub_cancel, Prog.run_bind_ok found, Prog.run_bind_ok done]
    rw [asU32_of_lt (by omega)]
    rfl
  · rw [rolled, ← graph]
    rfl

/-! ## The real-time loop -/

theorem notChunk_walkBack (heights : List ℕ) : (walkBack heights).Always NotChunk := by
  induction heights with
  | nil => trivial
  | cons height rest ih =>
    unfold walkBack
    refine (notChunk_perform (c := .lookupBlockHash height) trivial).bind fun r => ?_
    refine (notChunk_orFail r).bind fun ourHash => ?_
    refine (notChunk_perform (c := .getBlockHash height) trivial).bind fun r => ?_
    refine (notChunk_orFail r).bind fun canonicalHash => ?_
    split
    · trivial
    · exact ih

theorem notChunk_handleReorg (reorgHeight : ℕ) : (handleReorg reorgHeight).Always NotChunk := by
  have found : (withContext "Failed to find fork point during reorg"
      (findForkPoint (reorgHeight - 1))).Always NotChunk :=
    (notChunk_walkBack _).attempt.bind fun r => notChunk_orFail r
  unfold handleReorg
  refine found.bind fun fork => ?_
  refine (notChunk_perform (c := .rollbackToHeight (reorgHeight - 1) fork) trivial).bind
    fun r => ?_
  exact (notChunk_orFail r).bind fun _ => trivial

theorem notChunk_finish (v : Vars) : (finish config v).Always NotChunk := by
  unfold finish
  split
  · rename_i height _
    split
    · exact (notChunk_perform (c := .saveToFile .shutdown height) trivial).bind fun _ => trivial
    · trivial
  · trivial

/-- The reorganization reported by a block the loop has fetched is handled, and the loop ends above
the fork point. -/
theorem run_ingestNew_of_makes {reorgHeight : ℕ} {expected actual : BlockHash}
    (serves : Serves out chain) (longer : reorgHeight < chain.length) (free : t.Free)
    (genesis : SharesAt t.graph chain 0)
    (reported : (handle o crc32 out (.ingestChunk chunk) t).1 =
      .error (.ReorgDetected reorgHeight expected actual))
    {remaining height : ℕ} {tracker : Option ℕ} (word : remaining = 0 ∨ height + remaining ≤ 2 ^ 32)
    (made : Prog.Makes (handle o crc32 out) (.ingestChunk chunk) t
      (ingestNew o config remaining height tracker) s) :
    ∃ fork last s', (ingestNew o config remaining height tracker).run (handle o crc32 out) s =
        (.ok (fork + 1, last), s') ∧
      ForkPoint t.graph chain reorgHeight fork ∧ fork + 1 < reorgHeight ∧
      s'.graph = t.graph.rollbackTo (reorgHeight - 1) fork ∧
      height ≤ reorgHeight ∧ reorgHeight < height + remaining := by
  induction remaining generalizing s height tracker with
  | zero => exact made.elim
  | succ remaining ih =>
    -- only the last height can be the last of `u32`
    have next : remaining = 0 ∨ asU32 (height + 1) = height + 1 := by
      by_cases last : remaining = 0
      · exact Or.inl last
      · exact Or.inr (asU32_of_lt (by omega))
    unfold ingestNew at made ⊢
    obtain ⟨r, s₁, ran₁, made⟩ :=
      makes_after (notChunk_perform (c := .getBlock height) trivial) made
    obtain ⟨found, s₂, ran₂, made⟩ := makes_after (notChunk_orFail r) made
    rw [Prog.run_bind_ok ran₁, Prog.run_bind_ok ran₂]
    cases found with
    | none =>
      obtain ⟨fork, last, s', ran, point, below, graph, inside⟩ := ih (by omega) made
      exact ⟨fork, last, s', ran, point, below, graph, by omega, by omega⟩
    | some block =>
      dsimp only at made ⊢
      rcases Prog.makes_bind.mp made with inBatch | ⟨res, s₃, ran₃, made⟩
      · obtain ⟨batch, sub⟩ := run_ingestBlocksBatch_of_makes inBatch reported
        obtain ⟨b, mem, _, _, pos⟩ :=
          IngestionOrchestrator.reorgAmong_ingestChunk (w := t.world) reported
        obtain ⟨⟨first, head, here, prev, stored, differs⟩, same⟩ :=
          IngestionOrchestrator.unlinked_of_reorg (w := t.world) reported
        have only := List.mem_singleton.mp (sub first (List.mem_of_head? head))
        rw [only] at here prev
        have reached : height = reorgHeight := here
        obtain ⟨k, rfl⟩ : ∃ k, reorgHeight = k + 1 := ⟨reorgHeight - 1, by omega⟩
        rw [Nat.add_sub_cancel] at stored ⊢
        -- the fetched block is linked to the chain's block below, which is not the stored one
        have fetched : block = chain[k + 1] := by
          have answered := serves.block s.clock _ _ (List.getElem?_eq_getElem longer)
          have given : r = out.block s.clock height := (Except.ok.inj (congrArg Prod.fst ran₁)).symm
          have taken : r = .ok (some block) := by
            cases r with
            | error e => cases ran₂
            | ok found =>
              cases ran₂
              rfl
          rw [given, reached, answered] at taken
          cases taken
          rfl
        have apart : ¬ SharesAt t.graph chain k := by
          intro shares
          obtain ⟨parent, served, hash⟩ := shares
          have link := serves.linked k parent _ served (List.getElem?_eq_getElem longer)
          refine differs ?_
          rw [← prev, fetched, link]
          exact Option.some.inj (stored.symm.trans hash)
        have world : (handle o crc32 out (.ingestChunk chunk) t).2.world = t.world := same
        have graph : (handle o crc32 out (.ingestChunk chunk) t).2.graph = t.graph :=
          congrArg (·.store.committed) world
        obtain ⟨fork, s', handled, point, rolled⟩ := run_handleReorg o crc32
          serves (by omega : k < chain.length) (by omega) (free_handle (.ingestChunk chunk) t free)
          (by rw [graph]; exact genesis)
        rw [graph] at point rolled
        have notTop : fork ≠ k := by
          intro top
          rw [top] at point
          exact apart point.shares
        have below := point.below
        refine ⟨fork, tracker, s', ?_, point, by omega, rolled, by omega, by omega⟩
        rw [Prog.run_bind_ok batch]
        dsimp only
        rw [Prog.run_bind_ok handled]
        rfl
      · rw [Prog.run_bind_ok ran₃]
        cases res with
        | ok u =>
          obtain ⟨fork, last, s', ran, point, below, graph, inside⟩ := ih (by omega) made
          exact ⟨fork, last, s', ran, point, below, graph, by omega, by omega⟩
        | error e =>
          cases e with
          | ReorgDetected reorgHeight' _ _ =>
            obtain ⟨next, s₄, _, made⟩ := makes_after (notChunk_handleReorg reorgHeight') made
            exact made.elim
          | _ => exact made.elim

theorem run_realTime_of_makes {reorgHeight : ℕ} {expected actual : BlockHash}
    (serves : Serves out chain) (longer : reorgHeight < chain.length) (free : t.Free)
    (genesis : SharesAt t.graph chain 0)
    (reported : (handle o crc32 out (.ingestChunk chunk) t).1 =
      .error (.ReorgDetected reorgHeight expected actual))
    (made : Prog.Makes (handle o crc32 out) (.ingestChunk chunk) t (realTime o config v) s) :
    ∃ fork v' s', (realTime o config v).run (handle o crc32 out) s = (.ok v', s') ∧
      v'.phase = v.phase ∧ v'.currentHeight = fork + 1 ∧
      ForkPoint t.graph chain reorgHeight fork ∧ fork + 1 < reorgHeight ∧
      s'.graph = t.graph.rollbackTo (reorgHeight - 1) fork := by
  unfold realTime at made ⊢
  obtain ⟨event, s₁, ran₁, made⟩ :=
    makes_after (notChunk_perform (c := .recvBlockHash) trivial) made
  rw [Prog.run_bind_ok ran₁]
  cases event with
  | shutdown => exact ((notChunk_finish v).makes made).elim
  | failed =>
    dsimp only at made
    split at made
    · exact made.elim
    obtain ⟨stop, s₂, _, made⟩ :=
      makes_after (notChunk_perform (c := .backoff) trivial) made
    split at made
    · exact ((notChunk_finish _).makes made).elim
    · exact made.elim
  | received =>
    dsimp only at made ⊢
    unfold notified at made ⊢
    obtain ⟨r, s₂, ran₂, made⟩ :=
    makes_after (notChunk_perform (c := .getTipHeight) trivial) made
    obtain ⟨tip, s₃, ran₃, made⟩ := makes_after (notChunk_orFail r) made
    rw [Prog.run_bind_ok ran₂, Prog.run_bind_ok ran₃]
    -- a height the node reports fits in 32 bits
    have word : tip < 2 ^ 32 := by
      have given : r = (out.tip s₁.clock).map asU32 :=
        (Except.ok.inj (congrArg Prod.fst ran₂)).symm
      cases answer : out.tip s₁.clock with
      | error e =>
        rw [given, answer] at ran₃
        cases ran₃
      | ok height =>
        rw [given, answer] at ran₃
        cases ran₃
        exact Nat.mod_lt _ (by decide)
    rcases Prog.makes_bind.mp made with inLoop | ⟨pair, s₄, _, made⟩
    · obtain ⟨fork, last, s', ran, point, below, graph, inside⟩ :=
        run_ingestNew_of_makes serves longer free genesis reported (by omega) inLoop
      rw [Prog.run_bind_ok ran]
      refine ⟨fork, { v with currentHeight := fork + 1, tracker := last, consecutiveFailures := 0 },
        s', ?_, rfl, rfl, point, below, graph⟩
      dsimp only
      rw [if_neg]
      · rfl
      · rintro ⟨_, past⟩
        omega
    · dsimp only at made
      split at made
      · exact ((notChunk_finish _).makes made).elim
      · exact made.elim

/-! ## Surviving a reorganization -/

/-- An iteration that has met a reorganization, reported in the state `t`, has rolled the stored
chain back to the fork point and goes on above it. -/
def Survives (chain : List Block) (t : State) (reorgHeight : ℕ)
    (result : Except String Vars × State) : Prop :=
  ∃ fork v hash, result.1 = .ok v ∧ v.phase ≠ .done ∧ v.currentHeight = fork + 1 ∧
    ForkPoint t.graph chain reorgHeight fork ∧
    result.2.graph = t.graph.rollbackTo (reorgHeight - 1) fork ∧
    (∀ n ∈ result.2.graph.blocks, n.height ≤ fork) ∧
    result.2.graph.lookupBlockHash fork = some hash ∧
    result.2.graph.checkpoint = some (.ofData (Graph.forkCheckpoint fork hash))

theorem survives_realTime {reorgHeight : ℕ} {expected actual : BlockHash}
    (serves : Serves out chain) (longer : reorgHeight < chain.length) (free : t.Free)
    (genesis : SharesAt t.graph chain 0) (tip : ∀ n ∈ t.graph.blocks, n.height < reorgHeight)
    (reported : (handle o crc32 out (.ingestChunk chunk) t).1 =
      .error (.ReorgDetected reorgHeight expected actual))
    (made : Prog.Makes (handle o crc32 out) (.ingestChunk chunk) t (realTime o config v) s)
    (phase : v.phase = .realTime) :
    Survives chain t reorgHeight ((realTime o config v).run (handle o crc32 out) s) := by
  obtain ⟨fork, v', s', ran, phase', height, point, below, graph⟩ :=
    run_realTime_of_makes serves longer free genesis reported made
  obtain ⟨b, served, stored⟩ := point.shares
  rw [ran]
  refine ⟨fork, v', b.blockHash, rfl, ?_, height, point, graph, fun n mem => ?_, ?_, ?_⟩
  · rw [phase', phase]
    decide
  · have kept : n ∈ (t.graph.rollbackTo (reorgHeight - 1) fork).blocks := graph ▸ mem
    obtain ⟨old, outside⟩ := Graph.mem_blocks_rollbackTo.mp kept
    have top := tip n old
    omega
  · obtain ⟨n, mem, here, hash⟩ := Graph.lookupBlockHash_eq_some.mp stored
    refine Graph.lookupBlockHash_eq_some.mpr ⟨n, ?_, here, hash⟩
    show n ∈ s'.graph.blocks
    rw [graph]
    exact Graph.mem_blocks_rollbackTo.mpr ⟨mem, by omega⟩
  · show s'.graph.checkpoint = _
    rw [graph]
    exact Graph.checkpoint_rollbackTo (by omega) stored

/-- Whenever a chunk of a live run reports a reorganization, the run survives it if and only if it
is in the real-time loop. -/
theorem survives_reorg_iff (o : IngestionOrchestrator) (config : Config)
    (crc32 : List UInt8 → UInt32) (out : Outside) (chain : List Block) (v : Vars) (s t : State)
    (chunk : List LocatedBlock) (reorgHeight : ℕ) (expected actual : BlockHash)
    (free : s.Free) (serves : Serves out chain) (longer : reorgHeight < chain.length)
    (genesis : SharesAt t.graph chain 0) (tip : ∀ n ∈ t.graph.blocks, n.height < reorgHeight)
    (made : Prog.Makes (handle o crc32 out) (.ingestChunk chunk) t (iterate o config v) s)
    (reported : (handle o crc32 out (.ingestChunk chunk) t).1 =
      .error (.ReorgDetected reorgHeight expected actual)) :
    Survives chain t reorgHeight ((iterate o config v).run (handle o crc32 out) s) ↔
      v.phase = .realTime := by
  have free' : t.Free := made.inv free_handle free
  unfold iterate at made ⊢
  cases phase : v.phase with
  | catchUp =>
    rw [phase] at made
    obtain ⟨context, ran⟩ := run_catchUp_of_makes made reported
    constructor
    · intro survived
      obtain ⟨fork, v', hash, ok, _⟩ := survived
      rw [ran] at ok
      cases ok
    · intro impossible
      cases impossible
  | realTime =>
    rw [phase] at made
    exact iff_of_true (survives_realTime serves longer free' genesis tip reported made phase) rfl
  | done =>
    rw [phase] at made
    exact made.elim

end Live

namespace Live.Sample

open Process ChainGraph.Sample

/-- A block beside `second`. -/
def stale : LocatedBlock := block 1 105 100 [coinbase 9 50 burnScript]

/-- A block above `second`. -/
def third : LocatedBlock := block 2 102 101 [coinbase 5 50 burnScript]

/-- The node has another second block, and one more above it. -/
def served : List LocatedBlock := [first, second, third]

def longer : Outside := outside (fun _ => 2) fun _ height => served[height]?

/-- The first block and the stale one are stored. -/
def forked : State where
  world := (((orchestrator 1000000).ingestBlocksBatch [first, stale]).run World.handle
    empty.world).2
  file := none
  clock := 0
  rolledBack := false

end Live.Sample

namespace Live

open Process

theorem serves_sample : Serves Sample.longer (Sample.served.map (·.block)) where
  block clock height b found := by
    show Except.ok (Sample.served[height]?.map (·.block)) = _
    rw [← List.getElem?_map, found]
  hash clock height b found := by
    rw [List.getElem?_map, Option.map_eq_some_iff] at found
    obtain ⟨located, found, rfl⟩ := found
    simp only [Sample.longer, Sample.outside, found]
  linked height b b' found above := by
    have low : height < 2 := by
      obtain ⟨inside, _⟩ := List.getElem?_eq_some_iff.mp above
      exact Nat.lt_of_succ_lt_succ inside
    obtain rfl | rfl : height = 0 ∨ height = 1 := by omega
    · cases found
      cases above
      rfl
    · cases found
      cases above
      rfl

/-- A run that starts beside the node's chain ends, and so does the next, with the stale block
still stored. -/
theorem catchUp_repeats_sample :
    let o := ChainGraph.Sample.orchestrator 1000000
    let run := fun s => (runLiveIngestion o (Sample.config "") 1).run
      (handle o Sample.crc32 Sample.longer) s
    let ended := (run Sample.forked).2
    let again := run { ended with world := ⟨⟨ended.graph, none⟩, UtxoCache.new 64⟩ }
    (handle o Sample.crc32 Sample.longer (.ingestChunk [⟨2, Sample.third.block, "rpc"⟩])
        Sample.forked).1 = .error (.ReorgDetected 2 101 105) ∧
      (run Sample.forked).1 = .error "Failed to ingest batch 2-2" ∧
      again.1 = .error "Failed to ingest batch 2-2" ∧
      again.2.graph.lookupBlockHash 1 = some 105 ∧ Sample.longer.hash 0 1 = .ok 101 ∧
      again.2.graph.lookupBlockHash 0 = some 100 ∧ Sample.longer.hash 0 0 = .ok 100 := by
  decide +kernel

theorem survives_reorg_sample :
    let o := ChainGraph.Sample.orchestrator 1000000
    Survives (Sample.served.map (·.block)) { Sample.forked with clock := 3 } 2
      ((iterate o (Sample.config "") ⟨.realTime, 2, none, 0⟩).run
        (handle o Sample.crc32 Sample.longer) Sample.forked) := by
  refine (survives_reorg_iff (ChainGraph.Sample.orchestrator 1000000) (Sample.config "")
    Sample.crc32 Sample.longer (Sample.served.map (·.block)) ⟨.realTime, 2, none, 0⟩ Sample.forked
    { Sample.forked with clock := 3 } [⟨2, Sample.third.block, "rpc"⟩] 2 101 105 ?_
    serves_sample (by decide) ?_ ?_ ?_ ?_).mpr rfl
  · exact Option.isNone_iff_eq_none.mp (by decide +kernel)
  · exact ⟨ChainGraph.Sample.first.block, rfl, by decide +kernel⟩
  · decide +kernel
  · exact Or.inr (Or.inr (Or.inr (Or.inl ⟨rfl, rfl⟩)))
  · decide +kernel

end Live

end ChainGraph

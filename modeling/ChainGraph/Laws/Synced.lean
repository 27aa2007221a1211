import ChainGraph.Laws.Checkpoint

/-!
# The height to resume at

`sync_checkpoint_with_db` walks down from the highest stored block, rolls back what is incomplete
and stops at the first complete block. It does not look below that block, so what it leaves is a
clean point to resume from only if everything between the old checkpoint and that block is there and
complete. And its first height is `checkpoint_height as u32 + 1`, which from the -1 of an empty
store is an overflow, as soon as a block is stored.
-/

namespace ChainGraph

open Foundation Foundation.Store

namespace Graph

variable {g g' : Graph} {top first h k n : ℕ}

/-! ## Complete blocks -/

/-- The block at a height is stored with as many transactions as it has, and with some. -/
def CompleteAt (g : Graph) (height : ℕ) : Prop :=
  ∃ count, 0 < count ∧ g.checkBlockComplete height = .ok (count, count)

/-- A block is stored at the height, and is not complete. -/
def IncompleteAt (g : Graph) (height : ℕ) : Prop :=
  (g.blockAt height).isSome ∧ ¬ g.CompleteAt height

theorem checkBlockComplete_of_none (none : g.blockAt h = none) :
    ∃ e, g.checkBlockComplete h = .error e := by
  unfold checkBlockComplete
  rw [none]
  exact ⟨_, rfl⟩

theorem checkBlockComplete_of_some {b : BlockNode} (some : g.blockAt h = some b) :
    ∃ counts, g.checkBlockComplete h = .ok counts := by
  unfold checkBlockComplete
  rw [some]
  exact ⟨_, rfl⟩

theorem CompleteAt.isSome (complete : g.CompleteAt h) : (g.blockAt h).isSome := by
  obtain ⟨count, -, ok⟩ := complete
  cases stored : g.blockAt h with
  | some b => rfl
  | none =>
    obtain ⟨e, refused⟩ := checkBlockComplete_of_none stored
    cases refused.symm.trans ok

/-- Only the blocks and what is included in them matter. -/
theorem completeAt_congr (blocks : g'.blocks = g.blocks) (included : g'.includedIn = g.includedIn) :
    g'.CompleteAt h ↔ g.CompleteAt h := by
  have here : g'.blockAt h = g.blockAt h := by
    unfold blockAt
    rw [blocks]
  have same : g'.checkBlockComplete h = g.checkBlockComplete h := by
    unfold checkBlockComplete
    rw [here, included]
  unfold CompleteAt
  rw [same]

/-! ## Rolled back from the top -/

/-- The graph with everything at and above a height rolled back, from the top down. -/
def rolledBack (g : Graph) (top height : ℕ) : Graph :=
  (IngestionOrchestrator.heightsDown height top).foldl rollbackBlock g

theorem rolledBack_top (g : Graph) (top : ℕ) : g.rolledBack top (top + 1) = g := by
  unfold rolledBack IngestionOrchestrator.heightsDown
  rw [Nat.sub_self]
  rfl

theorem rolledBack_step (below : h ≤ top) :
    (g.rolledBack top (h + 1)).rollbackBlock h = g.rolledBack top h := by
  unfold rolledBack IngestionOrchestrator.heightsDown
  have count : top + 1 - h = (top + 1 - (h + 1)) + 1 := by omega
  rw [count, List.range'_succ, List.reverse_cons, List.foldl_append]
  rfl

theorem mem_blocks_rolledBack {b : BlockNode} :
    b ∈ (g.rolledBack top h).blocks ↔ b ∈ g.blocks ∧ ¬ (h ≤ b.height ∧ b.height ≤ top) := by
  unfold rolledBack
  rw [mem_blocks_foldl_rollbackBlock, mem_heightsDown]

theorem checkpoint_rolledBack : (g.rolledBack top h).checkpoint = g.checkpoint :=
  checkpoint_foldl_rollbackBlock ..

/-- The walk comes to a height: every block above it is stored, and incomplete when its turn
comes. -/
def Reached (g : Graph) (top h : ℕ) : Prop :=
  ∀ k, h < k → k ≤ top → (g.rolledBack top (k + 1)).IncompleteAt k

/-! ## Heights -/

/-- The heights of blocks are 32 bit words. -/
def Words (g : Graph) : Prop := ∀ b ∈ g.blocks, b.height < 2 ^ 32

theorem le_of_getMaxBlockHeight (words : g.Words) (max : g.getMaxBlockHeight = some top) :
    top < 2 ^ 32 ∧ ∀ b ∈ g.blocks, b.height ≤ top := by
  unfold getMaxBlockHeight at max
  split at max
  · have bounded : g.blocks.rows.sup (·.height) < 2 ^ 32 :=
      (Finset.sup_lt_iff (by decide)).mpr words
    rw [asU32_of_lt bounded] at max
    cases max
    exact ⟨bounded, fun b mem => Finset.le_sup (f := fun c : BlockNode => c.height) mem⟩
  · cases max

theorem no_blocks (none : g.getMaxBlockHeight = none) : ∀ b, b ∉ g.blocks := by
  unfold getMaxBlockHeight at none
  split at none
  · cases none
  · rename_i empty
    intro b mem
    exact empty ⟨b, mem⟩

theorem readHeight_lt (g : Graph) : g.readHeight < 2 ^ 31 := by
  unfold readHeight getCheckpoint
  cases g.checkpoint with
  | none => decide
  | some c =>
    simp only [Option.map_some, Option.getD_some]
    unfold decodeCheckpointHeight
    have bound := Int.bmod_lt (x := c.lastProcessedHeight) (m := 2 ^ 32) (by decide)
    split <;> omega

theorem readHeight_congr (same : g'.checkpoint = g.checkpoint) : g'.readHeight = g.readHeight := by
  unfold readHeight getCheckpoint
  rw [same]

/-! ## What is promised, and when -/

/-- The sums and casts of heights that the call computes: `db_height as i32`, and
`checkpoint_height as u32 + 1` where there is a block above the checkpoint; and the sum it returns,
in 32 signed bits. -/
structure Unwrapped (g : Graph) (resume : ℕ) : Prop where
  top : ∀ top, g.getMaxBlockHeight = some top → top < 2 ^ 31
  first : ∀ top, g.getMaxBlockHeight = some top → g.readHeight < asI32 top →
    (g.readHeight % 2 ^ 32).toNat + 1 < 2 ^ 32
  next : resume < 2 ^ 31

/-- A clean point to resume at: no block at or above it, every block between the old checkpoint and
it complete, the checkpoint right below it, and heights that never wrapped. -/
structure CleanResume (g : Graph) (resume : ℕ) (g' : Graph) : Prop where
  above : ∀ b ∈ g'.blocks, b.height < resume
  between : ∀ h : ℕ, g.readHeight < h → h < resume → g'.CompleteAt h
  checkpoint : g'.readHeight = (resume : ℤ) - 1
  unwrapped : Unwrapped g resume

/-- When the call leaves one. With a block above the checkpoint, either the walk comes to a height
without a block, and the call fails; or the checkpoint is not -1, and below the first complete block
the walk comes to, if there is one, every block down to the checkpoint is complete. A block at 255
is read back as no checkpoint, and after the last signed word there is no height. -/
structure Resumable (g : Graph) : Prop where
  next : g.readHeight + 1 < 2 ^ 31
  above : ∀ top, g.getMaxBlockHeight = some top → top < 2 ^ 31 ∧
    (g.readHeight < top →
      (∃ h : ℕ, g.readHeight < h ∧ h ≤ top ∧ g.Reached top h ∧
        (g.rolledBack top (h + 1)).blockAt h = none) ∨
      (0 ≤ g.readHeight ∧ ∀ h : ℕ, g.readHeight < h → h ≤ top → g.Reached top h →
        (g.rolledBack top (h + 1)).CompleteAt h →
          h ≠ 255 ∧ h + 1 < 2 ^ 31 ∧
            ∀ k : ℕ, g.readHeight < k → k < h → (g.rolledBack top (h + 1)).CompleteAt k))

/-- The walk finds at most one thing. -/
theorem Reached.unique {h₁ h₂ : ℕ} (reached₁ : g.Reached top h₁) (reached₂ : g.Reached top h₂)
    (le₁ : h₁ ≤ top) (le₂ : h₂ ≤ top)
    (stops₁ : ¬ (g.rolledBack top (h₁ + 1)).IncompleteAt h₁)
    (stops₂ : ¬ (g.rolledBack top (h₂ + 1)).IncompleteAt h₂) : h₁ = h₂ := by
  rcases Nat.lt_trichotomy h₁ h₂ with lt | same | gt
  · exact absurd (reached₁ h₂ lt le₂) stops₂
  · exact same
  · exact absurd (reached₂ h₁ gt le₁) stops₁

end Graph

namespace IngestionOrchestrator

open Neo4jWriter

variable {o : IngestionOrchestrator} {g g' : Graph} {top first n : ℕ} {c : ℤ}

/-! ## The walk -/

/-- The outcomes of the walk from the top down to a first height. -/
inductive Walked (g : Graph) (top first : ℕ) (c : ℤ) : Except WriterError ℤ × Store neo4j → Prop
  | found (h : ℕ) (low : first ≤ h) (high : h ≤ top) (reached : g.Reached top h)
      (complete : (g.rolledBack top (h + 1)).CompleteAt h) :
    Walked g top first c (.ok (asI32 h), ⟨g.rolledBack top (h + 1), none⟩)
  | nothing (skipped : ∀ k, first ≤ k → k ≤ top → (g.rolledBack top (k + 1)).IncompleteAt k) :
    Walked g top first c (.ok c, ⟨g.rolledBack top first, none⟩)
  | hole (e : WriterError) (h : ℕ) (low : first ≤ h) (high : h ≤ top) (reached : g.Reached top h)
      (none : (g.rolledBack top (h + 1)).blockAt h = none) :
    Walked g top first c (.error e, ⟨g.rolledBack top (h + 1), .none⟩)

/-- The walk over the `n` heights from the first one. -/
theorem walked_from (bounded : first + n ≤ top + 1)
    (skipped : ∀ k, first + n ≤ k → k ≤ top → (g.rolledBack top (k + 1)).IncompleteAt k) :
    Walked g top first c ((findComplete c (List.range' first n).reverse).run handle
      ⟨g.rolledBack top (first + n), none⟩) := by
  induction n with
  | zero => exact .nothing skipped
  | succ n ih =>
    have reached : g.Reached top (first + n) := fun k above below => skipped k above below
    have within : first + n ≤ top := by omega
    rw [List.range'_1_concat, List.reverse_concat]
    unfold findComplete
    rw [Prog.run_bind, run_checkBlockComplete]
    dsimp only
    rw [← Nat.add_assoc]
    cases stored : (g.rolledBack top (first + n + 1)).blockAt (first + n) with
    | none =>
      obtain ⟨e, refused⟩ := Graph.checkBlockComplete_of_none stored
      rw [refused]
      exact .hole e (first + n) (Nat.le_add_right ..) within reached stored
    | some b =>
      obtain ⟨⟨expected, actual⟩, counted⟩ := Graph.checkBlockComplete_of_some stored
      rw [counted]
      dsimp only
      by_cases complete : expected = actual ∧ actual > 0
      · rw [if_pos complete]
        obtain ⟨rfl, pos⟩ := complete
        exact .found (first + n) (Nat.le_add_right ..) within reached ⟨expected, pos, counted⟩
      · rw [if_neg complete, Prog.run_bind_ok (run_rollbackBlock ..),
          Graph.rolledBack_step within]
        apply ih (by omega)
        intro k above below
        by_cases here : k = first + n
        · subst here
          refine ⟨by rw [stored]; rfl, fun whole => complete ?_⟩
          obtain ⟨count, pos, same⟩ := whole
          cases counted.symm.trans same
          exact ⟨rfl, pos⟩
        · exact skipped k (by omega) below

/-- The walk from the highest block. -/
theorem walked (bounded : first ≤ top + 1) :
    Walked g top first c ((findComplete c (heightsDown first top)).run handle ⟨g, none⟩) := by
  have all : first + (top + 1 - first) = top + 1 := by omega
  have walk := walked_from (g := g) (c := c) (n := top + 1 - first) (Nat.le_of_eq all)
    fun k above below => by omega
  rw [all, Graph.rolledBack_top] at walk
  exact walk

/-! ## The call -/

theorem run_getResumeHeight_eq (low : -1 ≤ g.readHeight) :
    o.getResumeHeight.run handle ⟨g, none⟩ = (.ok (g.readHeight + 1).toNat, ⟨g, none⟩) := by
  have high := g.readHeight_lt
  unfold getResumeHeight
  rw [Prog.run_bind, run_getCheckpoint]
  unfold Graph.readHeight at low high ⊢
  dsimp only
  cases read : g.getCheckpoint with
  | none => rfl
  | some checkpoint =>
    simp only [read, Option.map_some, Option.getD_some] at low high ⊢
    by_cases negative : checkpoint.lastProcessedHeight < 0
    · rw [if_pos negative]
      have least : checkpoint.lastProcessedHeight = -1 := by omega
      rw [least]
      rfl
    · have within : (checkpoint.lastProcessedHeight + 1) % 2 ^ 32 =
          checkpoint.lastProcessedHeight + 1 := by omega
      rw [if_neg negative, within]
      rfl

/-- Without a block above the checkpoint the run resumes after it. -/
theorem run_sync_beside (low : -1 ≤ g.readHeight)
    (beside : ∀ top, g.getMaxBlockHeight = some top → asI32 top ≤ g.readHeight) :
    o.syncCheckpointWithDb.run handle ⟨g, none⟩ =
      (.ok (g.readHeight + 1).toNat, ⟨g, none⟩) := by
  have resumed := run_getResumeHeight_eq (o := o) low
  have read : (g.getCheckpoint.map (·.lastProcessedHeight)).getD (-1) = g.readHeight := rfl
  unfold syncCheckpointWithDb
  rw [Prog.run_bind, run_getCheckpoint]
  dsimp only
  rw [Prog.run_bind, run_getMaxBlockHeight]
  dsimp only
  simp only [read]
  cases stored : g.getMaxBlockHeight with
  | none => exact resumed
  | some top =>
    have below := beside top stored
    dsimp only
    rw [if_neg (by omega)]
    exact resumed

/-- The first height of the walk, as it is computed. -/
theorem first_eq (low : -1 ≤ g.readHeight) :
    asU32 ((g.readHeight % 2 ^ 32).toNat + 1) = (g.readHeight + 1).toNat := by
  have high := g.readHeight_lt
  by_cases least : g.readHeight = -1
  · rw [least]
    rfl
  · have within : (g.readHeight % 2 ^ 32).toNat + 1 = (g.readHeight + 1).toNat := by omega
    rw [within, asU32_of_lt (by omega)]

/-- **With a block above the checkpoint.** The walk finds the first complete block, which becomes
the checkpoint; or it rolls everything above the checkpoint back; or it fails at a hole. -/
inductive Synced (g : Graph) (top : ℕ) : Except WriterError ℕ × Store neo4j → Prop
  | found (h : ℕ) (stored : Checkpoint) (low : g.readHeight < h) (high : h ≤ top)
      (reached : g.Reached top h) (complete : (g.rolledBack top (h + 1)).CompleteAt h)
      (height : stored.lastProcessedHeight = h) :
    Synced g top (.ok (h + 1),
      ⟨{ g.rolledBack top (h + 1) with checkpoint := some stored }, none⟩)
  | nothing (skipped : ∀ k : ℕ, g.readHeight < k → k ≤ top →
      (g.rolledBack top (k + 1)).IncompleteAt k) :
    Synced g top (.ok (g.readHeight + 1).toNat,
      ⟨g.rolledBack top (g.readHeight + 1).toNat, none⟩)
  | hole (e : WriterError) (s : Store neo4j) (h : ℕ) (low : g.readHeight < h) (high : h ≤ top)
      (reached : g.Reached top h) (none : (g.rolledBack top (h + 1)).blockAt h = none) :
    Synced g top (.error e, s)

theorem synced_above (low : -1 ≤ g.readHeight) (max : g.getMaxBlockHeight = some top)
    (small : top < 2 ^ 31) (above : g.readHeight < top) :
    Synced g top (o.syncCheckpointWithDb.run handle ⟨g, none⟩) := by
  have high := g.readHeight_lt
  have walk : Walked g top (g.readHeight + 1).toNat g.readHeight
      ((findComplete g.readHeight (heightsDown (g.readHeight + 1).toNat top)).run handle
        ⟨g, none⟩) := walked (by omega)
  have read : (g.getCheckpoint.map (·.lastProcessedHeight)).getD (-1) = g.readHeight := rfl
  unfold syncCheckpointWithDb
  rw [Prog.run_bind, run_getCheckpoint]
  dsimp only
  rw [Prog.run_bind, run_getMaxBlockHeight, max]
  dsimp only
  simp only [read]
  rw [asI32_of_lt small, if_pos above, first_eq low, Prog.run_bind]
  generalize (findComplete g.readHeight (heightsDown (g.readHeight + 1).toNat top)).run handle
    ⟨g, none⟩ = result at walk ⊢
  cases walk with
  | found h first last reached complete =>
    have height : asI32 h = h := asI32_of_lt (by omega)
    have higher : (h : ℤ) > g.readHeight := by omega
    obtain ⟨stored, saved, same⟩ := run_saveRecovered (o := o) g.getCheckpoint h
      (g.rolledBack top (h + 1))
    have next : (((h : ℤ) + 1) % 2 ^ 32).toNat = h + 1 := by omega
    dsimp only
    rw [height, if_pos higher, Prog.run_bind_ok saved, next]
    exact .found h stored higher last reached complete same
  | nothing skipped =>
    have next : ((g.readHeight + 1) % 2 ^ 32).toNat = (g.readHeight + 1).toNat := by omega
    dsimp only
    rw [if_neg (by omega), next]
    exact .nothing fun k above below => skipped k (by omega) below
  | hole e h first last reached none => exact .hole e _ h (by omega) last reached none

/-! ## A clean point -/

/-- No block is left above the height that is resumed at. -/
theorem above_rolledBack (words : g.Words) (max : g.getMaxBlockHeight = some top) {resume : ℕ} :
    ∀ b ∈ (g.rolledBack top resume).blocks, b.height < resume := by
  intro b mem
  obtain ⟨old, outside⟩ := Graph.mem_blocks_rolledBack.mp mem
  have below := (Graph.le_of_getMaxBlockHeight words max).2 b old
  omega

theorem clean_beside (low : -1 ≤ g.readHeight) (words : g.Words) (next : g.readHeight + 1 < 2 ^ 31)
    (beside : ∀ top, g.getMaxBlockHeight = some top → top < 2 ^ 31 ∧ (top : ℤ) ≤ g.readHeight) :
    g.CleanResume (g.readHeight + 1).toNat g where
  above := by
    intro b mem
    cases max : g.getMaxBlockHeight with
    | none => exact absurd mem (Graph.no_blocks max b)
    | some top =>
      have below := (Graph.le_of_getMaxBlockHeight words max).2 b mem
      have above := (beside top max).2
      omega
  between := by
    intro h above below
    omega
  checkpoint := by omega
  unwrapped := by
    refine ⟨fun top max => (beside top max).1, fun top max above => ?_, by omega⟩
    have inside := beside top max
    rw [asI32_of_lt inside.1] at above
    omega

theorem clean_above (words : g.Words) (max : g.getMaxBlockHeight = some top)
    (small : top < 2 ^ 31) (above : g.readHeight < top) (nonneg : 0 ≤ g.readHeight)
    (below : ∀ h : ℕ, g.readHeight < h → h ≤ top → g.Reached top h →
      (g.rolledBack top (h + 1)).CompleteAt h → h ≠ 255 ∧ h + 1 < 2 ^ 31 ∧
        ∀ k : ℕ, g.readHeight < k → k < h → (g.rolledBack top (h + 1)).CompleteAt k)
    {resume : ℕ} {s : Store neo4j}
    (ran : Synced g top (.ok resume, s)) : g.CleanResume resume s.committed := by
  have unwrapped : ∀ resume < 2 ^ 31, g.Unwrapped resume := by
    intro resume next
    refine ⟨fun top' max' => ?_, fun _ _ _ => by omega, next⟩
    cases max.symm.trans max'
    exact small
  cases ran with
  | found h stored first last reached complete height =>
    obtain ⟨usual, next, complete'⟩ := below h first last reached complete
    refine ⟨above_rolledBack words max, fun k above' below' => ?_, ?_, unwrapped _ next⟩
    · apply (Graph.completeAt_congr rfl rfl).mpr
      by_cases here : k = h
      · rw [here]
        exact complete
      · exact complete' k above' (by omega)
    · have here : Graph.storedHeight { g.rolledBack top (h + 1) with checkpoint := some stored } =
          h := height
      rw [Graph.readHeight_eq] <;> rw [here] <;> omega
  | nothing skipped =>
    refine ⟨above_rolledBack words max, fun k above' below' => by omega, ?_,
      unwrapped _ (by omega)⟩
    rw [Graph.readHeight_congr Graph.checkpoint_rolledBack]
    omega

variable (o) in
/-- **A clean point to resume at.** Whenever `sync_checkpoint_with_db` returns a height, it has left
a clean point there, exactly if the stored blocks are resumable. -/
theorem syncCheckpointWithDb_clean_iff (low : -1 ≤ g.readHeight) (words : g.Words) :
    (∀ resume s, o.syncCheckpointWithDb.run handle ⟨g, none⟩ = (.ok resume, s) →
      g.CleanResume resume s.committed) ↔ g.Resumable := by
  have high := g.readHeight_lt
  constructor
  · intro clean
    have beside : (∀ top, g.getMaxBlockHeight = some top → asI32 top ≤ g.readHeight) →
        g.Resumable := by
      intro beside
      have unwrapped := (clean _ _ (run_sync_beside low beside)).unwrapped
      have next := unwrapped.next
      refine ⟨by omega, fun top max => ⟨unwrapped.top top max, fun above => ?_⟩⟩
      have below := beside top max
      rw [asI32_of_lt (unwrapped.top top max)] at below
      omega
    cases max : g.getMaxBlockHeight with
    | none => exact beside fun top some => by cases max.symm.trans some
    | some top =>
      by_cases below : asI32 top ≤ g.readHeight
      · refine beside fun top' some => ?_
        cases max.symm.trans some
        exact below
      have word := (Graph.le_of_getMaxBlockHeight words max).1
      have small : top < 2 ^ 31 := by
        have exact' := asI32_eq_of_nonneg word (by omega)
        have bound := asI32_lt top
        omega
      rw [asI32_of_lt small] at below
      have above : g.readHeight < top := by omega
      refine ⟨by omega, fun top' again => ?_⟩
      cases max.symm.trans again
      refine ⟨small, fun _ => ?_⟩
      have synced := synced_above (o := o) low max small above
      generalize result : o.syncCheckpointWithDb.run handle ⟨g, none⟩ = r at synced
      have nonneg : ∀ resume, g.CleanResume resume r.2.committed → 0 ≤ g.readHeight := by
        intro resume point
        have first := point.unwrapped.first top max (by rw [asI32_of_lt small]; exact above)
        omega
      cases synced with
      | hole e s h first last reached none => exact Or.inl ⟨h, first, last, reached, none⟩
      | nothing skipped =>
        have point := clean _ _ result
        refine Or.inr ⟨nonneg _ point, fun h first last reached complete => ?_⟩
        exact absurd complete (skipped h first last).2
      | found h stored first last reached complete height =>
        have point := clean _ _ result
        refine Or.inr ⟨nonneg _ point, fun h' first' last' reached' complete' => ?_⟩
        have same := reached'.unique reached last' last (fun bad => bad.2 complete')
          fun bad => bad.2 complete
        subst same
        have next := point.unwrapped.next
        refine ⟨fun special => ?_, next, fun k above' below' => ?_⟩
        · have here : Graph.storedHeight
              { g.rolledBack top (h' + 1) with checkpoint := some stored } = 255 := by
            refine height.trans ?_
            rw [special]
            rfl
          have read := (Graph.readHeight_255 here).symm.trans point.checkpoint
          omega
        · exact (Graph.completeAt_congr rfl rfl).mp (point.between k above' (by omega))
  · intro resumable resume s ran
    have next := resumable.next
    by_cases beside : ∀ top, g.getMaxBlockHeight = some top → asI32 top ≤ g.readHeight
    · rw [run_sync_beside low beside] at ran
      cases ran
      refine clean_beside low words next fun top max => ?_
      have small := (resumable.above top max).1
      have below := beside top max
      rw [asI32_of_lt small] at below
      exact ⟨small, below⟩
    · push Not at beside
      obtain ⟨top, max, above⟩ := beside
      obtain ⟨small, stored⟩ := resumable.above top max
      rw [asI32_of_lt small] at above
      have synced := synced_above (o := o) low max small above
      rw [ran] at synced
      rcases stored above with ⟨h, first, last, reached, none⟩ | ⟨nonneg, below⟩
      · have bad : ¬ (g.rolledBack top (h + 1)).IncompleteAt h := by
          intro incomplete
          have some := incomplete.1
          rw [none] at some
          cases some
        cases synced with
        | found h' stored first' last' reached' complete =>
          have same := reached'.unique reached last' last (fun bad => bad.2 complete) bad
          subst same
          have some := complete.isSome
          rw [none] at some
          cases some
        | nothing skipped => exact absurd (skipped h first last) bad
      · exact clean_above words max small above nonneg below synced

end IngestionOrchestrator

/-! ## Stores a crash leaves -/

/-- The graph after single blocks, the last of which did not get to its checkpoint: that is still
the one of the first. -/
def Sample.crashed (first : LocatedBlock) (blocks : List LocatedBlock) : Graph :=
  let ingest (g : Graph) (b : LocatedBlock) : Graph :=
    (((Call.ingestBlock b none).program (Sample.orchestrator 0)).run World.handle
      ⟨⟨g, none⟩, .new 1⟩).2.store.committed
  let g := ingest .empty first
  { blocks.foldl ingest g with checkpoint := g.checkpoint }

/-- A block two above the first, with a coinbase. -/
def Sample.third : LocatedBlock := Sample.block 2 102 101 [Sample.coinbase 5 50 Sample.burnScript]

/-- The first block and the third, and no second one: the run resumes after the third. -/
theorem resumed_above_hole :
    ((Sample.orchestrator 0).syncCheckpointWithDb.run handle
        ⟨Sample.crashed Sample.first [Sample.third], none⟩).1 = .ok 3 ∧
      ¬ ∀ resume s, (Sample.orchestrator 0).syncCheckpointWithDb.run handle
          ⟨Sample.crashed Sample.first [Sample.third], none⟩ = (.ok resume, s) →
        (Sample.crashed Sample.first [Sample.third]).CleanResume resume s.committed := by
  have three : ((Sample.orchestrator 0).syncCheckpointWithDb.run handle
      ⟨Sample.crashed Sample.first [Sample.third], none⟩).1 = .ok 3 := by decide +kernel
  have start : (Sample.crashed Sample.first [Sample.third]).readHeight = 0 := by decide +kernel
  have missing : (((Sample.orchestrator 0).syncCheckpointWithDb.run handle
      ⟨Sample.crashed Sample.first [Sample.third], none⟩).2.committed.blockAt 1).isSome =
        false := by
    decide +kernel
  refine ⟨three, fun clean => ?_⟩
  have point := clean 3 _ (Prod.ext three rfl)
  have complete := point.between 1 (by rw [start]; decide) (by decide)
  rw [complete.isSome] at missing
  cases missing

/-- The first two blocks, the second without its checkpoint: the run resumes after both. -/
theorem resumed_clean :
    (Sample.crashed Sample.first [Sample.second]).CleanResume 2
      ((Sample.orchestrator 0).syncCheckpointWithDb.run handle
        ⟨Sample.crashed Sample.first [Sample.second], none⟩).2.committed := by
  have two : ((Sample.orchestrator 0).syncCheckpointWithDb.run handle
      ⟨Sample.crashed Sample.first [Sample.second], none⟩).1 = .ok 2 := by decide +kernel
  have start : (Sample.crashed Sample.first [Sample.second]).readHeight = 0 := by decide +kernel
  have max : (Sample.crashed Sample.first [Sample.second]).getMaxBlockHeight = some 1 := by
    decide +kernel
  have words : ∀ b ∈ (Sample.crashed Sample.first [Sample.second]).blocks.rows,
      b.height < 2 ^ 32 := by decide +kernel
  refine (IngestionOrchestrator.syncCheckpointWithDb_clean_iff _ (by rw [start]; decide) words).mpr
    ⟨by rw [start]; decide, fun top same => ?_⟩ 2 _ (Prod.ext two rfl)
  cases max.symm.trans same
  refine ⟨by decide, fun _ => Or.inr ⟨by rw [start], fun h low high _ _ => ?_⟩⟩
  rw [start] at low ⊢
  refine ⟨by omega, by omega, fun k above below => ?_⟩
  omega

end ChainGraph

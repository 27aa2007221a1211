import ChainGraph.Domain.Ingestion

/-!
# Streaming ingestion

The loop of `run_streaming_ingestion`: load the heights one by one, collect blocks into a batch,
and hand the batch to the orchestrator when it is full or the last height is reached. The loader,
the orchestrator and the cache file are operations of an interface, so that a result about the
loop holds whatever they do.

A run is described by its log, the batches the orchestrator took. Without a fault every block the
loop has loaded is either in the log or in the batch being collected, and the batch is handed over
at the last height; but a height without a block leaves the loop with whatever the batch holds.
-/

namespace ChainGraph

open Foundation

namespace Streaming

/-- What the loop calls. -/
inductive Op where
  | prewarmCache (startHeight : ℕ)
  | preloadFullRange (startHeight maxHeight : ℕ)
  | loadBlock (height : ℕ)
  | ingestBlocksBatch (batch : List LocatedBlock)
  | saveToFile (height : ℕ)

@[reducible] def Reply : Op → Type
  | .prewarmCache _ => Except String Unit
  | .preloadFullRange _ _ => Except String Unit
  | .loadBlock _ => Except String (Option LocatedBlock)
  | .ingestBlocksBatch _ => Except WriterError Unit
  | .saveToFile _ => Except String Unit

abbrev Calls : Interface := ⟨Op, Reply⟩

/-- Programs of the streaming loop. An error is its outermost context. -/
abbrev Stream : Type → Type := Prog Calls String

def perform (o : Op) : Stream (Reply o) := Prog.perform (I := Calls) o

/-- The value used as maximum height when none is configured. -/
def unbounded : ℕ := 4294967295

/-- The configuration the loop reads. -/
structure StreamConfig where
  /-- `READ_AHEAD_BLOCKS`. -/
  batchSize : ℕ
  cacheFile : String
  utxoPrewarmDepth : ℕ

/-- The main loop over the heights that are left, with the batch so far. Its answer is the number
of blocks processed. -/
def mainLoop (batchSize maxHeight : ℕ) : List ℕ → List LocatedBlock → ℕ → Stream ℕ
  | [], _, blocksProcessed => pure blocksProcessed
  | height :: heights, batch, blocksProcessed => do
    match ← perform (.loadBlock height) with
    | .error e => throw e
    | .ok none => pure blocksProcessed
    | .ok (some data) =>
      let batch := batch ++ [data]
      if batch.length ≥ batchSize ∨ height = maxHeight then do
        match ← perform (.ingestBlocksBatch batch) with
        | .ok () => mainLoop batchSize maxHeight heights [] (blocksProcessed + batch.length)
        | .error _ =>
          let start := (batch.head?.map (·.height)).getD 0
          throw s!"Failed to ingest batch starting at block {start}"
      else mainLoop batchSize maxHeight heights batch blocksProcessed

/-- Fill the cache from the blocks before the start, when resuming and configured. -/
def prewarm (config : StreamConfig) (startHeight : ℕ) (enablePrewarm : Bool) : Stream Unit :=
  if enablePrewarm ∧ config.utxoPrewarmDepth > 0 ∧ startHeight > 0 then do
    match ← perform (.prewarmCache startHeight) with
    | .ok () => pure ()
    | .error _ => throw "Cache pre-warming failed"
  else pure ()

/-- Read the index of the whole range at once, if the range has an end. -/
def preload (startHeight maxHeight : ℕ) : Stream Unit :=
  if maxHeight ≠ unbounded then do
    match ← perform (.preloadFullRange startHeight maxHeight) with
    | .ok () => pure ()
    | .error _ => throw "Failed to preload index range"
  else pure ()

/-- Save the cache on completion; a failure is only logged. -/
def saveCache (config : StreamConfig) (finalHeight : ℕ) : Stream Unit :=
  if config.cacheFile ≠ "" then do
    let _ ← perform (.saveToFile finalHeight)
    pure ()
  else pure ()

/-- Restoring the cache file before the loop has no outcome the loop depends on and is left out. -/
def runStreamingIngestion (config : StreamConfig) (startHeight maxHeight : ℕ)
    (enablePrewarm : Bool) : Stream Unit := do
  prewarm config startHeight enablePrewarm
  preload startHeight maxHeight
  let blocksProcessed ← mainLoop config.batchSize maxHeight
    (List.range' startHeight (maxHeight + 1 - startHeight)) [] 0
  saveCache config (asU32 (startHeight + blocksProcessed))

/-! ## Running the loop -/

/-- What stands outside: blocks by height, whether each call succeeds, possibly depending on the
batches taken so far. -/
structure Outside where
  load : ℕ → Option LocatedBlock
  prewarm : Except String Unit
  preload : Except String Unit
  ingest : List (List LocatedBlock) → List LocatedBlock → Except WriterError Unit
  save : Except String Unit

/-- The state of a run is the log of batches taken. -/
def handle (out : Outside) : Prog.Handler Calls (List (List LocatedBlock))
  | .prewarmCache _, log => (out.prewarm, log)
  | .preloadFullRange _ _, log => (out.preload, log)
  | .loadBlock height, log => (.ok (out.load height), log)
  | .ingestBlocksBatch batch, log =>
    match out.ingest log batch with
    | .ok () => (.ok (), log ++ [batch])
    | .error e => (.error e, log)
  | .saveToFile _, log => (out.save, log)

/-- The block index has exactly the heights up to `tip`. -/
def Outside.HasTip (out : Outside) (tip : ℕ) : Prop :=
  ∀ height, (height ≤ tip → ∃ data, out.load height = some data ∧ data.height = height) ∧
    (tip < height → out.load height = none)

/-- The blocks at `n` consecutive heights, as far as there are any. -/
def loaded (out : Outside) (height n : ℕ) : List LocatedBlock :=
  (List.range' height n).filterMap out.load

variable {out : Outside} {tip batchSize maxHeight height n blocksProcessed count : ℕ}
  {log log' : List (List LocatedBlock)} {batch : List LocatedBlock}

theorem loaded_succ_some {data : LocatedBlock} (h : out.load height = some data) :
    loaded out height (n + 1) = data :: loaded out (height + 1) n := by
  simp [loaded, List.range'_succ, h]

theorem loaded_eq_nil (known : out.HasTip tip) (beyond : tip < height) :
    loaded out height n = [] := by
  rw [loaded, List.filterMap_eq_nil_iff]
  intro h mem
  exact (known h).2 (Nat.lt_of_lt_of_le beyond (List.mem_range'_1.mp mem).1)

/-- Within the index, loading gives a block for every height in order. -/
theorem map_height_loaded (known : out.HasTip tip) (height n : ℕ) :
    (loaded out height n).map (·.height) = List.range' height (min n (tip + 1 - height)) := by
  induction n generalizing height with
  | zero => simp [loaded]
  | succ n ih =>
    by_cases beyond : tip < height
    · rw [loaded_eq_nil known beyond, Nat.sub_eq_zero_of_le beyond, Nat.min_zero]
      rfl
    · obtain ⟨data, found, same⟩ := (known height).1 (by omega)
      have count : min (n + 1) (tip + 1 - height) = min n (tip + 1 - (height + 1)) + 1 := by omega
      rw [loaded_succ_some found, List.map_cons, ih, same, count, List.range'_succ]

/-- The blocks a run hands over: all of them if the last height is reached, and otherwise only
full batches. -/
def handedOver (batchSize maxHeight tip : ℕ) (blocks : List LocatedBlock) : List LocatedBlock :=
  if maxHeight ≤ tip then blocks
  else blocks.take (blocks.length - blocks.length % max 1 batchSize)

/-- Handing over a full batch at the front leaves the rest to be handed over in the same way. -/
theorem handedOver_append (full : batch.length = max 1 batchSize) (rest : List LocatedBlock) :
    handedOver batchSize maxHeight tip (batch ++ rest) =
      batch ++ handedOver batchSize maxHeight tip rest := by
  unfold handedOver
  split
  · rfl
  · have rest_le := Nat.mod_le rest.length (max 1 batchSize)
    have count : (batch ++ rest).length - (batch ++ rest).length % max 1 batchSize =
        batch.length + (rest.length - rest.length % max 1 batchSize) := by
      rw [List.length_append, ← full, Nat.add_mod_left]
      rw [← full] at rest_le
      omega
    rw [count, List.take_length_add_append]

/-! One iteration: there is no block, the batch goes on growing, or the batch is handed over. -/

theorem run_mainLoop_none {heights : List ℕ} (h : out.load height = none) :
    (mainLoop batchSize maxHeight (height :: heights) batch blocksProcessed).run (handle out) log =
      (.ok blocksProcessed, log) := by
  unfold mainLoop perform
  rw [Prog.run_bind, Prog.run_perform]
  simp only [handle, h]
  rfl

theorem run_mainLoop_collect {heights : List ℕ} {data : LocatedBlock}
    (h : out.load height = some data)
    (wait : ¬ ((batch ++ [data]).length ≥ batchSize ∨ height = maxHeight)) :
    (mainLoop batchSize maxHeight (height :: heights) batch blocksProcessed).run (handle out) log =
      (mainLoop batchSize maxHeight heights (batch ++ [data]) blocksProcessed).run
        (handle out) log := by
  rw [mainLoop, perform, Prog.run_bind, Prog.run_perform]
  simp only [handle, h, if_neg wait]

theorem run_mainLoop_flush {heights : List ℕ} {data : LocatedBlock}
    (h : out.load height = some data)
    (flush : (batch ++ [data]).length ≥ batchSize ∨ height = maxHeight)
    (ok : (mainLoop batchSize maxHeight (height :: heights) batch blocksProcessed).run
      (handle out) log = (.ok count, log')) :
    (mainLoop batchSize maxHeight heights [] (blocksProcessed + (batch ++ [data]).length)).run
      (handle out) (log ++ [batch ++ [data]]) = (.ok count, log') := by
  rw [mainLoop, perform, Prog.run_bind, Prog.run_perform] at ok
  simp only [handle, h, if_pos flush] at ok
  rw [perform, Prog.run_bind, Prog.run_perform] at ok
  cases taken : out.ingest log (batch ++ [data]) with
  | error e =>
    simp only [handle, taken] at ok
    cases ok
  | ok u =>
    simp only [handle, taken] at ok
    exact ok

/-- **The loop.** If it ends without an error, the log has grown by the blocks handed over: those
in the batch at the start and those loaded after them. -/
theorem run_mainLoop (known : out.HasTip tip) (upTo : height + n = maxHeight + 1)
    (small : batch.length < max 1 batchSize) (done : n = 0 → batch = [])
    (ok : (mainLoop batchSize maxHeight (List.range' height n) batch blocksProcessed).run
      (handle out) log = (.ok count, log')) :
    log'.flatten = log.flatten ++
      handedOver batchSize maxHeight tip (batch ++ loaded out height n) := by
  induction n generalizing height batch blocksProcessed log with
  | zero =>
    cases ok
    simp [done rfl, loaded, handedOver]
  | succ n ih =>
    rw [List.range'_succ] at ok
    by_cases beyond : tip < height
    · -- no block at this height: the loop ends and the batch is lost
      rw [run_mainLoop_none ((known height).2 beyond)] at ok
      have stopped : log = log' := congrArg Prod.snd ok
      have above : ¬ maxHeight ≤ tip := by omega
      rw [← stopped, loaded_eq_nil known beyond, List.append_nil, handedOver, if_neg above,
        Nat.mod_eq_of_lt small, Nat.sub_self, List.take_zero, List.append_nil]
    · obtain ⟨data, found, -⟩ := (known height).1 (by omega)
      have longer : (batch ++ [data]).length = batch.length + 1 := by simp
      rw [loaded_succ_some found, List.append_cons]
      by_cases flush : (batch ++ [data]).length ≥ batchSize ∨ height = maxHeight
      · have none : ([] : List LocatedBlock).length < max 1 batchSize := by simp
        have rest := ih (by omega) none (fun _ => rfl) (run_mainLoop_flush found flush ok)
        rw [rest, List.flatten_append, List.nil_append, List.append_assoc]
        congr 1
        rw [List.flatten_singleton]
        by_cases full : (batch ++ [data]).length ≥ batchSize
        · rw [handedOver_append (by omega)]
        · -- flushed because this is the last height
          have last : n = 0 := by omega
          have within : maxHeight ≤ tip := by omega
          simp [last, loaded, handedOver, within]
      · rw [run_mainLoop_collect found flush] at ok
        rw [not_or] at flush
        exact ih (by omega) (by omega) (fun zero => by omega) ok

/-- Every call except handing over a batch. -/
def Quiet : Op → Prop
  | .ingestBlocksBatch _ => False
  | _ => True

variable (out) in
/-- Calls other than handing over a batch leave the log as it is. -/
theorem run_quiet {α : Type} {p : Stream α} (all : p.Always Quiet)
    (log : List (List LocatedBlock)) : (p.run (handle out) log).2 = log := by
  refine all.run (S := (· = log)) (fun o s quiet inv => ?_) rfl
  cases o with
  | ingestBlocksBatch batch => exact quiet.elim
  | _ => exact inv

theorem always_prewarm (config : StreamConfig) (startHeight : ℕ) (enablePrewarm : Bool) :
    (prewarm config startHeight enablePrewarm).Always Quiet := by
  unfold prewarm
  split
  · refine ⟨trivial, fun r => ?_⟩
    cases r <;> trivial
  · trivial

theorem always_preload (startHeight maxHeight : ℕ) :
    (preload startHeight maxHeight).Always Quiet := by
  unfold preload
  split
  · refine ⟨trivial, fun r => ?_⟩
    cases r <;> trivial
  · trivial

theorem always_saveCache (config : StreamConfig) (finalHeight : ℕ) :
    (saveCache config finalHeight).Always Quiet := by
  unfold saveCache
  split
  · exact ⟨trivial, fun _ => trivial⟩
  · trivial

/-- The calls before the loop and the save after it leave the log alone. -/
theorem run_runStreamingIngestion {config : StreamConfig} {startHeight : ℕ} {enablePrewarm : Bool}
    (ok : (runStreamingIngestion config startHeight maxHeight enablePrewarm).run (handle out) log =
      (.ok (), log')) :
    ∃ count, (mainLoop config.batchSize maxHeight
      (List.range' startHeight (maxHeight + 1 - startHeight)) [] 0).run (handle out) log =
      (.ok count, log') := by
  unfold runStreamingIngestion at ok
  obtain ⟨_, log₁, first, ok⟩ := Prog.run_bind_eq_ok ok
  obtain ⟨_, log₂, second, ok⟩ := Prog.run_bind_eq_ok ok
  obtain ⟨count, log₃, loop, last⟩ := Prog.run_bind_eq_ok ok
  have same₁ := run_quiet out (always_prewarm config startHeight enablePrewarm) log
  have same₂ := run_quiet out (always_preload startHeight maxHeight) log₁
  have same₃ := run_quiet out
    (always_saveCache config (asU32 (startHeight + count))) log₃
  rw [first] at same₁
  rw [second] at same₂
  rw [last] at same₃
  subst same₁ same₂ same₃
  exact ⟨count, loop⟩

/-! ## Completeness -/

/-- The heights from the start to the smaller of the maximum and the tip. -/
def wanted (startHeight maxHeight tip : ℕ) : List ℕ :=
  List.range' startHeight (min maxHeight tip + 1 - startHeight)

/-- Nothing is lost: the maximum is within the index, or no height is wanted, or the wanted
heights fill whole batches. -/
def FillsBatches (batchSize startHeight maxHeight tip : ℕ) : Prop :=
  maxHeight ≤ tip ∨ tip < startHeight ∨ max 1 batchSize ∣ tip + 1 - startHeight

/-- The heights a run hands over are the wanted ones iff no partial batch is left when the loop
runs out of blocks. -/
theorem handedOver_loaded (known : out.HasTip tip) (startHeight : ℕ) :
    (handedOver batchSize maxHeight tip
      (loaded out startHeight (maxHeight + 1 - startHeight))).map (·.height) =
        wanted startHeight maxHeight tip ↔
      FillsBatches batchSize startHeight maxHeight tip := by
  have all := map_height_loaded known startHeight (maxHeight + 1 - startHeight)
  have count : min (maxHeight + 1 - startHeight) (tip + 1 - startHeight) =
      min maxHeight tip + 1 - startHeight := by omega
  rw [count] at all
  have len := congrArg List.length all
  rw [List.length_map, List.length_range'] at len
  unfold handedOver FillsBatches
  by_cases within : maxHeight ≤ tip
  · rw [if_pos within, all]
    exact ⟨fun _ => Or.inl within, fun _ => rfl⟩
  · have short : min maxHeight tip + 1 - startHeight = tip + 1 - startHeight := by omega
    rw [if_neg within, List.map_take, all, wanted, len, short]
    constructor
    · intro same
      have kept := congrArg List.length same
      rw [List.length_take, List.length_range'] at kept
      have none : (tip + 1 - startHeight) % max 1 batchSize = 0 := by
        have := Nat.mod_le (tip + 1 - startHeight) (max 1 batchSize)
        omega
      exact Or.inr (Or.inr (Nat.dvd_of_mod_eq_zero none))
    · intro fills
      have none : (tip + 1 - startHeight) % max 1 batchSize = 0 := by
        rcases fills with impossible | empty | whole
        · exact absurd impossible within
        · rw [Nat.sub_eq_zero_of_le empty, Nat.zero_mod]
        · exact Nat.mod_eq_zero_of_dvd whole
      rw [none, Nat.sub_zero]
      exact List.take_of_length_le (by rw [List.length_range'])

/-- **Completeness of streaming.** A run that returns `Ok` has handed over every height from the
start to the smaller of the maximum and the tip, each once and in order, iff no partial batch is
left when the index runs out of blocks. -/
theorem streaming_complete_iff {config : StreamConfig} {startHeight : ℕ} {enablePrewarm : Bool}
    (known : out.HasTip tip)
    (ok : (runStreamingIngestion config startHeight maxHeight enablePrewarm).run (handle out) [] =
      (.ok (), log')) :
    log'.flatten.map (·.height) = wanted startHeight maxHeight tip ↔
      FillsBatches config.batchSize startHeight maxHeight tip := by
  obtain ⟨count, loop⟩ := run_runStreamingIngestion ok
  by_cases empty : maxHeight + 1 - startHeight = 0
  · -- no height at all: the loop body never runs
    rw [empty] at loop
    cases loop
    have nothing : min maxHeight tip + 1 - startHeight = 0 := by omega
    have fills : FillsBatches config.batchSize startHeight maxHeight tip := by
      unfold FillsBatches
      omega
    simp [wanted, nothing, fills]
  · have none : ([] : List LocatedBlock).length < max 1 config.batchSize := by simp
    have handed := run_mainLoop known (by omega) none (fun _ => rfl) loop
    rw [handed, List.flatten_nil, List.nil_append, List.nil_append]
    exact handedOver_loaded known startHeight

/-- An index of two blocks, and an orchestrator that takes every batch. -/
def twoBlocks : Outside where
  load height :=
    if height ≤ 1 then some ⟨height, ⟨0, ⟨1, 0, 0, 0, 0, 0⟩, [], 0, 0⟩, "blk00000.dat"⟩ else none
  prewarm := .ok ()
  preload := .ok ()
  ingest _ _ := .ok ()
  save := .ok ()

theorem twoBlocks_hasTip : twoBlocks.HasTip 1 := fun _ =>
  ⟨fun le => ⟨_, if_pos le, rfl⟩, fun lt => if_neg (Nat.not_le.mpr lt)⟩

/-- The configuration of the binary. -/
def readAhead : StreamConfig := ⟨5000, "", 0⟩

/-- Without an end height, two blocks are loaded and the run returns `Ok` without having handed
over either of them. -/
theorem streaming_incomplete :
    twoBlocks.HasTip 1 ∧
      (runStreamingIngestion readAhead 0 unbounded false).run (handle twoBlocks) [] =
        (.ok (), []) ∧
      ([] : List (List LocatedBlock)).flatten.map (·.height) ≠ wanted 0 unbounded 1 := by
  refine ⟨twoBlocks_hasTip, ?_, by decide⟩
  rfl

/-- With the end height 1 the same two blocks are handed over. -/
theorem streaming_complete_twoBlocks :
    [twoBlocks.load 0, twoBlocks.load 1].reduceOption.map (·.height) = wanted 0 1 1 ↔
      FillsBatches 5000 0 1 1 :=
  have ok : (runStreamingIngestion readAhead 0 1 false).run (handle twoBlocks) [] =
      (.ok (), [[twoBlocks.load 0, twoBlocks.load 1].reduceOption]) := rfl
  streaming_complete_iff twoBlocks_hasTip ok

end Streaming

end ChainGraph

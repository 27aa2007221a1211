import ChainGraph.Laws.Batch
import ChainGraph.Main.Config

/-!
# What a validated configuration is worth

The validation looks at six values, and the ingestion computes with three. Of these it checks that
the two memory sizes are not zero. A configuration that passes is safe iff the batch size of the
writer is not zero either, and the memory sizes are not so large that they overflow in bytes.
-/

namespace ChainGraph

open Foundation

/-! ## Batched calls -/

namespace IngestionOrchestrator

variable (o : IngestionOrchestrator) (chunk : List LocatedBlock) (res : Found)

/-- Which of two methods is called does not depend on the writer. -/
theorem made_ite (bip30 : Bool) (merging fast : BatchedCall) (w : Neo4jWriter) :
    (if bip30 then merging else fast).made w = if bip30 then merging.made w else fast.made w :=
  apply_ite (fun call : BatchedCall => call.made w) ..

theorem made_outputs :
    (o.chunkCalls chunk res).outputs.made o.writer = o.chunkOutputWrite chunk :=
  made_ite ..

theorem made_transactions :
    (o.chunkCalls chunk res).transactions.made o.writer = o.chunkTransactionWrite res chunk :=
  made_ite ..

theorem made_inputs :
    (o.chunkCalls chunk res).inputs.made o.writer = o.chunkInputWrite chunk :=
  made_ite ..

theorem made_performsCall (performs : List PerformsData) :
    (performsCall performs).made o.writer = o.writePerformsIfAny performs := by
  cases performs <;> rfl

theorem made_benefitsCall (benefits : List BenefitsToData) :
    (benefitsCall benefits).made o.writer = o.writeBenefitsToIfAny benefits := by
  cases benefits <;> rfl

/-- What a spawned task does with the calls for its bucket. -/
def inBucket (performs benefits : BatchedCall) : Io Unit := do
  performs.made o.writer
  benefits.made o.writer

theorem zipWith_inBucket :
    List.zipWith (inBucket o) (o.chunkCalls chunk res).performs (o.chunkCalls chunk res).benefits =
      o.bucketTasks (performsRows res chunk) (o.benefitsRows chunk) := by
  have task : (fun performs benefits =>
      inBucket o (performsCall performs) (benefitsCall benefits)) = o.bucketTask := by
    funext performs benefits
    unfold inBucket bucketTask
    rw [made_performsCall, made_benefitsCall]
  unfold bucketTasks
  rw [← task]
  exact List.zipWith_map ..

/-- **The calls of a chunk** are those that `process_batch_chunk` makes. -/
theorem processBatchChunk_calls (found : Found) :
    o.processBatchChunk chunk found = (do
      io ((o.chunkCalls chunk found).blocks.made o.writer)
      let writeResult ← (io ((o.chunkCalls chunk found).outputs.made o.writer)).attempt
      modifyCache (populateCache (o.outputRows chunk))
      Prog.ofExcept writeResult
      let cache ← getCache
      setCache (supplement (spentKeys chunk) found cache).1
      let calls := o.chunkCalls chunk (supplement (spentKeys chunk) found cache).2
      io (calls.transactions.made o.writer)
      io (calls.hasOutputs.made o.writer)
      io (calls.inputs.made o.writer)
      spawnAll (List.zipWith (inBucket o) calls.performs calls.benefits)
      modifyCache fun c => c.removeMany (spentKeys chunk)
      io (checkpointChunk chunk)
      pure (o.chunkCounts chunk)) := by
  simp only [made_outputs, made_transactions, made_inputs, zipWith_inBucket]
  rfl

/-- **The calls of a block** are those that `ingest_block` makes. -/
theorem ingestBlock_calls (block : Block) (height : ℕ) (fileName : String)
    (fileOffset : Option ℕ) :
    o.ingestBlock block height fileName fileOffset = (do
      io (o.validateParentHash block height)
      io ((o.blockCalls block height res).blocks.made o.writer)
      let writeResult ← (io ((o.blockCalls block height res).outputs.made o.writer)).attempt
      modifyCache (populateCache (block.txdata.flatMap o.outputsOf))
      Prog.ofExcept writeResult
      let allOutputs ← getManyWithFallback (block.txdata.flatMap Transaction.inputKeys)
      let calls := o.blockCalls block height allOutputs
      io (calls.transactions.made o.writer)
      io (calls.hasOutputs.made o.writer)
      io (calls.inputs.made o.writer)
      calls.performs.forM fun call => io (call.made o.writer)
      calls.benefits.forM fun call => io (call.made o.writer)
      removeSpentOutputsFromCache block
      io (Neo4jWriter.updateCheckpoint
        { lastProcessedHeight := asI32 height
          lastProcessedHash := some block.blockHash
          lastProcessedFile := fileName
          lastProcessedFileOffset := fileOffset
          status := "in_progress" })) := by
  unfold ingestBlock ingestBlockNode ingestOutputsAndCache ingestTransactionsWithAmounts
    ingestInputs writeSimplifiedLayerRust blockCalls
  simp only [List.forM_eq_forM, List.forM_cons, List.forM_nil, made_performsCall, made_benefitsCall,
    Prog.bind_assoc]
  rfl

end IngestionOrchestrator

namespace Configuration

open Checked IngestionOrchestrator

/-! ## Sizes -/

theorem safe_cacheCapacity_iff {c : PerformanceConfig} :
    Safe c.cacheCapacity ↔ c.utxoCacheMemoryMb.toNat * 1000000 < 2 ^ 64 := by
  unfold PerformanceConfig.cacheCapacity
  rw [safe_bind_iff, safe_mul_iff]
  constructor
  · exact And.left
  · intro fits
    exact ⟨fits, fun bytes _ => safe_ok _⟩

/-- A megabyte is room enough for an entry. -/
theorem cacheCapacity_pos {c : PerformanceConfig} {n : UInt64} (some : c.utxoCacheMemoryMb ≠ 0)
    (capacity : c.cacheCapacity = .ok n) : 0 < n.toNat := by
  unfold PerformanceConfig.cacheCapacity at capacity
  obtain ⟨bytes, product, same⟩ := bind_eq_ok.mp capacity
  cases same
  have value := mul_eq_ok product
  have mb : c.utxoCacheMemoryMb.toNat ≠ 0 := fun zero => some (UInt64.toNat_inj.mp zero)
  have million : (1000000 : UInt64).toNat = 1000000 := rfl
  rw [million] at value
  have size : (72 : UInt64).toNat = 72 := rfl
  rw [UInt64.toNat_div, value, size]
  omega

theorem toNat_kilo : (1024 : UInt64).toNat = 1024 := rfl

theorem safe_withMaxTransactionMemoryMb_iff {mb : UInt64} :
    Safe (withMaxTransactionMemoryMb mb) ↔ mb.toNat * 1048576 < 2 ^ 64 := by
  have whole : mb.toNat * 1024 * 1024 = mb.toNat * 1048576 := Nat.mul_assoc ..
  unfold withMaxTransactionMemoryMb
  rw [safe_bind_iff, safe_mul_iff, toNat_kilo]
  constructor
  · rintro ⟨fits, rest⟩
    have product : (mul mb 1024 : Checked Empty UInt64) = .ok (mb * 1024) := if_pos fits
    have both := safe_mul_iff.mp (rest _ product)
    rwa [mul_eq_ok product, toNat_kilo, whole] at both
  · intro fits
    constructor
    · exact Nat.lt_of_le_of_lt (Nat.mul_le_mul_left _ (by decide)) fits
    · intro kilobytes product
      rw [safe_mul_iff, mul_eq_ok product, toNat_kilo, whole]
      exact fits

/-! ## Slices -/

variable {c : Neo4jConfig}

theorem safe_batched (able : 0 < c.writeBatchSize.toNat) (call : BatchedCall) :
    Safe (c.batched call) := by
  unfold Neo4jConfig.batched
  rw [dif_pos able]
  split
  · exact safe_ok _
  · exact safe_ok _

theorem batched_eq_divideByZero (zero : ¬ 0 < c.writeBatchSize.toNat) {call : BatchedCall}
    (some : call.items ≠ []) : c.batched call = .error (.panicked .divideByZero) := by
  unfold Neo4jConfig.batched
  rw [if_neg (by simpa using some), dif_neg zero]

/-- A writer that cannot split fails at the first call of a chunk with a block. -/
theorem not_safe_chunkCalls (zero : ¬ 0 < c.writeBatchSize.toNat) (o : IngestionOrchestrator)
    {chunk : List LocatedBlock} (some : chunk ≠ []) (allOutputs : Found) :
    ¬ Safe (c.batched (o.chunkCalls chunk allOutputs).blocks) := by
  have panics : c.batched (o.chunkCalls chunk allOutputs).blocks =
      .error (.panicked .divideByZero) :=
    batched_eq_divideByZero zero (by simpa [chunkCalls] using some)
  exact fun safe => safe _ panics

/-! ## Safe configurations -/

theorem refuseIf_eq_ok {bad : Bool} {message : String} :
    refuseIf bad message = .ok () ↔ bad = false := by
  unfold refuseIf
  cases bad <;> simp

theorem refuseIf_bind_eq_ok {bad : Bool} {message : String} {rest : Except ConfigError Unit} :
    (refuseIf bad message >>= fun _ => rest) = .ok () ↔ bad = false ∧ rest = .ok () := by
  unfold refuseIf
  cases bad <;> simp [bind, Except.bind]

/-- What the validation promises. -/
theorem Config.validate_eq_ok {c : Config} :
    c.validate = .ok () ↔ c.neo4j.uri ≠ "" ∧ c.neo4j.maxConnections ≠ 0 ∧
      ¬ c.neo4j.minConnections > c.neo4j.maxConnections ∧
      c.ingestion.maxTransactionMemoryMb ≠ 0 ∧ c.performance.utxoCacheMemoryMb ≠ 0 ∧
      c.performance.parallelBatches ≠ 0 := by
  unfold Config.validate
  simp only [refuseIf_bind_eq_ok, refuseIf_eq_ok, decide_eq_false_iff_not, ne_eq]

/-- Ingestion does not panic at what it derives from the configuration: there is a cache, whose
capacity is positive, there is a budget in bytes, and every slice of every chunk and of every block
can be split. -/
structure Config.IsSafe (c : Config) : Prop where
  capacity : Safe c.performance.cacheCapacity
  capacity_pos : ∀ n, c.performance.cacheCapacity = .ok n → 0 < n.toNat
  memory : Safe (withMaxTransactionMemoryMb c.ingestion.maxTransactionMemoryMb)
  chunks : ∀ (o : IngestionOrchestrator) (blocks : List LocatedBlock),
    ∀ chunk ∈ o.adaptiveChunks blocks, ∀ allOutputs,
      ∀ call ∈ (o.chunkCalls chunk allOutputs).all, Safe (c.neo4j.batched call)
  blocks : ∀ (o : IngestionOrchestrator) (block : Block) (height : ℕ) (allOutputs : Found),
    ∀ call ∈ (o.blockCalls block height allOutputs).all, Safe (c.neo4j.batched call)

/-- **Validation.** A configuration that passes is safe iff the writer has a batch size and the
memory sizes fit a word in bytes. -/
theorem Config.isSafe_iff {c : Config} (valid : c.validate = .ok ()) :
    c.IsSafe ↔ c.neo4j.writeBatchSize ≠ 0 ∧
      c.performance.utxoCacheMemoryMb.toNat * 1000000 < 2 ^ 64 ∧
      c.ingestion.maxTransactionMemoryMb.toNat * 1048576 < 2 ^ 64 := by
  constructor
  · intro safe
    refine ⟨?_, safe_cacheCapacity_iff.mp safe.capacity,
      safe_withMaxTransactionMemoryMb_iff.mp safe.memory⟩
    intro zero
    have zero : ¬ 0 < c.neo4j.writeBatchSize.toNat := by
      rw [zero]
      decide
    have single := (Sample.orchestrator 0).flatten_adaptiveChunks [Sample.first]
    obtain ⟨chunk, among⟩ :
        ∃ chunk, chunk ∈ (Sample.orchestrator 0).adaptiveChunks [Sample.first] := by
      apply List.exists_mem_of_ne_nil
      intro none
      rw [none] at single
      cases single
    have some := (Sample.orchestrator 0).ne_nil_of_mem_adaptiveChunks _ among
    exact not_safe_chunkCalls zero _ some (fun _ => none)
      (safe.chunks _ _ chunk among _ _ List.mem_cons_self)
  · rintro ⟨able, cache, memory⟩
    obtain ⟨_, _, _, _, some, _⟩ := validate_eq_ok.mp valid
    have able : 0 < c.neo4j.writeBatchSize.toNat := UInt64.pos_iff_ne_zero.mpr able
    exact {
      capacity := safe_cacheCapacity_iff.mpr cache
      capacity_pos := fun n capacity => cacheCapacity_pos some capacity
      memory := safe_withMaxTransactionMemoryMb_iff.mpr memory
      chunks := fun _ _ _ _ _ call _ => safe_batched able call
      blocks := fun _ _ _ _ call _ => safe_batched able call }

/-- The default configuration passes and is safe. -/
theorem default_isSafe : Config.default.validate = .ok () ∧ Config.default.IsSafe := by
  have valid : Config.default.validate = .ok () := by decide
  refine ⟨valid, (Config.isSafe_iff valid).mpr ?_⟩
  decide

/-- The default configuration with a batch size of zero. -/
def Config.unbatched : Config :=
  { Config.default with neo4j := { Config.default.neo4j with writeBatchSize := 0 } }

/-- The default configuration with more than `2 ^ 64` bytes for the cache. -/
def Config.overflowing : Config :=
  { Config.default with
    performance := { Config.default.performance with utxoCacheMemoryMb := 18446744073710 } }

/-- Two configurations that pass: with one the first write of a block divides by zero, with the
other the capacity of the cache overflows. -/
theorem validated_and_unsafe :
    (Config.unbatched.validate = .ok () ∧
      (∀ allOutputs, Config.unbatched.neo4j.batched
        ((Sample.orchestrator 0).chunkCalls [Sample.first] allOutputs).blocks =
          .error (.panicked .divideByZero)) ∧ ¬ Config.unbatched.IsSafe) ∧
    Config.overflowing.validate = .ok () ∧
      Config.overflowing.performance.cacheCapacity = .error (.panicked .overflow) := by
  have panics (allOutputs : Found) : Config.unbatched.neo4j.batched
      ((Sample.orchestrator 0).chunkCalls [Sample.first] allOutputs).blocks =
        .error (.panicked .divideByZero) := rfl
  refine ⟨⟨by decide, panics, ?_⟩, by decide, by decide⟩
  intro safe
  exact safe.chunks (Sample.orchestrator 0) [Sample.first] [Sample.first] (by decide)
    (fun _ => none) _ List.mem_cons_self _ (panics _)

end Configuration

end ChainGraph

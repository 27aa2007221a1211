import ChainGraph.Foundation.Runs
import ChainGraph.Laws.Chunk

/-!
# What a chunk fails with

`ReorgDetected` is the only error the callers of the orchestrator look at. It has one origin, the
validation of the first parent of a chunk: no method of the writer reports it, whatever the database
answers, so an error of this kind names the height and the parent hash of a block of the chunk.
-/

namespace ChainGraph

open Foundation

/-- Any error but a reorganization. -/
def NotReorg : WriterError → Prop
  | .ReorgDetected _ _ _ => False
  | _ => True

/-- Whatever the session answers, the program fails with no reorganization. -/
abbrev NoReorg {α : Type} (p : Io α) : Prop :=
  p.Yields (fun _ _ => True) NotReorg fun _ => True

namespace Neo4jWriter

variable {w : Neo4jWriter}

theorem notReorg_queryError {name : String} {i n r : ℕ} (f : DbFault) :
    NotReorg (w.queryError name i n r f) := by
  cases f <;> trivial

theorem noReorg_runWithRetry (name : String) (q : Query) (i n r retries : ℕ) :
    NoReorg (w.runWithRetry name q i n r retries) := by
  induction retries with
  | zero =>
    intro answer _
    cases answer with
    | ok u => trivial
    | error f => exact notReorg_queryError f
  | succ retries ih =>
    intro answer _
    cases answer with
    | ok u => trivial
    | error f =>
      show Prog.Yields (fun _ _ => True) NotReorg (fun _ => True)
        (if (w.queryError name i n r f).isRetryable then w.runWithRetry name q i n r retries
        else throw (w.queryError name i n r f))
      split
      · exact ih
      · exact notReorg_queryError f

theorem noReorg_runInTxn (name : String) (q : Query) (i n : ℕ) :
    NoReorg (runInTxn name q i n) := by
  intro answer _
  cases answer with
  | ok sent => cases sent <;> trivial
  | error f => trivial

theorem noReorg_eachBatch {α : Type} {body : ℕ → List α → Io Unit}
    (each : ∀ i c, NoReorg (body i c)) (i : ℕ) (cs : List (List α)) :
    NoReorg (eachBatch body i cs) := by
  induction cs generalizing i with
  | nil => trivial
  | cons c cs ih => exact (each i c).bind fun _ _ => ih (i + 1)

theorem noReorg_executeBatched {α : Type} (items : List α) (query : List α → Query)
    (name : String) : NoReorg (w.executeBatched items query name) := by
  unfold executeBatched
  split
  · trivial
  · refine Prog.Yields.perform.bind fun useTxn _ => noReorg_eachBatch (fun i c => ?_) _ _
    split
    · exact noReorg_runInTxn _ _ _ _
    · exact noReorg_runWithRetry _ _ _ _ _ _

theorem noReorg_writeOutputs (outputs : List OutputData) : NoReorg (w.writeOutputs outputs) := by
  refine noReorg_eachBatch (fun i c => ?_) _ _
  refine (noReorg_runWithRetry _ _ _ _ _ _).bind fun _ _ => ?_
  dsimp only
  split
  · trivial
  · exact noReorg_runWithRetry _ _ _ _ _ _

theorem noReorg_updateCheckpoint (checkpoint : CheckpointData) :
    NoReorg (updateCheckpoint checkpoint) := by
  intro inTxn _
  cases inTxn with
  | error f => trivial
  | ok sent =>
    cases sent with
    | true => trivial
    | false =>
      intro direct _
      cases direct <;> trivial

theorem noReorg_readGraph {failed : DbFault → WriterError} (reported : ∀ f, NotReorg (failed f)) :
    NoReorg (readGraph failed) := by
  intro answer _
  cases answer with
  | ok g => trivial
  | error f => exact reported f

theorem notReorg_readError {timedOut failed : String} (f : DbFault) :
    NotReorg (readError timedOut failed f) := by
  cases f <;> trivial

theorem noReorg_lookupBlockHash (height : ℕ) : NoReorg (w.lookupBlockHash height) :=
  (noReorg_readGraph notReorg_readError).bind fun _ _ => trivial

theorem noReorg_lookupOutputsBatch (ids : List OutputId) : NoReorg (lookupOutputsBatch ids) := by
  unfold lookupOutputsBatch
  split
  · trivial
  · exact (noReorg_readGraph notReorg_readError).bind fun _ _ => trivial

theorem noReorg_beginTransaction : NoReorg beginTransaction := by
  intro answer _
  cases answer with
  | ok free => cases free <;> trivial
  | error f => trivial

theorem noReorg_commitTransaction : NoReorg commitTransaction := by
  intro answer _
  cases answer with
  | ok occupied => cases occupied <;> trivial
  | error f => trivial

end Neo4jWriter

namespace IngestionOrchestrator

open Neo4jWriter

variable {o : IngestionOrchestrator} {α : Type}

/-- What a fork can answer: an error that one of its tasks can fail with. -/
def ForkAnswers (E : WriterError → Prop) : (c : (Client neo4j UtxoCache WriterError).Op) →
    (Client neo4j UtxoCache WriterError).Reply c → Prop
  | .fork tasks, r =>
    (∀ t ∈ tasks, t.Yields (fun _ _ => True) E fun _ => True) → ∀ e, r = .error e → E e
  | _, _ => True

theorem forkAnswers_handle (E : WriterError → Prop) (c : (Client neo4j UtxoCache WriterError).Op)
    (w : World neo4j UtxoCache) : ForkAnswers E c (World.handle c w).1 := by
  cases c with
  | fork tasks =>
    intro each
    show ∀ e, (World.runTasks tasks w.store).1 = .error e → E e
    generalize w.store = s
    induction tasks generalizing s with
    | nil =>
      intro e failed
      cases failed
    | cons t ts ih =>
      intro e failed
      have first := ((each t List.mem_cons_self).run (h := Store.handle) (fun _ _ => trivial) s).2
      have rest := ih (fun u mem => each u (List.mem_cons_of_mem _ mem)) (t.run Store.handle s).2
      unfold World.runTasks at failed
      cases outcome : (t.run Store.handle s).1 with
      | ok u =>
        simp only [outcome] at failed
        exact rest e failed
      | error e' =>
        simp only [outcome] at failed
        cases failed
        exact first e outcome
  | session | get | set => trivial

/-- Whatever the database answers, the program fails only as `E` says. -/
abbrev FailsOnly (E : WriterError → Prop) (p : Ingest α) : Prop :=
  p.Yields (ForkAnswers E) E fun _ => True

theorem failsOnly_io {p : Io α} (none : NoReorg p) : FailsOnly NotReorg (io p) :=
  Prog.Yields.lift none

theorem failsOnly_getCache : FailsOnly NotReorg getCache := fun _ _ => trivial

theorem failsOnly_setCache (c : UtxoCache) : FailsOnly NotReorg (setCache c) := fun _ _ => trivial

theorem failsOnly_modifyCache (f : UtxoCache → UtxoCache) :
    FailsOnly NotReorg (modifyCache f) :=
  failsOnly_getCache.bind fun _ _ => failsOnly_setCache _

theorem failsOnly_prefetchUtxos (keys : List UtxoKey) :
    FailsOnly NotReorg (prefetchUtxos keys) := by
  unfold prefetchUtxos
  split
  · trivial
  refine failsOnly_getCache.bind fun c _ => ?_
  dsimp only
  refine (failsOnly_setCache _).bind fun _ _ => ?_
  split
  · trivial
  refine (failsOnly_io (noReorg_lookupOutputsBatch _)).bind fun rows _ => ?_
  exact (failsOnly_setCache _).bind fun _ _ => trivial

theorem noReorg_ifAny {rows : Bool} {p : Io Unit} (none : NoReorg p) :
    NoReorg (if rows then pure () else p) := by
  split
  · trivial
  · exact none

theorem failsOnly_spawnAll (performs : List PerformsData) (benefits : List BenefitsToData) :
    FailsOnly NotReorg (spawnAll (o.bucketTasks performs benefits)) := by
  refine Prog.Yields.perform.bind fun outcome answer => ?_
  refine .ofExcept (fun _ _ => trivial) (answer fun t mem => ?_)
  unfold bucketTasks at mem
  rw [← List.map_uncurry_zip_eq_zipWith] at mem
  obtain ⟨bucket, _, rfl⟩ := List.mem_map.mp mem
  exact (noReorg_ifAny (noReorg_executeBatched _ _ _)).bind fun _ _ =>
    noReorg_ifAny (noReorg_executeBatched _ _ _)

theorem noReorg_checkpointChunk (chunk : List LocatedBlock) : NoReorg (checkpointChunk chunk) := by
  unfold checkpointChunk
  split
  · exact noReorg_updateCheckpoint _
  · trivial

theorem failsOnly_processBatchChunk (chunk : List LocatedBlock) (found : Found) :
    FailsOnly NotReorg (o.processBatchChunk chunk found) := by
  unfold processBatchChunk
  refine (failsOnly_io (noReorg_executeBatched _ _ _)).bind fun _ _ => ?_
  dsimp only
  -- the write of the outputs fails after the cache has been filled
  refine (Prog.Yields.attempt (failsOnly_io ?_)).bind fun written failed => ?_
  · split
    · exact noReorg_writeOutputs _
    · exact noReorg_executeBatched _ _ _
  refine (failsOnly_modifyCache _).bind fun _ _ => ?_
  refine (Prog.Yields.ofExcept (fun _ _ => trivial) failed.2).bind fun _ _ => ?_
  refine failsOnly_getCache.bind fun c _ => ?_
  refine (failsOnly_setCache _).bind fun _ _ => ?_
  refine (failsOnly_io ?_).bind fun _ _ => ?_
  · split <;> exact noReorg_executeBatched _ _ _
  refine (failsOnly_io (noReorg_executeBatched _ _ _)).bind fun _ _ => ?_
  refine (failsOnly_io ?_).bind fun _ _ => ?_
  · split <;> exact noReorg_executeBatched _ _ _
  refine (failsOnly_spawnAll _ _).bind fun _ _ => ?_
  refine (failsOnly_modifyCache _).bind fun _ _ => ?_
  exact (failsOnly_io (noReorg_checkpointChunk chunk)).bind fun _ _ => trivial

theorem failsOnly_endChunk {outcome : Except WriterError (ℕ × ℕ × ℕ)}
    (other : ∀ e, outcome = .error e → NotReorg e) : FailsOnly NotReorg (endChunk outcome) := by
  cases outcome with
  | ok counts => exact (failsOnly_io noReorg_commitTransaction).bind fun _ _ => trivial
  | error e => exact (Prog.yields_attempt _).bind fun _ _ => other e rfl

/-- If the error is a reorganization, it is one of these blocks that is not linked. -/
def ReorgAmong (blocks : List LocatedBlock) : WriterError → Prop
  | .ReorgDetected height expected _ => ∃ b ∈ blocks,
      b.height = height ∧ b.block.header.prevBlockhash = expected ∧ 0 < height
  | _ => True

theorem ReorgAmong.mono {blocks blocks' : List LocatedBlock} {e : WriterError}
    (among : ReorgAmong blocks e) (sub : ∀ b ∈ blocks, b ∈ blocks') : ReorgAmong blocks' e := by
  cases e with
  | ReorgDetected =>
    obtain ⟨b, mem, found⟩ := among
    exact ⟨b, sub b mem, found⟩
  | _ => trivial

theorem reorgAmong_of_notReorg {chunk : List LocatedBlock} {e : WriterError}
    (other : NotReorg e) : ReorgAmong chunk e := by
  cases e with
  | ReorgDetected => exact other.elim
  | _ => trivial

theorem validateFirst_reorg (chunk : List LocatedBlock) :
    (o.validateFirst chunk).Yields (fun _ _ => True) (ReorgAmong chunk) fun _ => True := by
  unfold validateFirst
  split
  · rename_i first isFirst
    unfold validateParentHash
    split
    · trivial
    · rename_i above
      refine ((noReorg_lookupBlockHash _).monoError fun _ => reorgAmong_of_notReorg).bind
        fun stored _ => ?_
      cases stored with
      | none => trivial
      | some hash =>
        dsimp only
        split
        · trivial
        · exact ⟨first, List.mem_of_head? isFirst, rfl, rfl, Nat.pos_of_ne_zero above⟩
  · trivial

/-- What follows the validation fails with no reorganization. -/
theorem failsOnly_afterValidation (chunk : List LocatedBlock) : FailsOnly NotReorg (do
    let prefetchedUtxos ← prefetchUtxos (collectInputKeys chunk)
    io beginTransaction
    let chunkResult ← (o.processBatchChunk chunk prefetchedUtxos).attempt
    endChunk chunkResult) := by
  refine (failsOnly_prefetchUtxos _).bind fun found _ => ?_
  refine (failsOnly_io noReorg_beginTransaction).bind fun _ _ => ?_
  refine (Prog.Yields.attempt (failsOnly_processBatchChunk chunk found)).bind
    fun outcome failed => failsOnly_endChunk failed.2

/-- Whatever the database answers, a reorganization that a chunk reports is at one of its blocks. -/
theorem failsOnly_ingestChunk (chunk : List LocatedBlock) :
    (o.ingestChunk chunk).Yields (ForkAnswers NotReorg) (ReorgAmong chunk) fun _ => True := by
  unfold ingestChunk
  refine (Prog.Yields.lift (validateFirst_reorg chunk)).bind fun _ _ => ?_
  exact (failsOnly_afterValidation chunk).monoError fun _ => reorgAmong_of_notReorg

theorem reorgAmong_ingestChunk {chunk : List LocatedBlock} {w : World neo4j UtxoCache}
    {e : WriterError} (failed : ((o.ingestChunk chunk).run World.handle w).1 = .error e) :
    ReorgAmong chunk e :=
  ((failsOnly_ingestChunk chunk).run (forkAnswers_handle NotReorg) w).2 e failed

/-- A chunk that reports a reorganization has an unlinked first block and has done nothing. -/
theorem unlinked_of_reorg {chunk : List LocatedBlock} {w : World neo4j UtxoCache} {height : ℕ}
    {expected actual : BlockHash}
    (failed : ((o.ingestChunk chunk).run World.handle w).1 =
      .error (.ReorgDetected height expected actual)) :
    (∃ first, chunk.head? = some first ∧ first.height = height ∧
      first.block.header.prevBlockhash = expected ∧
      w.store.committed.lookupBlockHash (height - 1) = some actual ∧ actual ≠ expected) ∧
      ((o.ingestChunk chunk).run World.handle w).2 = w := by
  obtain ⟨store, c⟩ := w
  by_cases parent : FirstParentOk store.committed chunk
  · have validated : (io (o.validateFirst chunk)).run World.handle ⟨store, c⟩ =
        (.ok (), ⟨store, c⟩) := run_io_eq (run_validateFirst parent)
    have after := ((failsOnly_afterValidation (o := o) chunk).run (forkAnswers_handle NotReorg)
      ⟨store, c⟩).2
    unfold ingestChunk at failed
    rw [Prog.run_bind_ok validated] at failed
    exact (after _ failed).elim
  · obtain ⟨first, actual', head, stored, ran⟩ := run_ingestChunk_orphan (o := o) (c := c) parent
    have other : ∀ hash, hash = actual' → hash ≠ first.block.header.prevBlockhash := by
      intro hash same linked
      refine parent fun first' head' => Or.inr fun hash' stored' => ?_
      cases head.symm.trans head'
      cases stored.symm.trans stored'
      exact same.symm.trans linked
    rw [ran] at failed ⊢
    cases failed
    exact ⟨⟨first, head, rfl, rfl, stored, other _ rfl⟩, rfl⟩

end IngestionOrchestrator

end ChainGraph

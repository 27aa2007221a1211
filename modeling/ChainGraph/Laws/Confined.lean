import ChainGraph.Foundation.Orderly
import ChainGraph.Laws.Recovery
import ChainGraph.Laws.Chunk

/-!
# Chunks and their transactions

The writer methods of a chunk are confined: in a transaction they send their statements there, and
an error is passed on. So a chunk is orderly, except where one with a duplicated coinbase writes its
outputs beside the transaction.
-/

namespace ChainGraph

open Foundation

namespace Neo4jWriter

variable {w : Neo4jWriter} {q : Query} {name : String}

/-! ## Reads -/

theorem confined_readGraph {failed : DbFault → WriterError} : Confined (readGraph failed) :=
  .read (fun _ _ => rfl) fun f => ⟨failed f, rfl⟩

theorem confined_lookupBlockHash (height : ℕ) : Confined (w.lookupBlockHash height) :=
  confined_readGraph.bind fun _ => .pure _

theorem confined_lookupOutputsBatch (ids : List OutputId) : Confined (lookupOutputsBatch ids) := by
  unfold lookupOutputsBatch
  split
  · exact .pure _
  · exact confined_readGraph.bind fun _ => .pure _

/-- The program makes no other calls than reads. -/
abbrev Reads {α : Type} (p : Io α) : Prop := p.Always fun o : Session.Op neo4j => o = .read

theorem reads_readGraph {failed : DbFault → WriterError} : Reads (readGraph failed) := by
  refine ⟨rfl, fun answer => ?_⟩
  cases answer <;> trivial

theorem reads_lookupBlockHash (height : ℕ) : Reads (w.lookupBlockHash height) :=
  reads_readGraph.bind fun _ => trivial

theorem reads_lookupOutputsBatch (ids : List OutputId) : Reads (lookupOutputsBatch ids) := by
  unfold lookupOutputsBatch
  split
  · trivial
  · exact reads_readGraph.bind fun _ => trivial

/-! ## Writer methods in a transaction -/

theorem confined_runInTxn {batchNum totalBatches : ℕ} :
    Confined (runInTxn name q batchNum totalBatches) :=
  .txnRun (fun _ => rfl) fun _ => ⟨_, rfl⟩

theorem confined_eachBatch {α : Type} {body : ℕ → List α → Io Unit}
    (each : ∀ i c, Confined (body i c)) (i : ℕ) (cs : List (List α)) :
    Confined (eachBatch body i cs) := by
  induction cs generalizing i with
  | nil => exact .pure _
  | cons c cs ih => exact (each i c).bind fun _ => ih (i + 1)

theorem confined_executeBatched {α : Type} {items : List α} {query : List α → Query} :
    Confined (w.executeBatched items query name) := by
  unfold executeBatched
  split
  · exact .pure _
  · exact .inTxn (confined_eachBatch (fun _ _ => confined_runInTxn) 1 _)

theorem confined_updateCheckpoint {checkpoint : CheckpointData} :
    Confined (updateCheckpoint checkpoint) :=
  .txnRun (fun _ => rfl) fun _ => ⟨_, rfl⟩

end Neo4jWriter

namespace IngestionOrchestrator

/-- The chunk has a height at which outputs are written directly, and outputs to write. -/
def WritesBeside (o : IngestionOrchestrator) (chunk : List LocatedBlock) : Prop :=
  (∃ b ∈ chunk, b.height ∈ bip30DuplicateHeights) ∧ o.outputRows chunk ≠ []

open Neo4jWriter

variable {o : IngestionOrchestrator} {chunk : List LocatedBlock} {once : Bool}

/-- The program is orderly from a stage, and leaves what holds at its end. -/
abbrev Orderly (once : Bool) {α : Type} (p : Ingest α) (s : Stage)
    (post : Except WriterError α → Stage → Prop) : Prop :=
  p.Holds (Client.orderly once neo4j UtxoCache WriterError) post s

/-- A transaction is open, and nothing has failed if the program succeeded. -/
def Processed {α : Type} (r : Except WriterError α) (s : Stage) : Prop :=
  s.opened = true ∧ (r.isOk → s.failed = false)

theorem Processed.stage {α : Type} {a : α} {s : Stage}
    (processed : Processed (.ok a : Except WriterError α) s) : s = ⟨true, false⟩ := by
  obtain ⟨opened, failed⟩ := s
  obtain ⟨rfl, ok⟩ := processed
  exact congrArg (Stage.mk true) (ok rfl)

theorem Processed.error {α β : Type} {e : WriterError} {s : Stage}
    (processed : Processed (.error e : Except WriterError α) s) :
    Processed (.error e : Except WriterError β) s :=
  ⟨processed.1, fun isOk => by cases isOk⟩

/-- A writer method in the transaction, and the rest. -/
theorem orderly_io_bind {α β : Type} {p : Io α} {f : α → Ingest β} (confined : Confined p)
    (rest : ∀ a, Orderly once (f a) ⟨true, false⟩ Processed) :
    Orderly once (io p >>= f) ⟨true, false⟩ Processed := by
  refine confined.lift.bind (fun a s processed => ?_) fun e s processed => ?_
  · rw [Processed.stage processed]
    exact rest a
  · exact Processed.error processed

/-- A writer method beside which the cache is changed. -/
theorem orderly_attempt_bind {β : Type} {p : Io Unit} {g : UtxoCache → UtxoCache}
    {f : Unit → Ingest β} (confined : Confined p)
    (rest : Orderly once (f ()) ⟨true, false⟩ Processed) :
    Orderly once ((io p).attempt >>= fun r => modifyCache g >>= fun _ => Prog.ofExcept r >>= f)
      ⟨true, false⟩ Processed := by
  have tried : Orderly once (io p).attempt ⟨true, false⟩ fun r s =>
      ∃ result, r = .ok result ∧ Processed result s :=
    Prog.Holds.attempt (confined.lift.mono fun r s processed => ⟨r, rfl, processed⟩)
  refine tried.bind (fun r s ended => ?_) fun e s ⟨_, impossible, _⟩ => by cases impossible
  obtain ⟨_, same, processed⟩ := ended
  cases same
  refine ⟨trivial, fun c s' same => ⟨trivial, fun _ s'' same' => ?_⟩⟩
  cases same
  cases same'
  cases r with
  | ok u =>
    rw [Processed.stage processed]
    exact rest
  | error e => exact Processed.error processed

theorem orderly_setCache_bind {β : Type} {c : UtxoCache} {f : Unit → Ingest β} {s : Stage}
    {post : Except WriterError β → Stage → Prop} (rest : Orderly once (f ()) s post) :
    Orderly once (setCache c >>= f) s post := by
  refine ⟨trivial, fun _ s' same => ?_⟩
  cases same
  exact rest

theorem orderly_getCache_bind {β : Type} {f : UtxoCache → Ingest β} {s : Stage}
    {post : Except WriterError β → Stage → Prop} (rest : ∀ c, Orderly once (f c) s post) :
    Orderly once (getCache >>= f) s post := by
  refine ⟨trivial, fun c s' same => ?_⟩
  cases same
  exact rest c

theorem orderly_modifyCache_bind {β : Type} {g : UtxoCache → UtxoCache} {f : Unit → Ingest β}
    {s : Stage} {post : Except WriterError β → Stage → Prop}
    (rest : Orderly once (f ()) s post) : Orderly once (modifyCache g >>= f) s post := by
  unfold modifyCache
  rw [Prog.bind_assoc]
  exact orderly_getCache_bind fun c => orderly_setCache_bind rest

/-! ## A chunk -/

theorem confined_writePerformsIfAny (performs : List PerformsData) :
    Confined (o.writePerformsIfAny performs) := by
  unfold writePerformsIfAny
  split
  · exact .pure _
  · exact confined_executeBatched

theorem confined_writeBenefitsToIfAny (benefits : List BenefitsToData) :
    Confined (o.writeBenefitsToIfAny benefits) := by
  unfold writeBenefitsToIfAny
  split
  · exact .pure _
  · exact confined_executeBatched

theorem confined_bucketTasks (performs : List PerformsData) (benefits : List BenefitsToData) :
    ∀ t ∈ o.bucketTasks performs benefits, Confined t := by
  intro t mem
  unfold bucketTasks at mem
  obtain ⟨i, hi, rfl⟩ := List.mem_iff_getElem.mp mem
  rw [List.getElem_zipWith]
  exact (confined_writePerformsIfAny _).bind fun _ => confined_writeBenefitsToIfAny _

theorem orderly_spawnAll_bind {β : Type} {tasks : List (Io Unit)} {f : Unit → Ingest β}
    (confined : ∀ t ∈ tasks, Confined t) (rest : Orderly once (f ()) ⟨true, false⟩ Processed) :
    Orderly once (spawnAll tasks >>= f) ⟨true, false⟩ Processed := by
  refine ⟨⟨rfl, confined⟩, fun answer s' stage => ?_⟩
  subst stage
  cases answer with
  | ok u => exact rest
  | error e => exact ⟨rfl, fun isOk => by cases isOk⟩

theorem confined_checkpointChunk (chunk : List LocatedBlock) :
    Confined (checkpointChunk chunk) := by
  unfold checkpointChunk
  split
  · exact confined_updateCheckpoint
  · exact .pure _

/-- The outputs of a chunk are written in its transaction, unless they are written beside it. -/
theorem confined_outputs (inside : ¬ o.WritesBeside chunk) :
    Confined (if chunk.any fun b => bip30DuplicateHeights.contains b.height then
      o.writer.writeOutputs (o.outputRows chunk)
    else o.writer.writeOutputsFast (o.outputRows chunk)) := by
  split
  · rename_i special
    obtain ⟨b, mem, height⟩ := List.any_eq_true.mp special
    have none : o.outputRows chunk = [] := by
      by_contra some
      exact inside ⟨⟨b, mem, List.contains_iff_mem.mp height⟩, some⟩
    rw [none]
    exact Confined.pure _
  · exact confined_executeBatched

theorem orderly_processBatchChunk (inside : ¬ o.WritesBeside chunk) (found : Found) :
    Orderly once (o.processBatchChunk chunk found) ⟨true, false⟩ Processed := by
  unfold processBatchChunk
  refine orderly_io_bind confined_executeBatched fun _ => ?_
  refine orderly_attempt_bind (confined_outputs inside) ?_
  refine orderly_getCache_bind fun cache => orderly_setCache_bind ?_
  refine orderly_io_bind ?_ fun _ => ?_
  · split <;> exact confined_executeBatched
  refine orderly_io_bind confined_executeBatched fun _ => ?_
  refine orderly_io_bind ?_ fun _ => ?_
  · split <;> exact confined_executeBatched
  refine orderly_spawnAll_bind (confined_bucketTasks _ _) ?_
  refine orderly_modifyCache_bind ?_
  refine orderly_io_bind (confined_checkpointChunk chunk) fun _ => ?_
  exact ⟨rfl, fun _ => rfl⟩

theorem confined_validateFirst (chunk : List LocatedBlock) : Confined (o.validateFirst chunk) := by
  unfold validateFirst validateParentHash
  split
  · split
    · exact .pure _
    · refine (confined_lookupBlockHash _).bind fun found => ?_
      cases found with
      | none => exact .pure _
      | some hash =>
        dsimp only
        split
        · exact .pure _
        · exact .throw _
  · exact .pure _

theorem reads_validateFirst (chunk : List LocatedBlock) : Reads (o.validateFirst chunk) := by
  unfold validateFirst validateParentHash
  split
  · split
    · trivial
    · refine (reads_lookupBlockHash _).bind fun found => ?_
      cases found with
      | none => trivial
      | some hash =>
        dsimp only
        split <;> trivial
  · trivial

/-- A program that settles, and the rest. -/
theorem orderly_settled_bind {α β : Type} {p : Ingest α} {f : α → Ingest β}
    (first : Orderly once p .idle (Settled once))
    (rest : ∀ a, Orderly once (f a) .idle (Settled once)) :
    Orderly once (p >>= f) .idle (Settled once) := by
  refine first.bind (fun a s settled => ?_) fun e s settled => settled.error
  rw [settled.stage]
  exact rest a

theorem orderly_prefetchUtxos (keys : List UtxoKey) :
    Orderly once (prefetchUtxos keys) .idle (Settled once) := by
  unfold prefetchUtxos
  split
  · exact .idle _
  · refine orderly_getCache_bind fun cache => ?_
    dsimp only
    refine orderly_setCache_bind ?_
    split
    · exact .idle _
    · refine orderly_settled_bind
        ((confined_lookupOutputsBatch _).lift_reads (reads_lookupOutputsBatch _)) fun rows => ?_
      exact orderly_setCache_bind (.idle _)

theorem orderly_beginTransaction : Orderly once (io beginTransaction) .idle fun r s =>
    (r.isOk → s = ⟨true, false⟩) ∧ (¬ r.isOk → Settled once r s) := by
  refine ⟨rfl, fun answer s' ⟨_, stage⟩ => ?_⟩
  subst stage
  cases answer with
  | ok b =>
    cases b with
    | true => exact ⟨fun _ => rfl, fun failed => absurd rfl failed⟩
    | false => exact ⟨fun isOk => (by cases isOk), fun _ => .idle _⟩
  | error e =>
    refine ⟨fun isOk => (by cases isOk), fun _ => ⟨rfl, fun isOk => (by cases isOk), ?_⟩⟩
    intro failed
    cases once with
    | true => rfl
    | false => cases failed

theorem orderly_commitTransaction :
    Orderly once (io commitTransaction) ⟨true, false⟩ (Settled once) := by
  refine ⟨rfl, fun answer s' ⟨_, stage⟩ => ?_⟩
  subst stage
  cases answer with
  | ok b => cases b <;> exact .idle _
  | error e =>
    refine ⟨rfl, fun isOk => (by cases isOk), fun failed => ?_⟩
    cases once with
    | true => rfl
    | false => cases failed

theorem orderly_rollbackTransaction (s : Stage) : Orderly once (io rollbackTransaction) s
    fun _ s => s.opened = false ∧ (s.failed = true → once = true) := by
  obtain ⟨opened, failed⟩ := s
  refine ⟨trivial, fun answer s' ⟨_, stage⟩ => ?_⟩
  subst stage
  cases answer with
  | ok b => cases b <;> exact ⟨rfl, fun both => (Bool.and_eq_true_iff.mp both).2⟩
  | error e =>
    refine ⟨rfl, fun either => ?_⟩
    cases once with
    | true => rfl
    | false => cases failed <;> cases either

theorem orderly_endChunk {r : Except WriterError (ℕ × ℕ × ℕ)} {s : Stage}
    (processed : Processed r s) : Orderly once (endChunk r) s (Settled once) := by
  cases r with
  | ok counts =>
    rw [Processed.stage processed]
    refine orderly_commitTransaction.bind (fun _ s settled => ?_)
      fun e s settled => settled.error
    rw [settled.stage]
    exact .idle _
  | error e =>
    have tried : Orderly once (io rollbackTransaction).attempt s
        fun _ s => s.opened = false ∧ (s.failed = true → once = true) :=
      Prog.Holds.attempt (orderly_rollbackTransaction s)
    exact tried.bind (fun _ s ⟨closed, failed⟩ => ⟨closed, fun isOk => (by cases isOk), failed⟩)
      fun _ s ⟨closed, failed⟩ => ⟨closed, fun isOk => (by cases isOk), failed⟩

/-- A chunk up to the end of its transaction. -/
def untilEnd (o : IngestionOrchestrator) (chunk : List LocatedBlock) :
    Ingest (Except WriterError (ℕ × ℕ × ℕ)) := do
  io (o.validateFirst chunk)
  let prefetchedUtxos ← prefetchUtxos (collectInputKeys chunk)
  io beginTransaction
  (o.processBatchChunk chunk prefetchedUtxos).attempt

theorem ingestChunk_eq (chunk : List LocatedBlock) :
    o.ingestChunk chunk = o.untilEnd chunk >>= endChunk := by
  unfold ingestChunk untilEnd
  simp only [Prog.bind_assoc]

/-- Before its end a chunk has been processed, or it has failed without a transaction. -/
structure AtEnd (once : Bool) (r : Except WriterError (Except WriterError (ℕ × ℕ × ℕ)))
    (s : Stage) : Prop where
  processed : ∀ result, r = .ok result → Processed result s
  settled : ∀ e, r = .error e → Settled once r s

theorem AtEnd.of_settled {α : Type} {e : WriterError} {s : Stage}
    (settled : Settled once (.error e : Except WriterError α) s) : AtEnd once (.error e) s :=
  ⟨fun _ impossible => (by cases impossible), fun _ _ => settled.error⟩

theorem orderly_untilEnd (inside : ¬ o.WritesBeside chunk) :
    Orderly once (o.untilEnd chunk) .idle (AtEnd once) := by
  unfold untilEnd
  refine ((confined_validateFirst chunk).lift_reads (reads_validateFirst chunk)).bind
    (fun _ s settled => ?_) fun _ _ settled => .of_settled settled
  rw [settled.stage]
  refine (orderly_prefetchUtxos _).bind (fun found s settled => ?_)
    fun _ _ settled => .of_settled settled
  rw [settled.stage]
  refine orderly_beginTransaction.bind (fun _ s begun => ?_) fun e s failed =>
    .of_settled (failed.2 fun isOk => by cases isOk)
  rw [begun.1 rfl]
  refine Prog.Holds.attempt ((orderly_processBatchChunk inside found).mono fun r s processed => ?_)
  refine ⟨fun result same => ?_, fun _ impossible => by cases impossible⟩
  cases same
  exact processed

/-- **A chunk** is orderly, and leaves nothing open. -/
theorem orderly_ingestChunk (inside : ¬ o.WritesBeside chunk) :
    Orderly once (o.ingestChunk chunk) .idle (Settled once) := by
  rw [ingestChunk_eq]
  exact (orderly_untilEnd inside).bind
    (fun result s ended => orderly_endChunk (ended.processed result rfl))
    fun e s ended => (ended.settled e rfl).error

theorem orderly_ingestChunks {chunks : List (List LocatedBlock)}
    (inside : ∀ chunk ∈ chunks, ¬ o.WritesBeside chunk) (stats : BatchStats) :
    Orderly once (o.ingestChunks stats chunks) .idle (Settled once) := by
  induction chunks generalizing stats with
  | nil => exact .idle _
  | cons chunk rest ih =>
    refine orderly_settled_bind (orderly_ingestChunk (inside chunk List.mem_cons_self))
      fun counts => ?_
    exact ih (fun chunk mem => inside chunk (List.mem_cons_of_mem _ mem)) _

end IngestionOrchestrator

end ChainGraph

import ChainGraph.Foundation.Serial
import ChainGraph.Laws.Buckets
import ChainGraph.Laws.Escape
import ChainGraph.Laws.Live
import ChainGraph.Laws.Pending

/-!
# Chunks are atomic

The statements of two bucket tasks are on different addresses, so they commute, and a chunk leaves
the same graph in whatever order its tasks run. What any run of batches has committed, with failures
and crashes anywhere, is then what a prefix of their chunks leaves without them, and the checkpoint
is at the last block of that prefix. Not so where a chunk writes its outputs beside its transaction:
they stay when something fails after them.
-/

namespace ChainGraph

open Foundation Foundation.Store

/-! ## Statements on different addresses -/

namespace Graph

theorem mergePerforms_comm {p q : PerformsData} (other : p.fromAddress ≠ q.fromAddress)
    (g : Graph) : (g.mergePerforms p).mergePerforms q = (g.mergePerforms q).mergePerforms p := by
  have ends : Performs.ends p ≠ Performs.ends q := fun same => other (congrArg Prod.fst same)
  unfold mergePerforms
  ext1 <;> try rfl
  · exact Finset.insert_comm ..
  · dsimp only
    split <;> split <;> first | rfl | exact Table.upsert_comm ends _

theorem mergeBenefitsTo_comm {b d : BenefitsToData} (other : b.toAddress ≠ d.toAddress)
    (g : Graph) :
    (g.mergeBenefitsTo b).mergeBenefitsTo d = (g.mergeBenefitsTo d).mergeBenefitsTo b := by
  have ends : BenefitsTo.ends b ≠ BenefitsTo.ends d := fun same => other (congrArg Prod.snd same)
  unfold mergeBenefitsTo
  by_cases hb : g.transactions.Has b.fromTxid <;> by_cases hd : g.transactions.Has d.fromTxid <;>
    simp only [hb, hd, if_true, if_false]
  ext1 <;> try rfl
  · exact Finset.insert_comm ..
  · exact Table.upsert_comm ends _

theorem mergeBenefitsTo_mergePerforms (b : BenefitsToData) (p : PerformsData) (g : Graph) :
    (g.mergePerforms p).mergeBenefitsTo b = (g.mergeBenefitsTo b).mergePerforms p := by
  unfold mergeBenefitsTo mergePerforms
  by_cases hb : g.transactions.Has b.fromTxid <;> simp only [hb, if_true, if_false]
  ext1 <;> try rfl
  exact Finset.insert_comm ..

end Graph

namespace IngestionOrchestrator

open Neo4jWriter

variable {o : IngestionOrchestrator}

/-- Statements of the simplified layer on different addresses commute. -/
theorem LocksOnly.commute {L M : Address → Prop} {q r : Query} (first : LocksOnly L q)
    (second : LocksOnly M r) (apart : ∀ a, ¬ (L a ∧ M a)) : Swaps (E := neo4j) q r := by
  have other : ∀ {a b : Address}, L a → M b → a ≠ b := fun la mb same => apart _ ⟨la, same ▸ mb⟩
  intro g
  cases q with
  | createPerformsBulk ps =>
    cases r with
    | createPerformsBulk ps' =>
      refine congrArg Except.ok (foldl_foldl_comm (fun p mem p' mem' g => ?_) g)
      exact Graph.mergePerforms_comm (other (first p mem) (second p' mem')) g
    | createBenefitsToBulk bs =>
      refine congrArg Except.ok (foldl_foldl_comm (fun p _ b _ g => ?_) g)
      exact Graph.mergeBenefitsTo_mergePerforms b p g
    | _ => exact second.elim
  | createBenefitsToBulk bs =>
    cases r with
    | createPerformsBulk ps =>
      refine congrArg Except.ok (foldl_foldl_comm (fun b _ p _ g => ?_) g)
      exact (Graph.mergeBenefitsTo_mergePerforms b p g).symm
    | createBenefitsToBulk bs' =>
      refine congrArg Except.ok (foldl_foldl_comm (fun b mem b' mem' g => ?_) g)
      exact Graph.mergeBenefitsTo_comm (other (first b mem) (second b' mem')) g
    | _ => exact second.elim
  | _ => exact first.elim

/-! ## The queues of the bucket tasks -/

theorem queue_eachBatch {α : Type} {body : ℕ → List α → Io Unit} {query : List α → Query}
    (each : ∀ i c, Queue (body i c) [query c]) (i : ℕ) (cs : List (List α)) :
    Queue (eachBatch body i cs) (cs.flatMap fun c => [query c]) := by
  induction cs generalizing i with
  | nil => exact .done
  | cons c cs ih => exact (each i c).seq (ih (i + 1))

theorem queue_executeBatched {w : Neo4jWriter} {α : Type} {items : List α}
    {query : List α → Query} {name : String} :
    Queue (w.executeBatched items query name) (w.batchQueries query items) := by
  unfold executeBatched
  split
  · rename_i empty
    rw [List.isEmpty_iff.mp empty]
    exact .done
  · have each : ∀ i c, Queue (runInTxn name (query c) i (chunks w.batchSize items).length)
        [query c] := fun _ _ => .txnRun .done fun _ => ⟨_, rfl⟩
    exact .inTxn (queue_eachBatch each 1 _)

theorem queue_bucketTask (performs : List PerformsData) (benefits : List BenefitsToData) :
    Queue (o.bucketTask performs benefits) (o.bucketTaskQueries performs benefits) := by
  have first : Queue (o.writePerformsIfAny performs)
      (o.writer.batchQueries .createPerformsBulk performs) := by
    unfold writePerformsIfAny
    split
    · rename_i empty
      rw [List.isEmpty_iff.mp empty]
      exact .done
    · exact queue_executeBatched
  have second : Queue (o.writeBenefitsToIfAny benefits)
      (o.writer.batchQueries .createBenefitsToBulk benefits) := by
    unfold writeBenefitsToIfAny
    split
    · rename_i empty
      rw [List.isEmpty_iff.mp empty]
      exact .done
    · exact queue_executeBatched
  exact first.seq second

theorem queue_bucketTasks (performs : List PerformsData) (benefits : List BenefitsToData) :
    List.Forall₂ Queue (o.bucketTasks performs benefits) (o.bucketQueries performs benefits) := by
  unfold bucketTasks bucketQueries
  generalize partitionPerformsByAddress o.stringHash performs numBuckets = ps
  generalize partitionBenefitsByAddress o.stringHash benefits numBuckets = bs
  induction ps generalizing bs with
  | nil => exact .nil
  | cons p ps ih =>
    cases bs with
    | nil => exact .nil
    | cons b bs => exact .cons (queue_bucketTask p b) (ih bs)

/-- The statements of bucket `i` are on addresses with the index `i`. -/
theorem locks_bucketQueries {performs : List PerformsData} {benefits : List BenefitsToData} {i : ℕ}
    (inside : i < (o.bucketQueries performs benefits).length) {q : Query}
    (mem : q ∈ (o.bucketQueries performs benefits)[i]) :
    LocksOnly (fun a => bucketIndex o.stringHash numBuckets a = i) q := by
  obtain ⟨length, queues⟩ := List.forall₂_iff_get.mp (o.queue_bucketTasks performs benefits)
  have queue := queues i (length ▸ inside) inside
  have placed := List.getElem?_eq_getElem (length ▸ inside)
  exact queue.sends (o.sends_bucketTasks placed) q mem

/-- **The bucket tasks** of a chunk may run in any order. -/
theorem serial_bucketTasks (performs : List PerformsData) (benefits : List BenefitsToData) :
    Serial (E := neo4j) (o.bucketTasks performs benefits) := by
  refine ⟨_, o.queue_bucketTasks performs benefits, ?_, fun g => ⟨_, o.execAll_bucketQueries ..⟩⟩
  rw [List.pairwise_iff_getElem]
  intro i j atI atJ lt q memQ r memR
  refine (locks_bucketQueries atI memQ).commute (locks_bucketQueries atJ memR) ?_
  rintro a ⟨here, there⟩
  exact Nat.ne_of_lt lt (here.symm.trans there)

/-! ## A chunk without failures -/

/-- The call commits nothing, and forks only tasks that may run in any order. -/
def Uncommitted (call : Client.Op neo4j UtxoCache WriterError) : Prop :=
  call.Serial ∧ call ≠ .session .commit

theorem never_commits {α : Type} {p : Ingest α} (uncommitted : p.Always Uncommitted) :
    p.Always fun call : Client.Op neo4j UtxoCache WriterError => call ≠ .session .commit :=
  Prog.Always.mono (fun _ both => both.2) uncommitted

theorem uncommitted_of_plain {α : Type} {p : Ingest α} (plain : p.Always Client.Op.Plain) :
    p.Always Uncommitted := by
  refine Prog.Always.mono (fun call plain => ?_) plain
  cases call with
  | session call =>
    refine ⟨trivial, fun same => ?_⟩
    cases same
    exact plain
  | fork tasks => exact plain.elim
  | get => exact ⟨trivial, fun same => by cases same⟩
  | set c => exact ⟨trivial, fun same => by cases same⟩

theorem uncommitted_io {α : Type} {p : Io α} (sends : OnlySends (fun _ => True) p) :
    (io p).Always Uncommitted :=
  uncommitted_of_plain (plain_io sends)

theorem uncommitted_setCache (c : UtxoCache) : (setCache c).Always Uncommitted :=
  uncommitted_of_plain ⟨trivial, fun _ => trivial⟩

theorem uncommitted_getCache : getCache.Always Uncommitted :=
  uncommitted_of_plain ⟨trivial, fun _ => trivial⟩

theorem uncommitted_modifyCache (f : UtxoCache → UtxoCache) : (modifyCache f).Always Uncommitted :=
  uncommitted_of_plain (plain_modifyCache f)

theorem uncommitted_executeBatched {w : Neo4jWriter} {α : Type} {items : List α}
    {query : List α → Query} {name : String} :
    (io (w.executeBatched items query name)).Always Uncommitted :=
  uncommitted_io (sends_executeBatched fun _ _ => trivial)

theorem uncommitted_spawnAll (performs : List PerformsData) (benefits : List BenefitsToData) :
    (spawnAll (o.bucketTasks performs benefits)).Always Uncommitted :=
  ⟨⟨o.serial_bucketTasks performs benefits, fun same => by cases same⟩,
    fun answer => Prog.always_ofExcept answer⟩

theorem uncommitted_checkpointChunk (chunk : List LocatedBlock) :
    (io (checkpointChunk chunk)).Always Uncommitted := by
  refine uncommitted_io ?_
  unfold checkpointChunk
  split
  · exact sends_updateCheckpoint trivial
  · trivial

theorem uncommitted_processBatchChunk (chunk : List LocatedBlock) (found : Found) :
    (o.processBatchChunk chunk found).Always Uncommitted := by
  unfold processBatchChunk
  refine uncommitted_executeBatched.bind fun _ => ?_
  refine (Prog.Always.attempt ?_).bind fun written => ?_
  · split
    · exact uncommitted_of_plain (plain_writeOutputs _)
    · exact uncommitted_executeBatched
  refine (uncommitted_modifyCache _).bind fun _ => ?_
  refine (Prog.always_ofExcept written).bind fun _ => ?_
  refine uncommitted_getCache.bind fun cache => ?_
  refine (uncommitted_setCache _).bind fun _ => ?_
  refine Prog.Always.bind ?_ fun _ => ?_
  · split <;> exact uncommitted_executeBatched
  refine uncommitted_executeBatched.bind fun _ => ?_
  refine Prog.Always.bind ?_ fun _ => ?_
  · split <;> exact uncommitted_executeBatched
  refine (uncommitted_spawnAll _ _).bind fun _ => ?_
  refine (uncommitted_modifyCache _).bind fun _ => ?_
  exact (uncommitted_checkpointChunk chunk).bind fun _ => trivial

theorem uncommitted_prefetchUtxos (keys : List UtxoKey) :
    (prefetchUtxos keys).Always Uncommitted := by
  unfold prefetchUtxos
  split
  · trivial
  · refine uncommitted_getCache.bind fun cache => ?_
    dsimp only
    refine (uncommitted_setCache _).bind fun _ => ?_
    split
    · trivial
    · refine (uncommitted_io (sends_lookupOutputsBatch _)).bind fun rows => ?_
      exact (uncommitted_setCache _).bind fun _ => trivial

/-- Up to its end a chunk commits nothing. -/
theorem uncommitted_untilEnd (chunk : List LocatedBlock) :
    (o.untilEnd chunk).Always Uncommitted := by
  have begins : (io beginTransaction).Always Uncommitted := by
    refine ⟨⟨trivial, fun same => by cases same⟩, fun answer => ?_⟩
    cases answer with
    | ok b => cases b <;> trivial
    | error e => trivial
  unfold untilEnd
  refine (uncommitted_io (sends_validateFirst chunk)).bind fun _ => ?_
  refine (uncommitted_prefetchUtxos _).bind fun found => ?_
  refine begins.bind fun _ => ?_
  exact Prog.Always.attempt (uncommitted_processBatchChunk chunk found)

theorem uncommitted_endChunk (e : WriterError) :
    (endChunk (.error e)).Always Uncommitted := by
  have rolls : (io rollbackTransaction).Always Uncommitted := by
    refine ⟨⟨trivial, fun same => by cases same⟩, fun answer => ?_⟩
    cases answer with
    | ok b => cases b <;> trivial
    | error e => trivial
  exact (Prog.Always.attempt rolls).bind fun _ => trivial

theorem serial_ingestChunk (chunk : List LocatedBlock) :
    (o.ingestChunk chunk).Always Client.Op.Serial := by
  rw [ingestChunk_eq]
  have first := Prog.Always.mono (fun _ both => both.1) (o.uncommitted_untilEnd chunk)
  refine first.bind fun result => ?_
  cases result with
  | ok counts =>
    refine ⟨trivial, fun answer => ?_⟩
    cases answer with
    | ok b => cases b <;> trivial
    | error e => trivial
  | error e => exact Prog.Always.mono (fun _ both => both.1) (uncommitted_endChunk e)

theorem serial_ingestChunks (stats : BatchStats) (chunks : List (List LocatedBlock)) :
    (o.ingestChunks stats chunks).Always Client.Op.Serial := by
  induction chunks generalizing stats with
  | nil => trivial
  | cons chunk rest ih => exact (serial_ingestChunk chunk).bind fun _ => ih _

variable {w₀ w w' : World neo4j UtxoCache}

/-- A chunk commits once, and then it has succeeded. -/
theorem keeps_ingestChunk {chunk : List LocatedBlock} (inside : ¬ o.WritesBeside chunk)
    (free : w.store.active = none) :
    (o.ingestChunk chunk).Keeps World.handle (fun _ _ => True)
      (fun now => now.store.committed = w.store.committed ∨
        ∃ counts after, (o.ingestChunk chunk).run World.handle w = (.ok counts, after) ∧
          now.store.committed = after.store.committed)
      (fun _ _ => True) w := by
  have idle : Orderly true (o.untilEnd chunk) ⟨w.store.active.isSome, false⟩ (AtEnd true) := by
    rw [free]
    exact orderly_untilEnd inside
  have first : (o.untilEnd chunk).Keeps World.handle (fun _ _ => True)
      (fun now => now.store.committed = w.store.committed)
      (fun result w₁ => w₁.store.committed = w.store.committed ∧
        (∃ failed, Processed result ⟨w₁.store.active.isSome, failed⟩) ∧
        (o.untilEnd chunk).run World.handle w = (.ok result, w₁)) w :=
    (Client.keeps_committed idle (never_commits (uncommitted_untilEnd chunk))).ran.mono
      fun result w₁ same ⟨⟨failed, ended⟩, ran⟩ =>
        ⟨same, ⟨failed, ended.processed result rfl⟩, ran⟩
  rw [ingestChunk_eq]
  refine (first.weaken fun _ => Or.inl).bind fun result w₁ _ ⟨same, ⟨failed, processed⟩, ran⟩ => ?_
  cases result with
  | error e =>
    have kept := Client.keeps_committed (orderly_endChunk processed)
      (never_commits (uncommitted_endChunk e))
    exact (kept.mono fun _ _ _ _ => trivial).weaken fun _ kept => Or.inl (kept.trans same)
  | ok counts =>
    obtain ⟨⟨db, active⟩, c⟩ := w₁
    cases active with
    | none => cases processed.1
    | some view =>
      have ended : (endChunk (.ok counts)).run World.handle ⟨⟨db, some view⟩, c⟩ =
          (.ok counts, ⟨⟨view, none⟩, c⟩) := rfl
      have whole : (o.untilEnd chunk >>= endChunk).run World.handle w =
          (.ok counts, ⟨⟨view, none⟩, c⟩) := (Prog.run_bind_ok ran).trans ended
      exact ⟨Or.inl same, fun _ => ⟨Or.inr ⟨counts, _, whole, rfl⟩, trivial⟩⟩

/-! ## Chunks without failures -/

/-- The chunks succeed one after the other, and lead from one state to another. -/
structure Ran (o : IngestionOrchestrator) (w₀ : World neo4j UtxoCache)
    (done : List (List LocatedBlock)) (w : World neo4j UtxoCache) : Prop where
  ran : ∃ stats, (o.ingestChunks ⟨0, 0, 0, 0⟩ done).run World.handle w₀ = (.ok stats, w)
  free : w.store.active = none
  checkpoint : w.store.committed.checkpoint =
    (lastCheckpoint done.flatten).or w₀.store.committed.checkpoint

theorem Ran.nil (free : w₀.store.active = none) : Ran o w₀ [] w₀ :=
  ⟨⟨_, rfl⟩, free, rfl⟩

/-- One more chunk. -/
theorem Ran.chunk {done : List (List LocatedBlock)} {chunk : List LocatedBlock}
    {counts : ℕ × ℕ × ℕ} (before : Ran o w₀ done w)
    (ran : (o.ingestChunk chunk).run World.handle w = (.ok counts, w')) :
    Ran o w₀ (done ++ [chunk]) w' := by
  obtain ⟨⟨g, active⟩, c⟩ := w
  obtain ⟨⟨stats, first⟩, free, checkpoint⟩ := before
  cases free
  have effect := chunkEffect (o := o) g c chunk
  rw [ran] at effect
  refine ⟨⟨{ stats with
    transactions := stats.transactions + counts.1
    outputs := stats.outputs + counts.2.1
    inputs := stats.inputs + counts.2.2 }, ?_⟩, effect.free, ?_⟩
  · rw [run_ingestChunks_append, first]
    exact Prog.run_bind_ok ran
  · have last : w'.store.committed.checkpoint = (lastCheckpoint chunk).or g.checkpoint :=
      effect.checkpoint
    have before : g.checkpoint = (lastCheckpoint done.flatten).or w₀.store.committed.checkpoint :=
      checkpoint
    rw [last, before, List.flatten_append, List.flatten_singleton, lastCheckpoint_append,
      Option.or_assoc]

/-- What is committed is what a prefix of the chunks has left. -/
def Prefix (o : IngestionOrchestrator) (w₀ : World neo4j UtxoCache)
    (chunks : List (List LocatedBlock)) (now : World neo4j UtxoCache) : Prop :=
  ∃ done w, done <+: chunks ∧ Ran o w₀ done w ∧ now.store.committed = w.store.committed

theorem Prefix.mono {chunks all : List (List LocatedBlock)} {now : World neo4j UtxoCache}
    (left : Prefix o w₀ chunks now) (before : chunks <+: all) : Prefix o w₀ all now := by
  obtain ⟨done, w, upTo, rest⟩ := left
  exact ⟨done, w, upTo.trans before, rest⟩

theorem keeps_ingestChunks {chunks : List (List LocatedBlock)}
    (inside : ∀ chunk ∈ chunks, ¬ o.WritesBeside chunk) {done : List (List LocatedBlock)}
    (before : Ran o w₀ done w) (stats : BatchStats) :
    (o.ingestChunks stats chunks).Keeps World.handle (fun _ _ => True)
      (Prefix o w₀ (done ++ chunks)) (fun _ after => Ran o w₀ (done ++ chunks) after) w := by
  induction chunks generalizing done w stats with
  | nil =>
    rw [List.append_nil]
    exact ⟨⟨done, w, List.prefix_rfl, before, rfl⟩, before⟩
  | cons chunk rest ih =>
    have split : done ++ chunk :: rest = (done ++ [chunk]) ++ rest := by simp
    have one := (keeps_ingestChunk (inside chunk List.mem_cons_self) before.free).ran
    have here := one.weaken fun now committed => show Prefix o w₀ (done ++ chunk :: rest) now by
      rcases committed with same | ⟨counts, after, ran, same⟩
      · exact ⟨done, w, List.prefix_append .., before, same⟩
      · refine ⟨done ++ [chunk], after, ?_, before.chunk ran, same⟩
        rw [split]
        exact List.prefix_append ..
    refine here.bind fun counts after _ ⟨_, ran⟩ => ?_
    rw [split]
    exact ih (fun d mem => inside d (List.mem_cons_of_mem _ mem)) (before.chunk ran) _

/-! ## Calls up to the first failure -/

/-- The chunks of the calls. -/
def chunksOf (o : IngestionOrchestrator) (batches : List (List LocatedBlock)) :
    List (List LocatedBlock) :=
  batches.flatMap o.adaptiveChunks

theorem orderly_ingestBatches {batches : List (List LocatedBlock)}
    (inside : ∀ chunk ∈ o.chunksOf batches, ¬ o.WritesBeside chunk) :
    Orderly true (o.ingestBatches batches) .idle (Settled true) := by
  induction batches with
  | nil => exact .idle _
  | cons blocks rest ih =>
    have both := List.forall_mem_append.mp inside
    have first : Orderly true ((Call.ingestBlocksBatch blocks).program o) .idle (Settled true) :=
      orderly_settled_bind (orderly_ingestChunks both.1 _) fun _ => .idle _
    exact orderly_settled_bind first fun _ => ih both.2

theorem serial_ingestBatches (batches : List (List LocatedBlock)) :
    (o.ingestBatches batches).Always Client.Op.Serial := by
  induction batches with
  | nil => trivial
  | cons blocks rest ih =>
    have first : ((Call.ingestBlocksBatch blocks).program o).Always Client.Op.Serial :=
      (serial_ingestChunks _ _).bind fun _ => trivial
    exact first.bind fun _ => ih

theorem keeps_ingestBatches {batches : List (List LocatedBlock)}
    (inside : ∀ chunk ∈ o.chunksOf batches, ¬ o.WritesBeside chunk)
    {done : List (List LocatedBlock)} (before : Ran o w₀ done w) :
    (o.ingestBatches batches).Keeps World.handle (fun _ _ => True)
      (Prefix o w₀ (done ++ o.chunksOf batches)) (fun _ _ => True) w := by
  induction batches generalizing done w with
  | nil => exact ⟨⟨done, w, List.prefix_append .., before, rfl⟩, trivial⟩
  | cons blocks rest ih =>
    have both := List.forall_mem_append.mp inside
    have all : done ++ o.chunksOf (blocks :: rest) =
        (done ++ o.adaptiveChunks blocks) ++ o.chunksOf rest := (List.append_assoc ..).symm
    rw [all]
    have chunks := keeps_ingestChunks both.1 before ⟨0, 0, 0, (o.adaptiveChunks blocks).length⟩
    have first : ((Call.ingestBlocksBatch blocks).program o).Keeps World.handle (fun _ _ => True)
        (Prefix o w₀ (done ++ o.adaptiveChunks blocks))
        (fun _ after => Ran o w₀ (done ++ o.adaptiveChunks blocks) after) w :=
      chunks.bind fun _ _ left ran => ⟨left, ran⟩
    have here := first.weaken fun now left =>
      left.mono (List.prefix_append (done ++ o.adaptiveChunks blocks) (o.chunksOf rest))
    exact here.bind fun _ _ _ ran => ih both.2 ran

/-- The graph is what a prefix of the chunks leaves when it runs alone and nothing fails, and its
checkpoint is at the last block of this prefix. -/
def LeftByPrefix (o : IngestionOrchestrator) (chunks : List (List LocatedBlock)) (g : Graph)
    (c : UtxoCache) (now : Graph) : Prop :=
  ∃ done stats w, done <+: chunks ∧
    (o.ingestChunks ⟨0, 0, 0, 0⟩ done).run World.handle ⟨⟨g, none⟩, c⟩ = (.ok stats, w) ∧
    now = w.store.committed ∧ now.checkpoint = (lastCheckpoint done.flatten).or g.checkpoint

/-- **Chunks are atomic.** Whatever fails or crashes, and in whatever order the bucket tasks run: if
every task of a chunk has ended when the chunk is rolled back, and no chunk writes outputs beside
its transaction, then a prefix of the chunks is committed, and nothing else. -/
theorem committed_prefix (o : IngestionOrchestrator) (batches : List (List LocatedBlock))
    (g : Graph) (c : UtxoCache) (turns : List (Turn neo4j))
    (inside : ∀ chunk ∈ o.chunksOf batches, ¬ o.WritesBeside chunk)
    (careful : (Crew.start (o.ingestBatches batches) g c).CarefulRun turns) :
    LeftByPrefix o (o.chunksOf batches) g c
      ((Crew.start (o.ingestBatches batches) g c).run turns).store.committed := by
  have holds := (orderly_ingestBatches inside).mono (fun _ _ _ => trivial)
  obtain ⟨n, past⟩ := Crew.past_run holds (serial_ingestBatches batches) careful
  have idle : Ran o ⟨⟨g, none⟩, c⟩ [] ⟨⟨g, none⟩, c⟩ := .nil rfl
  have keeps := keeps_ingestBatches inside idle
  obtain ⟨done, w, upTo, ⟨⟨stats, ran⟩, _, checkpoint⟩, same⟩ :=
    keeps.crash (n := n) (Prog.allAllowed_of_forall (fun _ _ => trivial) _ _ n)
  rw [past] at same
  exact ⟨done, stats, w, upTo, ran, same, by rw [same]; exact checkpoint⟩

end IngestionOrchestrator

/-! ## A chunk that is not atomic, and one that is -/

namespace Sample

/-- A block at a BIP30 height. -/
def special : LocatedBlock := block 91842 101 100 [coinbase 2 50 burnScript]

/-- The statement after the outputs fails, and the transaction is rolled back. -/
def failingTransactions : List (Turn neo4j) :=
  List.replicate 11 (.main none) ++ [.main (some .elapsed), .main none]

def specialBatch : Crew neo4j UtxoCache WriterError Unit :=
  .start ((orchestrator 1000000).ingestBatches [[special]]) .empty (.new 1000)

def plainBatch : Crew neo4j UtxoCache WriterError Unit :=
  .start ((orchestrator 1000000).ingestBatches [[second]]) .empty (.new 1000)

end Sample

/-- The outputs of a block at a BIP30 height stay after its transaction has been rolled back. -/
theorem outputs_escape : ¬ ∀ (o : IngestionOrchestrator) (batches : List (List LocatedBlock))
    (g : Graph) (c : UtxoCache) (turns : List (Turn neo4j)),
      IngestionOrchestrator.LeftByPrefix o (o.chunksOf batches) g c
        ((Crew.start (o.ingestBatches batches) g c).run turns).store.committed := by
  intro always
  obtain ⟨done, stats, w, upTo, ran, same, checkpoint⟩ := always (Sample.orchestrator 1000000)
    [[Sample.special]] .empty (.new 1000) Sample.failingTransactions
  have chunks : (Sample.orchestrator 1000000).chunksOf [[Sample.special]] = [[Sample.special]] := by
    decide +kernel
  have left : (Sample.specialBatch.run Sample.failingTransactions).store.committed.checkpoint =
      none := by decide +kernel
  have outputs :
      (Sample.specialBatch.run Sample.failingTransactions).store.committed.outputs.rows ≠ ∅ := by
    decide +kernel
  unfold Sample.specialBatch at left outputs
  rw [chunks] at upTo
  rw [left] at checkpoint
  rcases List.prefix_cons_iff.mp upTo with rfl | ⟨rest, rfl, none⟩
  · cases ran
    rw [same] at outputs
    exact outputs rfl
  · rw [List.prefix_nil.mp none] at checkpoint
    cases checkpoint

/-- A bucket fails while the other is at work, and nothing is left of their chunk. -/
theorem committed_prefix_sample :
    (Sample.plainBatch.run Sample.joinedBucket).store.active = none ∧
      IngestionOrchestrator.LeftByPrefix (Sample.orchestrator 1000000)
        ((Sample.orchestrator 1000000).chunksOf [[Sample.second]]) .empty (.new 1000)
        (Sample.plainBatch.run Sample.joinedBucket).store.committed := by
  refine ⟨by decide +kernel, ?_⟩
  refine IngestionOrchestrator.committed_prefix (Sample.orchestrator 1000000) [[Sample.second]]
    .empty (.new 1000) Sample.joinedBucket ?_ ?_
  · intro chunk mem ⟨⟨b, inChunk, special⟩, _⟩
    obtain ⟨blocks, one, among⟩ := List.mem_flatMap.mp mem
    cases List.mem_singleton.mp one
    have here := (Sample.orchestrator 1000000).mem_of_mem_adaptiveChunks among inChunk
    cases List.mem_singleton.mp here
    exact absurd special (by decide)
  · show Sample.plainBatch.CarefulRun Sample.joinedBucket
    decide +kernel

end ChainGraph

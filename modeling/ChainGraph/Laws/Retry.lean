import ChainGraph.Foundation.Faults
import ChainGraph.Laws.Grown
import ChainGraph.Laws.Values

/-!
# Retrying a chunk after a failed call

A chunk without BIP30 heights in which one call of the writer fails leaves the database as it was,
but not the cache: outputs of the chunk may have come in, and outputs it spends may have gone. The
second attempt still resolves every input to what a first attempt over the old cache would have
resolved it to, so it is committed iff that one would have been, with the same effect.

The failing call is any call on the session, inside a batched write too. A write of no rows makes no
call and cannot fail.
-/

namespace ChainGraph

open Foundation Foundation.Store

/-! ## Writer methods in which a call may fail -/

section Writer

variable {fault : DbFault} {g : Graph} {occupied : Bool} {α β : Type}

/-- The committed graph is still `g`, and whether a transaction is open. -/
def Untouched (g : Graph) (occupied : Bool) (s : Faulty (Store neo4j)) : Prop :=
  s.state.committed = g ∧ s.state.active.isSome = occupied

/-- A program that writes nothing outside a transaction, leaves the slot as it is, and ends without
an error only if no call has failed in it. -/
def Heedful (fault : DbFault) (g : Graph) (occupied : Bool) (ends : α → Prop) (p : Io α) : Prop :=
  ∀ s, Untouched g occupied s → Prog.Keeps (handleFaulty fault) (fun _ _ => True)
    (Untouched g occupied) (fun a s' => (s.Intact → s'.Intact) ∧ ends a) p s

variable {ends : α → Prop} {after : β → Prop}

theorem heedful_pure {a : α} (done : ends a) : Heedful fault g occupied ends (pure a : Io α) :=
  fun _ here => .pure here ⟨id, done⟩

theorem heedful_throw {e : WriterError} :
    Heedful fault g occupied ends (throw e : Io α) := fun _ here => .throw here

theorem Heedful.bind {p : Io α} {f : α → Io β} (first : Heedful fault g occupied ends p)
    (rest : ∀ a, ends a → Heedful fault g occupied after (f a)) :
    Heedful fault g occupied after (p >>= f) := by
  intro s here
  refine (first s here).bind fun a s' there done => ?_
  exact (rest a done.2 s' there).mono fun b t _ done' => ⟨done'.1 ∘ done.1, done'.2⟩

/-- One call that leaves the committed graph and the slot alone, and whose fault is passed on. -/
theorem heedful_call {o : Session.Op neo4j} {k : Session.Reply neo4j o → Io β}
    (fails : ∀ s r, Untouched g occupied ⟨s, none⟩ → failed fault o s = some r →
      Untouched g occupied ⟨r.2, none⟩ ∧ ∃ e, k r.1 = throw e)
    (serves : ∀ s, Untouched g occupied ⟨s, none⟩ → Untouched g occupied ⟨(handle o s).2, none⟩ ∧
      Heedful fault g occupied after (k (handle o s).1)) :
    Heedful fault g occupied after (call o >>= k) := by
  intro s here
  refine keeps_call here (fun r failing => ?_) fun left same => ?_
  · obtain ⟨there, e, throws⟩ := fails s.state r here failing
    rw [throws]
    exact .throw there
  · obtain ⟨there, rest⟩ := serves s.state here
    exact (rest ⟨_, left⟩ there).mono fun b t _ done =>
      ⟨fun intact => done.1 (same.mp intact), done.2⟩

theorem heedful_readGraph (failing : DbFault → WriterError) :
    Heedful fault g occupied (· = g) (Neo4jWriter.readGraph failing) := by
  unfold Neo4jWriter.readGraph
  refine heedful_call (fun s r here eq => ?_) fun s here => ⟨here, heedful_pure here.1⟩
  cases eq
  exact ⟨here, _, rfl⟩

theorem heedful_lookupBlockHash (w : Neo4jWriter) (height : ℕ) :
    Heedful fault g occupied (fun _ => True) (w.lookupBlockHash height) :=
  (heedful_readGraph _).bind fun _ _ => heedful_pure trivial

theorem heedful_lookupOutputsBatch (ids : List OutputId) :
    Heedful fault g occupied (· = g.lookupOutputsBatch ids)
      (Neo4jWriter.lookupOutputsBatch ids) := by
  unfold Neo4jWriter.lookupOutputsBatch
  by_cases empty : ids.isEmpty
  · rw [if_pos empty, List.isEmpty_iff.mp empty]
    exact heedful_pure rfl
  · rw [if_neg empty]
    refine (heedful_readGraph _).bind fun g' same => ?_
    subst same
    exact heedful_pure rfl

theorem heedful_ite {p : Prop} [Decidable p] {first second : Io α}
    (left : Heedful fault g occupied ends first) (right : Heedful fault g occupied ends second) :
    Heedful fault g occupied ends (if p then first else second) := by
  by_cases holds : p
  · rw [if_pos holds]
    exact left
  · rw [if_neg holds]
    exact right

/-- A statement in the open transaction. -/
theorem heedful_txnRun {q : Query} {k : Except DbFault Bool → Io β}
    (fails : ∀ e, ∃ err, k (.error e) = throw err)
    (serves : Heedful fault g true after (k (.ok true))) :
    Heedful fault g true after (call (.txnRun q) >>= k) := by
  refine heedful_call (fun s r here eq => ?_) fun s here => ?_
  · obtain ⟨db, active⟩ := s
    cases active with
    | none => cases eq
    | some view =>
      cases eq
      exact ⟨here, fails fault⟩
  · obtain ⟨db, active⟩ := s
    cases active with
    | none => cases here.2
    | some view =>
      cases step : q.exec view with
      | error e =>
        rw [handle_txnRun_error (E := neo4j) step]
        obtain ⟨err, throws⟩ := fails e
        rw [throws]
        exact ⟨here, heedful_throw⟩
      | ok view' =>
        rw [handle_txnRun_ok (E := neo4j) step]
        exact ⟨here, serves⟩

theorem heedful_runInTxn (operationName : String) (q : Query) (batchNum totalBatches : ℕ) :
    Heedful fault g true (fun _ => True)
      (Neo4jWriter.runInTxn operationName q batchNum totalBatches) :=
  heedful_txnRun (fun _ => ⟨_, rfl⟩) (heedful_pure trivial)

theorem heedful_eachBatch {body : ℕ → List α → Io Unit}
    (each : ∀ n chunk, Heedful fault g occupied (fun _ => True) (body n chunk))
    (batchNum : ℕ) (batches : List (List α)) :
    Heedful fault g occupied (fun _ => True) (eachBatch body batchNum batches) := by
  induction batches generalizing batchNum with
  | nil => exact heedful_pure trivial
  | cons chunk rest ih => exact (each batchNum chunk).bind fun _ _ => ih (batchNum + 1)

theorem heedful_executeBatched {w : Neo4jWriter} (items : List α) (query : List α → Query)
    (operationName : String) :
    Heedful fault g true (fun _ => True) (w.executeBatched items query operationName) := by
  unfold Neo4jWriter.executeBatched
  by_cases empty : items.isEmpty
  · rw [if_pos empty]
    exact heedful_pure trivial
  · rw [if_neg empty]
    refine heedful_call (fun s r _ eq => by cases eq) fun s here => ⟨here, ?_⟩
    have useTxn : (handle (E := neo4j) .inTxn s).1 = true := here.2
    rw [useTxn]
    exact heedful_eachBatch (fun n chunk => heedful_runInTxn operationName _ n _) 1 _

theorem heedful_updateCheckpoint (data : CheckpointData) :
    Heedful fault g true (fun _ => True) (Neo4jWriter.updateCheckpoint data) :=
  heedful_txnRun (fun _ => ⟨_, rfl⟩) (heedful_pure trivial)

/-! ### Beginning and ending a transaction -/

variable (fault) in
theorem run_beginTransaction_faulty (s : Faulty (Store neo4j)) (here : Untouched g false s) :
    (∃ left, (s.Intact ↔ left.isSome) ∧
        Neo4jWriter.beginTransaction.run (handleFaulty fault) s = (.ok (), ⟨⟨g, some g⟩, left⟩)) ∨
      ∃ e, Neo4jWriter.beginTransaction.run (handleFaulty fault) s =
        (.error e, ⟨⟨g, none⟩, none⟩) := by
  obtain ⟨⟨db, active⟩, left⟩ := s
  obtain ⟨rfl, free⟩ := here
  cases active with
  | some view => cases free
  | none =>
    unfold Neo4jWriter.beginTransaction call
    rw [Prog.run_bind, Prog.run_perform]
    rcases handleFaulty_cases fault .begin ⟨⟨db, none⟩, left⟩ with
      ⟨r, failing, eq⟩ | ⟨left', same, eq⟩
    · cases failing
      rw [eq]
      exact Or.inr ⟨_, rfl⟩
    · rw [eq]
      exact Or.inl ⟨left', same, rfl⟩

variable (fault) in
theorem run_commitTransaction_faulty (s : Faulty (Store neo4j)) (here : Untouched g true s) :
    (∃ e, Neo4jWriter.commitTransaction.run (handleFaulty fault) s =
        (.error e, ⟨⟨g, none⟩, none⟩)) ∨
      ∃ s', (s.Intact → s'.Intact) ∧
        Neo4jWriter.commitTransaction.run (handleFaulty fault) s = (.ok (), s') := by
  obtain ⟨⟨db, active⟩, left⟩ := s
  obtain ⟨rfl, occupied⟩ := here
  cases active with
  | none => cases occupied
  | some view =>
    unfold Neo4jWriter.commitTransaction call
    rw [Prog.run_bind, Prog.run_perform]
    rcases handleFaulty_cases fault .commit ⟨⟨db, some view⟩, left⟩ with
      ⟨r, failing, eq⟩ | ⟨left', same, eq⟩
    · cases failing
      rw [eq]
      exact Or.inl ⟨_, rfl⟩
    · rw [eq]
      exact Or.inr ⟨⟨⟨view, none⟩, left'⟩, same.mp, rfl⟩

theorem run_rollbackTransaction_faulty (s : Faulty (Store neo4j)) (here : Untouched g true s) :
    (Neo4jWriter.rollbackTransaction.run (handleFaulty fault) s).2.state = ⟨g, none⟩ := by
  obtain ⟨⟨db, active⟩, left⟩ := s
  obtain ⟨rfl, occupied⟩ := here
  cases active with
  | none => cases occupied
  | some view =>
    unfold Neo4jWriter.rollbackTransaction call
    rw [Prog.run_bind, Prog.run_perform]
    rcases handleFaulty_cases fault .rollback ⟨⟨db, some view⟩, left⟩ with
      ⟨r, failing, eq⟩ | ⟨left', same, eq⟩
    · cases failing
      rw [eq]
      rfl
    · rw [eq]
      rfl

end Writer

namespace IngestionOrchestrator

/-! ## The cache of a chunk -/

section Cache

variable {o : IngestionOrchestrator} {g : Graph} {cap : Fin numShards → ℕ}
  {chunk : List LocatedBlock} {c c' : UtxoCache}

/-- What a cache can hold for a chunk: stored outputs, and outputs of the chunk. -/
structure Held (o : IngestionOrchestrator) (g : Graph) (cap : Fin numShards → ℕ)
    (chunk : List LocatedBlock) (c : UtxoCache) : Prop where
  cap : c.cap = cap
  peek : ∀ k v, c.peek k = some v → g.resolve k = some v ∨
    ∃ row ∈ o.outputRows chunk, row.outputId = k ∧ v = .ofOutput row

/-- A cache with the same capacities that answers no more. -/
theorem Held.of_peek (held : o.Held g cap chunk c) (caps : ∀ s, c'.cap s = c.cap s)
    (sub : ∀ k v, c'.peek k = some v → c.peek k = some v) : o.Held g cap chunk c' :=
  ⟨(funext caps).trans held.cap, fun k v hit => held.peek k v (sub k v hit)⟩

theorem Held.insert (held : o.Held g cap chunk c) {row : OutputData}
    (mem : row ∈ o.outputRows chunk) :
    o.Held g cap chunk (c.insert row.outputId (.ofOutput row)) := by
  refine ⟨(funext UtxoCache.cap_insert).trans held.cap, fun k v hit => ?_⟩
  rcases UtxoCache.peek_insert hit with ⟨same, rfl⟩ | ⟨_, old⟩
  · exact Or.inr ⟨row, mem, same.symm, rfl⟩
  · exact held.peek k v old

theorem Held.populateCache (held : o.Held g cap chunk c) :
    o.Held g cap chunk (populateCache (o.outputRows chunk) c) := by
  have keyed := keyed_outputRows o chunk
  suffices all : ∀ (rows : List OutputData), (∀ row ∈ rows, row ∈ o.outputRows chunk) →
      ∀ c, o.Held g cap chunk c → o.Held g cap chunk (ChainGraph.populateCache rows c) from
    all _ (fun _ mem => mem) c held
  intro rows among
  induction rows with
  | nil => exact fun c held => held
  | cons row rows ih =>
    intro c held
    have mem := among row List.mem_cons_self
    have step : ChainGraph.populateCache (row :: rows) c =
        ChainGraph.populateCache rows (c.insert row.outputId (.ofOutput row)) := by
      rw [← keyed row mem]
      rfl
    rw [step]
    exact ih (fun r hr => among r (List.mem_cons_of_mem row hr)) _ (held.insert mem)

theorem Held.removeMany (held : o.Held g cap chunk c) (keys : List UtxoKey) :
    o.Held g cap chunk (c.removeMany keys) := by
  refine held.of_peek (UtxoCache.cap_removeMany keys) fun k v hit => ?_
  rw [UtxoCache.peek_removeMany] at hit
  split at hit
  · cases hit
  · exact hit

theorem Held.supplement (held : o.Held g cap chunk c) (keys : List UtxoKey) (found : Found) :
    o.Held g cap chunk (supplement keys found c).1 := by
  have quiet := supplemented_supplement keys found c
  exact held.of_peek quiet.cap fun k v hit => (quiet.peek k).symm.trans hit

end Cache

/-! ## A chunk in which a call may fail -/

section Chunk

variable {fault : DbFault} {o : IngestionOrchestrator} {g : Graph} {occupied : Bool}
  {cap : Fin numShards → ℕ} {chunk : List LocatedBlock} {α β : Type} {ends : α → Prop}
  {after : β → Prop}

/-- The committed graph is as it was, and the cache holds no more than it can for the chunk. -/
def Unharmed (o : IngestionOrchestrator) (g : Graph) (occupied : Bool) (cap : Fin numShards → ℕ)
    (chunk : List LocatedBlock) (w : Faulty (World neo4j UtxoCache)) : Prop :=
  Untouched g occupied (World.storeOf w) ∧ o.Held g cap chunk w.state.memory

/-- A program of the orchestrator that keeps that, and ends without an error only if no call has
failed in it. -/
def Heeds (fault : DbFault) (o : IngestionOrchestrator) (g : Graph) (occupied : Bool)
    (cap : Fin numShards → ℕ) (chunk : List LocatedBlock) (ends : α → Prop) (p : Ingest α) :
    Prop :=
  ∀ w, o.Unharmed g occupied cap chunk w → Prog.Keeps (World.handleFaulty fault) (fun _ _ => True)
    (o.Unharmed g occupied cap chunk) (fun a w' => (w.Intact → w'.Intact) ∧ ends a) p w

theorem heeds_pure {a : α} (done : ends a) :
    Heeds fault o g occupied cap chunk ends (pure a : Ingest α) :=
  fun _ here => .pure here ⟨id, done⟩

theorem Heeds.bind {p : Ingest α} {f : α → Ingest β}
    (first : Heeds fault o g occupied cap chunk ends p)
    (rest : ∀ a, ends a → Heeds fault o g occupied cap chunk after (f a)) :
    Heeds fault o g occupied cap chunk after (p >>= f) := by
  intro w here
  refine (first w here).bind fun a w' there done => ?_
  exact (rest a done.2 w' there).mono fun b t _ done' => ⟨done'.1 ∘ done.1, done'.2⟩

/-- A writer method. -/
theorem heeds_io {p : Io α} (heedful : Heedful fault g occupied ends p) :
    Heeds fault o g occupied cap chunk ends (io p) := by
  intro w here
  exact (World.keeps_lift (M := o.Held g cap chunk) here.2 (heedful _ here.1)).mono
    fun a w' _ done => done.1

theorem heeds_getCache : Heeds fault o g occupied cap chunk (o.Held g cap chunk) getCache :=
  fun _ here => ⟨here, fun _ => ⟨here, id, here.2⟩⟩

theorem heeds_setCache {c : UtxoCache} (held : o.Held g cap chunk c) :
    Heeds fault o g occupied cap chunk (fun _ => True) (setCache c) :=
  fun _ here => ⟨here, fun _ => ⟨⟨here.1, held⟩, id, trivial⟩⟩

theorem heeds_modifyCache {f : UtxoCache → UtxoCache}
    (keeps : ∀ c, o.Held g cap chunk c → o.Held g cap chunk (f c)) :
    Heeds fault o g occupied cap chunk (fun _ => True) (modifyCache f) :=
  heeds_getCache.bind fun c held => heeds_setCache (keeps c held)

/-- A write whose error is passed on once the cache has been changed. -/
theorem heeds_attempt {p : Ingest Unit} {f : UtxoCache → UtxoCache} {rest : Ingest β}
    (first : Heeds fault o g occupied cap chunk (fun _ => True) p)
    (keeps : ∀ c, o.Held g cap chunk c → o.Held g cap chunk (f c))
    (later : Heeds fault o g occupied cap chunk after rest) :
    Heeds fault o g occupied cap chunk after (do
      let result ← p.attempt
      modifyCache f
      Prog.ofExcept result
      rest) := by
  intro w here
  refine (first w here).attempt.bind fun result w₁ here₁ done₁ => ?_
  refine (heeds_modifyCache keeps w₁ here₁).bind fun _ w₂ here₂ done₂ => ?_
  cases result with
  | error e => exact here₂
  | ok _ =>
    exact (later w₂ here₂).mono fun b t _ done =>
      ⟨fun intact => done.1 (done₂.1 ((done₁ () rfl).1 intact)), done.2⟩

theorem heedful_validateFirst :
    Heedful fault g occupied (fun _ => True) (o.validateFirst chunk) := by
  unfold validateFirst
  cases chunk.head? with
  | none => exact heedful_pure trivial
  | some first =>
    unfold validateParentHash
    by_cases genesis : first.height = 0
    · simp only [if_pos genesis]
      exact heedful_pure trivial
    · simp only [if_neg genesis]
      refine (heedful_lookupBlockHash o.writer _).bind fun hash _ => ?_
      cases hash with
      | none => exact heedful_pure trivial
      | some hash =>
        by_cases same : hash = first.block.header.prevBlockhash
        · simp only [if_pos same]
          exact heedful_pure trivial
        · simp only [if_neg same]
          exact heedful_throw

/-- What the rows of a lookup add to the cache is stored. -/
theorem Held.absorbed {c : UtxoCache} (held : o.Held g cap chunk c) (keys : List UtxoKey) :
    let looked := c.getMany keys
    o.Held g cap chunk looked.1 ∧
      o.Held g cap chunk (absorbResults (g.lookupOutputsBatch (looked.2.2.map UtxoKey.toOutputId))
        looked.1 looked.2.1 looked.2.2).1 := by
  intro looked
  have first := UtxoCache.lookedUp_getMany c keys
  obtain ⟨answered, _⟩ := answered_lookup held.peek (fun _ _ hit => Or.inl hit) first
  exact ⟨held.of_peek first.cap fun k v hit => (first.peek k).symm.trans hit,
    (funext answered.cap).trans held.cap, answered.cache⟩

theorem heeds_prefetchUtxos (keys : List UtxoKey) :
    Heeds fault o g occupied cap chunk (fun _ => True) (prefetchUtxos keys) := by
  unfold prefetchUtxos
  by_cases empty : keys.isEmpty
  · simp only [if_pos empty]
    exact heeds_pure trivial
  · simp only [if_neg empty]
    refine heeds_getCache.bind fun c held => ?_
    obtain ⟨looked, absorbed⟩ := held.absorbed keys
    refine (heeds_setCache looked).bind fun _ _ => ?_
    by_cases complete : (c.getMany keys).2.2.isEmpty
    · simp only [if_pos complete]
      exact heeds_pure trivial
    · simp only [if_neg complete]
      refine (heeds_io (heedful_lookupOutputsBatch _)).bind fun rows same => ?_
      subst same
      refine (heeds_setCache ?_).bind fun _ _ => heeds_pure trivial
      split
      · exact ⟨absorbed.cap, absorbed.peek⟩
      · exact absorbed

theorem heedful_bucketTask (performs : List PerformsData) (benefits : List BenefitsToData) :
    Heedful fault g true (fun _ => True) (o.bucketTask performs benefits) := by
  unfold bucketTask writePerformsIfAny writeBenefitsToIfAny
  exact (heedful_ite (heedful_pure trivial) (heedful_executeBatched _ _ _)).bind fun _ _ =>
    heedful_ite (heedful_pure trivial) (heedful_executeBatched _ _ _)

theorem heeds_spawnAll (performs : List PerformsData) (benefits : List BenefitsToData) :
    Heeds fault o g true cap chunk (fun _ => True)
      (spawnAll (o.bucketTasks performs benefits)) := by
  intro w here
  have each : ∀ t ∈ o.bucketTasks performs benefits, ∀ s, Untouched g true s →
      Prog.Keeps (handleFaulty fault) (fun _ _ => True) (Untouched g true)
        (fun _ s' => s.Intact → s'.Intact) t s := by
    intro t mem s there
    obtain ⟨i, inside, rfl⟩ := List.mem_iff_getElem.mp mem
    unfold bucketTasks at inside ⊢
    rw [List.getElem_zipWith]
    exact (heedful_bucketTask _ _ s there).mono fun _ _ _ done => done.1
  have ran := World.keeps_runTasksFaulty each here.1
  refine ⟨here, fun _ => ?_⟩
  have there : o.Unharmed g true cap chunk
      (World.handleFaulty fault (.fork (o.bucketTasks performs benefits)) w).2 := ⟨ran.1, here.2⟩
  show Prog.Keeps _ _ _ _ (Prog.ofExcept
    (World.handleFaulty fault (.fork (o.bucketTasks performs benefits)) w).1) _
  have answer : (World.handleFaulty fault (.fork (o.bucketTasks performs benefits)) w).1 =
      (World.runTasksFaulty fault (o.bucketTasks performs benefits) (World.storeOf w)).1 := rfl
  rw [answer]
  cases outcome : (World.runTasksFaulty fault (o.bucketTasks performs benefits)
      (World.storeOf w)).1 with
  | error e => exact there
  | ok _ => exact ⟨there, ran.2 outcome, trivial⟩

theorem heedful_checkpointChunk :
    Heedful fault g true (fun _ => True) (checkpointChunk chunk) := by
  unfold checkpointChunk
  cases chunk.getLast? with
  | none => exact heedful_pure trivial
  | some last => exact heedful_updateCheckpoint _

/-- Processing a chunk without BIP30 heights writes in its transaction alone. -/
theorem heeds_processBatchChunk (plain : hasBip30 chunk = false) (found : Found) :
    Heeds fault o g true cap chunk (fun _ => True) (o.processBatchChunk chunk found) := by
  rw [processBatchChunk_eq]
  have outputs : Heedful fault g true (fun _ => True) (o.chunkOutputWrite chunk) := by
    unfold chunkOutputWrite
    rw [plain]
    exact heedful_executeBatched _ _ _
  have write : ∀ {β : Type} (items : List β) (query : List β → Query) (name : String),
      Heeds fault o g true cap chunk (fun _ => True)
        (io (o.writer.executeBatched items query name)) :=
    fun items query name => heeds_io (heedful_executeBatched items query name)
  refine (write _ _ _).bind fun _ _ => ?_
  refine heeds_attempt (heeds_io outputs) (fun c held => held.populateCache) ?_
  refine heeds_getCache.bind fun c held => ?_
  refine (heeds_setCache (held.supplement (spentKeys chunk) found)).bind fun _ _ => ?_
  unfold writeResolved chunkTransactionWrite chunkInputWrite
  simp only [plain, Bool.false_eq_true, if_false]
  refine (write _ _ _).bind fun _ _ => ?_
  refine (write _ _ _).bind fun _ _ => ?_
  refine (write _ _ _).bind fun _ _ => ?_
  refine (heeds_spawnAll _ _).bind fun _ _ => ?_
  refine (heeds_modifyCache fun c held => held.removeMany _).bind fun _ _ => ?_
  exact (heeds_io heedful_checkpointChunk).bind fun _ _ => heeds_pure trivial

/-- From the transaction on, if a call fails. -/
theorem failed_process (plain : hasBip30 chunk = false) {found : Found}
    {w w' : Faulty (World neo4j UtxoCache)} (here : o.Unharmed g false cap chunk w)
    (intact : w.Intact) (fired : ¬ w'.Intact) {r : Except WriterError (ℕ × ℕ × ℕ)}
    (ran : (do
      io Neo4jWriter.beginTransaction
      let chunkResult ← (o.processBatchChunk chunk found).attempt
      endChunk chunkResult : Ingest _).run (World.handleFaulty fault) w = (r, w')) :
    (∃ e, r = .error e) ∧ o.Unharmed g false cap chunk w' := by
  have closed : ∀ {w : Faulty (World neo4j UtxoCache)} {s : Faulty (Store neo4j)},
      o.Held g cap chunk w.state.memory → s.state = ⟨g, none⟩ →
        o.Unharmed g false cap chunk (World.withStore s w) := by
    intro w s held free
    refine ⟨?_, held⟩
    show s.state.committed = g ∧ s.state.active.isSome = false
    rw [free]
    exact ⟨rfl, rfl⟩
  rw [Prog.run_bind, io, World.run_lift_faulty] at ran
  rcases run_beginTransaction_faulty fault (World.storeOf w) here.1 with
    ⟨left, same, began⟩ | ⟨e, failing⟩
  · rw [began] at ran
    have here₁ : o.Unharmed g true cap chunk (World.withStore ⟨⟨g, some g⟩, left⟩ w) :=
      ⟨⟨rfl, rfl⟩, here.2⟩
    have intact₁ : (World.withStore ⟨⟨g, some g⟩, left⟩ w).Intact := same.mp intact
    dsimp only at ran
    generalize World.withStore ⟨⟨g, some g⟩, left⟩ w = w₁ at ran here₁ intact₁
    have heeds : Heeds fault o g true cap chunk _ _ := heeds_processBatchChunk plain found
    have processed := heeds w₁ here₁
    rw [Prog.run_bind_ok (Prog.run_attempt ..)] at ran
    have here₂ := processed.final
    have done : ∀ counts w₂, (o.processBatchChunk chunk found).run (World.handleFaulty fault) w₁ =
        (.ok counts, w₂) → w₂.Intact := fun _ _ same => (processed.done same).2.1 intact₁
    generalize (o.processBatchChunk chunk found).run (World.handleFaulty fault) w₁ = outcome
      at ran here₂ done
    obtain ⟨outcome, w₂⟩ := outcome
    cases outcome with
    | error e =>
      unfold endChunk at ran
      dsimp only at ran here₂
      rw [Prog.run_bind_ok (Prog.run_attempt ..), io, World.run_lift_faulty] at ran
      cases ran
      exact ⟨⟨e, rfl⟩, closed here₂.2 (run_rollbackTransaction_faulty _ here₂.1)⟩
    | ok counts =>
      have intact₂ := done counts w₂ rfl
      unfold endChunk at ran
      dsimp only at ran here₂
      rw [Prog.run_bind, io, World.run_lift_faulty] at ran
      rcases run_commitTransaction_faulty fault (World.storeOf w₂) here₂.1 with
        ⟨e, failing⟩ | ⟨s', same, committed⟩
      · rw [failing] at ran
        cases ran
        exact ⟨⟨e, rfl⟩, closed here₂.2 rfl⟩
      · rw [committed] at ran
        cases ran
        exact absurd (same intact₂) fired
  · rw [failing] at ran
    cases ran
    exact ⟨⟨e, rfl⟩, closed here.2 rfl⟩

/-- **A chunk in which a call fails** ends with an error, the committed graph as it was and no
transaction open. -/
theorem failed_ingestChunk (plain : hasBip30 chunk = false) {w w' : Faulty (World neo4j UtxoCache)}
    (here : o.Unharmed g false cap chunk w) (intact : w.Intact) (fired : ¬ w'.Intact)
    {r : Except WriterError (ℕ × ℕ × ℕ)}
    (ran : (o.ingestChunk chunk).run (World.handleFaulty fault) w = (r, w')) :
    (∃ e, r = .error e) ∧ o.Unharmed g false cap chunk w' := by
  have before : Heeds fault o g false cap chunk (fun _ => True) (do
      io (o.validateFirst chunk)
      prefetchUtxos (collectInputKeys chunk)) :=
    (heeds_io heedful_validateFirst).bind fun _ _ => heeds_prefetchUtxos _
  have split : o.ingestChunk chunk = (do
      io (o.validateFirst chunk)
      prefetchUtxos (collectInputKeys chunk)) >>= fun found => (do
        io Neo4jWriter.beginTransaction
        let chunkResult ← (o.processBatchChunk chunk found).attempt
        endChunk chunkResult) := (Prog.bind_assoc ..).symm
  have first := before w here
  rw [split, Prog.run_bind] at ran
  cases ran₁ : Prog.run (World.handleFaulty fault) (do
      io (o.validateFirst chunk)
      prefetchUtxos (collectInputKeys chunk)) w with
  | mk outcome w₁ =>
    have here₁ : o.Unharmed g false cap chunk w₁ := by
      have := first.final
      rwa [ran₁] at this
    rw [ran₁] at ran
    cases outcome with
    | error e =>
      cases ran
      exact ⟨⟨e, rfl⟩, here₁⟩
    | ok found =>
      have intact₁ := (first.done ran₁).2.1 intact
      exact failed_process plain here₁ intact₁ fired ran

end Chunk

/-! ## The second attempt -/

section Retry

variable {fault : DbFault} {o : IngestionOrchestrator} {g g' : Graph} {c : UtxoCache}
  {cap : Fin numShards → ℕ} {chunk : List LocatedBlock} {res res' found : Found} {c' : UtxoCache}

/-- Every shard has room for the outputs of a chunk. A shard that evicts nothing has it. -/
def HasRoom (o : IngestionOrchestrator) (cap : Fin numShards → ℕ) (chunk : List LocatedBlock) :
    Prop :=
  ∀ k, ((sameShard k (o.outputRows chunk)).map (·.outputId)).toFinset.card ≤
    cap (UtxoCache.shardIndex k)

theorem hasRoom_of_length (few : ∀ s, (o.outputRows chunk).length ≤ cap s) :
    o.HasRoom cap chunk := by
  intro k
  refine (List.toFinset_card_le _).trans ?_
  rw [List.length_map]
  exact (List.length_filter_le _ _).trans (few _)

/-- The output under a key: as it is stored, else as the chunk creates it. -/
def storedOrCreated (o : IngestionOrchestrator) (g : Graph) (chunk : List LocatedBlock) : Found :=
  fun k => (g.resolve k).or (((o.outputRows chunk).find? (·.outputId = k)).map .ofOutput)

theorem Held.of_coherent (coherent : Coherent g c) : o.Held g c.cap chunk c :=
  ⟨rfl, fun k v hit => Or.inl (coherent k v hit)⟩

/-- What a chunk sends depends on what the keys it spends resolve to. -/
theorem chunkQueries_congr (same : ∀ k ∈ spentKeys chunk, res k = res' k) :
    o.chunkQueries res chunk = o.chunkQueries res' chunk := by
  unfold chunkQueries chunkTransactionQueries
  rw [transactionRows_congr same, performsRows_congr same]

/-- The only record of a chunk under its id is still cached when there is room for all of them. -/
theorem retained_of_hasRoom (room : o.HasRoom cap chunk)
    (ids : ((o.outputRows chunk).map (·.outputId)).Nodup) {row : OutputData}
    (mem : row ∈ o.outputRows chunk) : Retained cap (o.outputRows chunk) row.outputId row := by
  have own := room row.outputId
  obtain ⟨pre, post, split⟩ := List.append_of_mem mem
  rw [split, List.map_append, List.map_cons, List.nodup_append, List.nodup_cons] at ids
  refine ⟨pre, post, split, rfl, fun r hr same => ids.2.1.1 (List.mem_map.mpr ⟨r, hr, same⟩), ?_⟩
  refine Nat.lt_of_lt_of_le (Finset.card_lt_card ?_) own
  refine Finset.ssubset_iff_of_subset ?_ |>.mpr ⟨row.outputId, ?_, ?_⟩
  · intro id inside
    obtain ⟨r, hr, same⟩ := List.mem_map.mp (List.mem_toFinset.mp inside)
    obtain ⟨later, home⟩ := List.mem_filter.mp hr
    exact List.mem_toFinset.mpr (List.mem_map.mpr ⟨r, List.mem_filter.mpr
      ⟨split ▸ List.mem_append_right _ (List.mem_cons_of_mem row later), home⟩, same⟩)
  · exact List.mem_toFinset.mpr (List.mem_map.mpr ⟨row, List.mem_filter.mpr
      ⟨mem, by simp⟩, rfl⟩)
  · intro inside
    obtain ⟨r, hr, same⟩ := List.mem_map.mp (List.mem_toFinset.mp inside)
    exact ids.2.1.1 (List.mem_map.mpr ⟨r, (List.mem_filter.mp hr).1, same⟩)

/-- Whatever a cache holds of what it can hold for a chunk, the inputs of the chunk resolve to the
same outputs, if the chunk's own are new. -/
theorem resolvedChunk_held (held : o.Held g cap chunk c) (room : o.HasRoom cap chunk)
    (ids : ((o.outputRows chunk).map (·.outputId)).Nodup)
    (new : ∀ row ∈ o.outputRows chunk, ¬ g.outputs.Has row.outputId)
    (answered : Answered (fun k v => c.peek k = some v ∨ g.resolve k = some v) g c
      (spentKeys chunk) found c') {k : UtxoKey} (spent : k ∈ spentKeys chunk) :
    (resolvedChunk o chunk found c').2 k = o.storedOrCreated g chunk k := by
  have created : ∀ row ∈ o.outputRows chunk, row.outputId = k →
      o.storedOrCreated g chunk k = some (.ofOutput row) := by
    intro row mem same
    have absent : g.resolve k = none := by
      rw [← Option.not_isSome_iff_eq_none, resolve_isSome, ← same]
      exact new row mem
    unfold storedOrCreated
    cases first : (o.outputRows chunk).find? (·.outputId = k) with
    | none =>
      have := List.find?_eq_none.mp first row mem
      exact absurd same (by simpa using this)
    | some row' =>
      have same' : row'.outputId = k := by simpa using List.find?_some first
      rw [absent, Option.none_or, List.inj_on_of_nodup_map ids
        (List.mem_of_find?_eq_some first) mem (same'.trans same.symm)]
      rfl
  have stored : ∀ v, g.resolve k = some v → o.storedOrCreated g chunk k = some v := by
    intro v hit
    unfold storedOrCreated
    rw [hit, Option.some_or]
  obtain ⟨values, isSome⟩ := resolvedChunk_cases (o := o) (fun k v either => either.imp
    (fun hit => by rw [hit, Option.isSome_some])
    (fun hit => resolve_isSome.mp (by rw [hit, Option.isSome_some]))) answered spent
  cases answer : (resolvedChunk o chunk found c').2 k with
  | some v =>
    rcases values v answer with (cached | hit) | ⟨_, row, kept, rfl⟩
    · rcases held.peek k v cached with hit | ⟨row, mem, same, rfl⟩
      · exact (stored v hit).symm
      · exact (created row mem same).symm
    · exact (stored v hit).symm
    · obtain ⟨pre, post, split, same, _⟩ := kept
      exact (created row (split ▸ by simp) same).symm
  | none =>
    have missing : ¬ _ := fun either => by
      have := isSome.mpr either
      rw [answer] at this
      cases this
    have absent : g.resolve k = none := by
      rw [← Option.not_isSome_iff_eq_none, resolve_isSome]
      exact fun has => missing (Or.inl (Or.inr has))
    unfold storedOrCreated
    rw [absent, Option.none_or]
    cases first : (o.outputRows chunk).find? (·.outputId = k) with
    | none => rfl
    | some row =>
      have mem := List.mem_of_find?_eq_some first
      have same : row.outputId = k := by simpa using List.find?_some first
      have kept := retained_of_hasRoom room ids mem
      rw [held.cap, ← same] at missing
      exact absurd (Or.inr ⟨row, kept⟩) missing

/-- A chunk that is committed over any cache that holds what it can hold for the chunk, and the
graph it leaves. -/
def Settles (o : IngestionOrchestrator) (g : Graph) (chunk : List LocatedBlock) (g' : Graph) :
    Prop :=
  FirstParentOk g chunk ∧
    execAll neo4j (o.chunkQueries (o.storedOrCreated g chunk) chunk) g = .ok g'

theorem run_ingestChunk_held (held : o.Held g cap chunk c) (room : o.HasRoom cap chunk)
    (plain : hasBip30 chunk = false) :
    let w := (o.ingestChunk chunk).run World.handle ⟨⟨g, none⟩, c⟩
    (w.1.isOk → ∃ g', o.Settles g chunk g' ∧ w.2.store = ⟨g', none⟩) ∧
      (¬ w.1.isOk → (¬ ∃ g', o.Settles g chunk g') ∧ w.2.store = ⟨g, none⟩) := by
  intro w
  obtain ⟨found, c₁, answered, fetched⟩ := run_prefetchUtxos none (spentKeys chunk)
    (R := fun k v => c.peek k = some v ∨ g.resolve k = some v) (fun _ _ => Or.inl)
    (fun _ _ => Or.inr)
  have agree : ∀ res g', execAll neo4j (o.chunkQueries res chunk) g = .ok g' →
      o.chunkQueries (resolvedChunk o chunk found c₁).2 chunk =
        o.chunkQueries (o.storedOrCreated g chunk) chunk := by
    intro res g' sent
    obtain ⟨g₁, created, new, _⟩ := execAll_chunkQueries.mp sent
    have rows := new (by rw [plain]; exact Bool.false_ne_true)
    have apart := rows.outputs
    rw [(coins_createBlocksFast created).1] at apart
    exact chunkQueries_congr fun k spent =>
      resolvedChunk_held held room rows.outputIds apart answered spent
  by_cases parent : FirstParentOk g chunk
  · cases sent : execAll neo4j (o.chunkQueries (resolvedChunk o chunk found c₁).2 chunk) g with
    | ok g' =>
      have ran : w = _ := run_ingestChunk_ok parent fetched sent
      rw [ran]
      refine ⟨fun _ => ⟨g', ⟨parent, ?_⟩, rfl⟩, fun failed => absurd rfl failed⟩
      rw [← agree _ g' sent]
      exact sent
    | error e =>
      obtain ⟨err, g', c', outside, ran⟩ := run_ingestChunk_refused parent fetched sent
      have same : besideChunk o chunk g = g := by
        unfold besideChunk
        rw [plain]
        rfl
      rw [same, or_self] at outside
      have ran' : w = _ := ran
      rw [ran', outside]
      refine ⟨fun ok => (by cases ok), fun _ => ⟨fun ⟨g', settles⟩ => ?_, rfl⟩⟩
      have accepted := settles.2
      rw [← agree _ g' accepted, sent] at accepted
      cases accepted
  · have orphan : ¬ FirstParentOk (Store.committed (E := neo4j) ⟨g, none⟩) chunk := parent
    obtain ⟨first, actual, head, stored, ran⟩ := run_ingestChunk_orphan (o := o) (c := c) orphan
    have ran' : w = _ := ran
    rw [ran']
    exact ⟨fun ok => (by cases ok), fun _ => ⟨fun ⟨_, settles⟩ => parent settles.1, rfl⟩⟩

/-- A batch of one chunk does what the chunk does. -/
theorem run_batch_single {blocks : List LocatedBlock} (single : o.adaptiveChunks blocks = [blocks])
    {σ : Type} (h : Prog.Handler (Client neo4j UtxoCache WriterError) σ) (s : σ) :
    ((o.ingestBlocksBatch blocks).run h s).1.isOk = ((o.ingestChunk blocks).run h s).1.isOk ∧
      ((o.ingestBlocksBatch blocks).run h s).2 = ((o.ingestChunk blocks).run h s).2 := by
  unfold ingestBlocksBatch
  rw [single, ingestChunks, Prog.run_bind]
  cases (o.ingestChunk blocks).run h s with
  | mk outcome s' => cases outcome <;> exact ⟨rfl, rfl⟩

/-- **Retry.** A call of a batch of one chunk without BIP30 heights fails, over a cache with room
for the outputs of the chunk. Nothing is committed, and a second attempt with the cache that is left
succeeds iff one over the old cache would have, and leaves the same graph and checkpoint. -/
theorem retry_after_failure {blocks : List LocatedBlock} (coherent : Coherent g c)
    (room : o.HasRoom c.cap blocks) (single : o.adaptiveChunks blocks = [blocks])
    (plain : hasBip30 blocks = false) {n : ℕ} {r : Except WriterError BatchStats}
    {w : World neo4j UtxoCache}
    (failed : (o.ingestBlocksBatch blocks).run (World.handleFaulty fault)
      ⟨⟨⟨g, none⟩, c⟩, some n⟩ = (r, ⟨w, none⟩)) :
    let first := (o.ingestBlocksBatch blocks).run World.handle ⟨⟨g, none⟩, c⟩
    let second := (o.ingestBlocksBatch blocks).run World.handle w
    ¬ r.isOk ∧ w.store = ⟨g, none⟩ ∧ (second.1.isOk ↔ first.1.isOk) ∧
      second.2.store = first.2.store := by
  intro first second
  obtain ⟨failedOk, failedState⟩ := run_batch_single single (World.handleFaulty fault)
    ⟨⟨⟨g, none⟩, c⟩, some n⟩
  obtain ⟨firstOk, firstState⟩ := run_batch_single single World.handle ⟨⟨g, none⟩, c⟩
  obtain ⟨secondOk, secondState⟩ := run_batch_single single World.handle w
  rw [failed] at failedOk failedState
  have held : o.Held g c.cap blocks c := .of_coherent coherent
  have start : o.Unharmed g false c.cap blocks ⟨⟨⟨g, none⟩, c⟩, some n⟩ := ⟨⟨rfl, rfl⟩, held⟩
  generalize chunk : (o.ingestChunk blocks).run (World.handleFaulty fault)
    ⟨⟨⟨g, none⟩, c⟩, some n⟩ = result at failedOk failedState
  obtain ⟨outcome, after⟩ := result
  obtain rfl : after = ⟨w, none⟩ := failedState.symm
  have fired : ¬ (⟨w, none⟩ : Faulty (World neo4j UtxoCache)).Intact := Bool.false_ne_true
  obtain ⟨⟨e, rfl⟩, ⟨same, free⟩, left⟩ := failed_ingestChunk plain start
    (show (some n).isSome from rfl) fired chunk
  have free' : w.store.active = none := Option.not_isSome_iff_eq_none.mp (by
    rw [show w.store.active.isSome = false from free]
    exact Bool.false_ne_true)
  have store : w.store = ⟨g, none⟩ := by
    rw [← free', ← show w.store.committed = g from same]
  obtain ⟨store', memory⟩ := w
  obtain rfl : store' = ⟨g, none⟩ := store
  have ran := run_ingestChunk_held held room plain
  have ran' := run_ingestChunk_held left room plain
  have agree : ((o.ingestChunk blocks).run World.handle ⟨⟨g, none⟩, memory⟩).1.isOk ↔
      ((o.ingestChunk blocks).run World.handle ⟨⟨g, none⟩, c⟩).1.isOk := by
    constructor
    · intro ok
      by_contra failing
      obtain ⟨g', settles, _⟩ := ran'.1 ok
      exact (ran.2 failing).1 ⟨g', settles⟩
    · intro ok
      by_contra failing
      obtain ⟨g', settles, _⟩ := ran.1 ok
      exact (ran'.2 failing).1 ⟨g', settles⟩
  refine ⟨?_, rfl, ?_, ?_⟩
  · rw [show r.isOk = false from failedOk]
    exact Bool.false_ne_true
  · rw [firstOk, secondOk]
    exact agree
  · rw [firstState, secondState]
    by_cases ok : ((o.ingestChunk blocks).run World.handle ⟨⟨g, none⟩, c⟩).1.isOk
    · obtain ⟨g₁, settles, here⟩ := ran.1 ok
      obtain ⟨g₂, settles', there⟩ := ran'.1 (agree.mpr ok)
      rw [here, there, Except.ok.inj (settles.2.symm.trans settles'.2)]
    · rw [(ran.2 ok).2, (ran'.2 fun ok' => ok (agree.mp ok')).2]

end Retry

end IngestionOrchestrator

/-- Two blocks in one chunk, the second spending an output of the first. The statement that creates
their inputs fails, when the cache already has their outputs, and the second attempt succeeds. -/
theorem retry_after_failure_sample :
    let ingest := (Sample.orchestrator 1000000).ingestBlocksBatch [Sample.first, Sample.second]
    let failed := ingest.run (World.handleFaulty DbFault.elapsed)
      ⟨⟨⟨.empty, none⟩, .new 64⟩, some 6⟩
    failed.2.state.memory.len = 4 ∧ (ingest.run World.handle ⟨⟨.empty, none⟩, .new 64⟩).1.isOk ∧
      ¬ failed.1.isOk ∧ failed.2.state.store = ⟨.empty, none⟩ ∧
      ((ingest.run World.handle failed.2.state).1.isOk ↔
        (ingest.run World.handle ⟨⟨.empty, none⟩, .new 64⟩).1.isOk) ∧
      (ingest.run World.handle failed.2.state).2.store =
        (ingest.run World.handle ⟨⟨.empty, none⟩, .new 64⟩).2.store := by
  refine ⟨by decide +kernel, by decide +kernel, ?_⟩
  have room : (Sample.orchestrator 1000000).HasRoom (UtxoCache.new 64).cap
      [Sample.first, Sample.second] := IngestionOrchestrator.hasRoom_of_length (by decide +kernel)
  have fired : (((Sample.orchestrator 1000000).ingestBlocksBatch [Sample.first, Sample.second]).run
      (World.handleFaulty DbFault.elapsed) ⟨⟨⟨.empty, none⟩, .new 64⟩, some 6⟩).2.left = none := by
    decide +kernel
  exact IngestionOrchestrator.retry_after_failure (coherent_new .empty 64) room
    (by decide +kernel) (by decide) (Faulty.eq_of_fired fired)

end ChainGraph

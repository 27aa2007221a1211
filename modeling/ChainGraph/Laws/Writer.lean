import ChainGraph.Writer.Neo4j

/-!
# What the writer's methods send

Every writing method is described by the list of queries it sends: directly when no transaction is
active, and inside the transaction when one is. `write_outputs` is the exception; with a
transaction active it still sends directly, beside the transaction.

Sub-batching does not show in the effect: a query that takes its rows one after the other does the
same to the graph whether its rows come in one list or in parts.
-/

namespace ChainGraph

open Foundation Foundation.Store

/-! ## Parts of a list -/

section Chunks

variable {α : Type}

theorem flatten_chunksFrom {n fuel : ℕ} (pos : 0 < n) {l : List α} (enough : l.length ≤ fuel) :
    (chunksFrom n fuel l).flatten = l := by
  induction fuel generalizing l with
  | zero =>
    cases l with
    | nil => rfl
    | cons a l => simp at enough
  | succ fuel ih =>
    cases l with
    | nil => rfl
    | cons a l =>
      have shorter : ((a :: l).drop n).length ≤ fuel := by
        rw [List.length_drop]
        omega
      show (a :: l).take n ++ (chunksFrom n fuel ((a :: l).drop n)).flatten = a :: l
      rw [ih shorter, List.take_append_drop]

/-- The parts, put together again, are the list. -/
theorem flatten_chunks {n : ℕ} (pos : 0 < n) (l : List α) : (chunks n l).flatten = l :=
  flatten_chunksFrom pos (Nat.le_refl _)

/-- A part's elements come from the list. -/
theorem mem_of_mem_chunks {n : ℕ} (pos : 0 < n) {l c : List α} (hc : c ∈ chunks n l) {a : α}
    (ha : a ∈ c) : a ∈ l := by
  rw [← flatten_chunks pos l]
  exact List.mem_flatten.mpr ⟨c, hc, ha⟩

end Chunks

/-! ## Sending -/

namespace Neo4jWriter

variable {w : Neo4jWriter} {name : String} {q : Query} {i n r retries : ℕ}

theorem run_runWithRetry_ok {s : Store neo4j} {g : Graph}
    (h : Query.exec q s.committed = .ok g) :
    (w.runWithRetry name q i n r retries).run handle s =
      (.ok (), ⟨g, s.active.map (applied (E := neo4j) q)⟩) := by
  have served := handle_autoRun_ok (E := neo4j) h
  cases retries <;>
  · unfold runWithRetry call
    rw [Prog.run_bind, Prog.run_perform, served]
    rfl

variable (w name i n r retries) in
theorem run_runWithRetry_error {s : Store neo4j} {f : DbFault}
    (h : Query.exec q s.committed = .error f) :
    ∃ e, (w.runWithRetry name q i n r retries).run handle s = (.error e, s) := by
  have served := handle_autoRun_error (E := neo4j) h
  induction retries with
  | zero =>
    unfold runWithRetry call
    rw [Prog.run_bind, Prog.run_perform, served]
    exact ⟨_, rfl⟩
  | succ retries ih =>
    unfold runWithRetry call
    rw [Prog.run_bind, Prog.run_perform, served]
    by_cases again : (w.queryError name i n r f).isRetryable
    · simp only [again, if_true]
      exact ih
    · simp only [again]
      exact ⟨_, rfl⟩

theorem direct_runWithRetry : Direct (w.runWithRetry name q i n r retries) [q] where
  ok h := by
    rw [execAll_singleton] at h
    exact run_runWithRetry_ok h
  error {g f} h := by
    rw [execAll_singleton] at h
    obtain ⟨e, ran⟩ := run_runWithRetry_error w name i n r retries (s := ⟨g, none⟩) h
    exact ⟨e, g, ran⟩

theorem beside_runWithRetry : Beside (w.runWithRetry name q i n r retries) [q] where
  ok {g g' v v'} h hv := by
    rw [execAll_singleton] at h hv
    rw [run_runWithRetry_ok h, Option.map_some, applied_ok (E := neo4j) hv]

theorem within_runInTxn : Within (runInTxn name q i n) [q] where
  ok {g v v'} h := by
    rw [execAll_singleton] at h
    have served := handle_txnRun_ok (E := neo4j) (d := g) h
    unfold runInTxn call
    rw [Prog.run_bind, Prog.run_perform, served]
    rfl
  error {g v f} h := by
    rw [execAll_singleton] at h
    have served := handle_txnRun_error (E := neo4j) (d := g) h
    unfold runInTxn call
    rw [Prog.run_bind, Prog.run_perform, served]
    exact ⟨_, v, rfl⟩

section Batches

variable {α : Type} {body : ℕ → List α → Io Unit} {qs : List α → List Query}

theorem direct_eachBatch (each : ∀ i c, Direct (body i c) (qs c)) (i : ℕ) (cs : List (List α)) :
    Direct (eachBatch body i cs) (cs.flatMap qs) := by
  induction cs generalizing i with
  | nil => exact .done
  | cons c cs ih => exact (each i c).seq (ih (i + 1))

theorem within_eachBatch (each : ∀ i c, Within (body i c) (qs c)) (i : ℕ) (cs : List (List α)) :
    Within (eachBatch body i cs) (cs.flatMap qs) := by
  induction cs generalizing i with
  | nil => exact .done
  | cons c cs ih => exact (each i c).seq (ih (i + 1))

theorem beside_eachBatch (each : ∀ i c, Beside (body i c) (qs c)) (i : ℕ) (cs : List (List α)) :
    Beside (eachBatch body i cs) (cs.flatMap qs) := by
  induction cs generalizing i with
  | nil => exact .done
  | cons c cs ih => exact (each i c).seq (ih (i + 1))

end Batches

section Batched

variable {α : Type} {items : List α} {query : List α → Query}

/-- The sub-batch queries of a batched method. -/
def batchQueries (w : Neo4jWriter) (query : List α → Query) (items : List α) : List Query :=
  (chunks w.batchSize items).flatMap fun c => [query c]

theorem direct_executeBatched :
    Direct (w.executeBatched items query name) (batchQueries w query items) := by
  unfold executeBatched
  by_cases empty : items.isEmpty
  · rw [if_pos empty, List.isEmpty_iff.mp empty]
    exact .done
  · rw [if_neg empty]
    have each : ∀ i c, Direct (w.runWithRetry name (query c) i
        (chunks w.batchSize items).length c.length w.maxRetries) [query c] :=
      fun _ _ => direct_runWithRetry
    have sent := direct_eachBatch each 1 (chunks w.batchSize items)
    exact ⟨fun h => sent.ok h, fun h => sent.error h⟩

theorem within_executeBatched :
    Within (w.executeBatched items query name) (batchQueries w query items) := by
  unfold executeBatched
  by_cases empty : items.isEmpty
  · rw [if_pos empty, List.isEmpty_iff.mp empty]
    exact .done
  · rw [if_neg empty]
    have each : ∀ i c, Within (runInTxn name (query c) i (chunks w.batchSize items).length)
        [query c] := fun _ _ => within_runInTxn
    have sent := within_eachBatch each 1 (chunks w.batchSize items)
    exact ⟨fun h => sent.ok h, fun h => sent.error h⟩

end Batched

/-- The second query of `write_outputs` for a sub-batch, if it has rows. -/
def lockedToQueries (c : List OutputData) : List Query :=
  if (filterOutputsWithAddress c).isEmpty then []
  else [.createLockedTo (filterOutputsWithAddress c)]

/-- The queries of `write_outputs`. -/
def outputQueries (w : Neo4jWriter) (outputs : List OutputData) : List Query :=
  (chunks w.batchSize outputs).flatMap fun c => [.createOutputs c] ++ lockedToQueries c

variable {outputs : List OutputData}

theorem direct_writeOutputs : Direct (w.writeOutputs outputs) (w.outputQueries outputs) := by
  refine direct_eachBatch (fun i c => ?_) 1 _
  show Direct (E := neo4j) _ ([.createOutputs c] ++ lockedToQueries c)
  refine direct_runWithRetry.seq ?_
  unfold lockedToQueries
  by_cases none : (filterOutputsWithAddress c).isEmpty
  · simp only [none, if_true]
    exact .done
  · simp only [none]
    exact direct_runWithRetry

/-- With a transaction active, `write_outputs` still goes to the database directly. -/
theorem beside_writeOutputs : Beside (w.writeOutputs outputs) (w.outputQueries outputs) := by
  refine beside_eachBatch (fun i c => ?_) 1 _
  show Beside (E := neo4j) _ ([.createOutputs c] ++ lockedToQueries c)
  refine beside_runWithRetry.seq ?_
  unfold lockedToQueries
  by_cases none : (filterOutputsWithAddress c).isEmpty
  · simp only [none, if_true]
    exact .done
  · simp only [none]
    exact beside_runWithRetry

variable {checkpoint : CheckpointData}

theorem direct_updateCheckpoint :
    Direct (updateCheckpoint checkpoint) [.updateCheckpoint checkpoint] where
  ok h := by
    rw [execAll_singleton] at h
    cases h
    rfl
  error h := by
    rw [execAll_singleton] at h
    cases h

theorem within_updateCheckpoint :
    Within (updateCheckpoint checkpoint) [.updateCheckpoint checkpoint] where
  ok h := by
    rw [execAll_singleton] at h
    cases h
    rfl
  error h := by
    rw [execAll_singleton] at h
    cases h

theorem direct_runDirect {failed : DbFault → WriterError} : Direct (runDirect q failed) [q] where
  ok {g g'} h := by
    rw [execAll_singleton] at h
    have served := handle_autoRun_ok (E := neo4j) (s := ⟨g, none⟩) h
    unfold runDirect call
    rw [Prog.run_bind, Prog.run_perform, served]
    rfl
  error {g f} h := by
    rw [execAll_singleton] at h
    have served := handle_autoRun_error (E := neo4j) (s := ⟨g, none⟩) h
    unfold runDirect call
    rw [Prog.run_bind, Prog.run_perform, served]
    exact ⟨_, g, rfl⟩

theorem direct_rollbackBlock (height : ℕ) :
    Direct (rollbackBlock height) ((rollbackSteps height).map Prod.fst) := by
  unfold rollbackBlock
  rw [List.forM_eq_forM]
  induction rollbackSteps height with
  | nil => exact .done
  | cons step steps ih =>
    rw [List.forM_cons]
    exact direct_runDirect.seq ih

/-! ## Reads -/

/-- A read answers from the committed graph and changes nothing. -/
@[simp] theorem run_readGraph {failed : DbFault → WriterError} (s : Store neo4j) :
    (readGraph failed).run handle s = (.ok s.committed, s) := rfl

@[simp] theorem run_lookupBlockHash (height : ℕ) (s : Store neo4j) :
    (w.lookupBlockHash height).run handle s = (.ok (s.committed.lookupBlockHash height), s) := rfl

@[simp] theorem run_lookupOutputsBatch (ids : List OutputId) (s : Store neo4j) :
    (lookupOutputsBatch ids).run handle s = (.ok (s.committed.lookupOutputsBatch ids), s) := by
  unfold lookupOutputsBatch
  cases ids with
  | nil => rfl
  | cons id ids => rfl

@[simp] theorem run_getMaxBlockHeight (s : Store neo4j) :
    getMaxBlockHeight.run handle s = (.ok s.committed.getMaxBlockHeight, s) := rfl

@[simp] theorem run_checkBlockComplete (height : ℕ) (s : Store neo4j) :
    (checkBlockComplete height).run handle s = (s.committed.checkBlockComplete height, s) := by
  unfold checkBlockComplete
  rw [Prog.run_bind, run_readGraph]
  exact Prog.run_ofExcept ..

@[simp] theorem run_getCheckpoint (s : Store neo4j) :
    w.getCheckpoint.run handle s = (.ok s.committed.getCheckpoint, s) := rfl

/-! ## Transactions -/

@[simp] theorem run_beginTransaction (g : Graph) :
    beginTransaction.run handle ⟨g, none⟩ = (.ok (), ⟨g, some g⟩) := rfl

@[simp] theorem run_commitTransaction (g v : Graph) :
    commitTransaction.run handle ⟨g, some v⟩ = (.ok (), ⟨v, none⟩) := rfl

@[simp] theorem run_rollbackTransaction (g v : Graph) :
    rollbackTransaction.run handle ⟨g, some v⟩ = (.ok (), ⟨g, none⟩) := rfl

/-! ## Which statements a method can send, whatever the answers -/

section Sends

open Session

variable {P : Query → Prop}

/-- Every statement the program can send is in `P`, and it leaves the transaction slot alone. -/
abbrev OnlySends (P : Query → Prop) {α : Type} (p : Io α) : Prop :=
  p.Always (Op.Sends (E := neo4j) P)

theorem sends_runWithRetry (h : P q) : OnlySends P (w.runWithRetry name q i n r retries) := by
  induction retries with
  | zero =>
    refine ⟨h, fun answer => ?_⟩
    cases answer <;> trivial
  | succ retries ih =>
    refine ⟨h, fun answer => ?_⟩
    cases answer with
    | ok u => trivial
    | error e =>
      show OnlySends P (if (w.queryError name i n r e).isRetryable then _ else _)
      split
      · exact ih
      · trivial

theorem sends_runInTxn (h : P q) : OnlySends P (runInTxn name q i n) := by
  refine ⟨h, fun answer => ?_⟩
  cases answer with
  | ok b => cases b <;> trivial
  | error e => trivial

theorem sends_eachBatch {α : Type} {body : ℕ → List α → Io Unit} {cs : List (List α)}
    (each : ∀ i, ∀ c ∈ cs, OnlySends P (body i c)) (i : ℕ) :
    OnlySends P (eachBatch body i cs) := by
  induction cs generalizing i with
  | nil => trivial
  | cons c cs ih =>
    apply (each i c List.mem_cons_self).bind
    intro _
    exact ih (fun i c among => each i c (List.mem_cons_of_mem _ among)) (i + 1)

theorem sends_executeBatched {α : Type} {items : List α} {query : List α → Query}
    (h : ∀ c ∈ chunks w.batchSize items, P (query c)) :
    OnlySends P (w.executeBatched items query name) := by
  unfold executeBatched
  split
  · trivial
  · refine ⟨trivial, fun useTxn => sends_eachBatch (fun i c among => ?_) 1⟩
    cases useTxn
    · exact sends_runWithRetry (h c among)
    · exact sends_runInTxn (h c among)

theorem sends_updateCheckpoint (h : P (.updateCheckpoint checkpoint)) :
    OnlySends P (updateCheckpoint checkpoint) := by
  refine ⟨h, fun answer => ?_⟩
  cases answer with
  | error e => trivial
  | ok b =>
    cases b with
    | true => trivial
    | false =>
      refine ⟨h, fun answer => ?_⟩
      cases answer <;> trivial

end Sends

end Neo4jWriter

/-! ## Rows in parts -/

section Rows

variable {α : Type} {w : Neo4jWriter} {query : List α → Query}

/-- A query that takes its rows one after the other takes them in parts to the same effect. -/
theorem execAll_batchQueries {f : Graph → α → Except DbFault Graph}
    (rowwise : ∀ rows g, (query rows).exec g = rows.foldlM f g) (items : List α) (g : Graph) :
    execAll neo4j (w.batchQueries query items) g = items.foldlM f g := by
  have parts : ∀ (cs : List (List α)) (g : Graph),
      execAll neo4j (cs.flatMap fun c => [query c]) g = cs.flatten.foldlM f g := by
    intro cs
    induction cs with
    | nil => exact fun g => rfl
    | cons c cs ih =>
      intro g
      rw [List.flatMap_cons, execAll_append, execAll_singleton, List.flatten_cons,
        List.foldlM_append]
      show (query c).exec g >>= _ = _
      rw [rowwise]
      exact congrArg _ (funext fun g => ih g)
  rw [Neo4jWriter.batchQueries, parts, flatten_chunks w.batchSize_pos]

/-- A fold that never fails is a plain fold. -/
theorem foldlM_ok {β γ ε : Type} (f : γ → β → γ) (l : List β) (g : γ) :
    l.foldlM (fun g b => (.ok (f g b) : Except ε γ)) g = .ok (l.foldl f g) := by
  induction l generalizing g with
  | nil => rfl
  | cons b l ih => exact ih (f g b)

/-- The same for a query whose rows cannot be refused. -/
theorem execAll_batchQueries_total {f : Graph → α → Graph}
    (rowwise : ∀ rows g, (query rows).exec g = .ok (rows.foldl f g)) (items : List α)
    (g : Graph) : execAll neo4j (w.batchQueries query items) g = .ok (items.foldl f g) := by
  rw [execAll_batchQueries (f := fun g a => .ok (f g a)), foldlM_ok]
  intro rows g
  rw [rowwise, foldlM_ok]

end Rows

end ChainGraph

import ChainGraph.Foundation.Delivery
import ChainGraph.Laws.Idempotence
import ChainGraph.Laws.Torn

/-!
# The writer over a connection that loses calls

Outside a transaction a batched method sends a statement again when its error may pass, without
knowing whether it took effect. Every statement it sends so merges, and is repeatable: the method
delivers its statements, each of them as if it had been executed once.
-/

namespace ChainGraph

open Foundation Foundation.Store

/-! ## Statements that may be sent again -/

section Repeatable

theorem repeatable_of_twice {q : Query} {f : Graph → Graph} (effect : ∀ g, q.exec g = .ok (f g))
    (twice : ∀ g, f (f g) = f g) : Repeatable neo4j q := by
  intro g g' ran
  obtain rfl : f g = g' := Except.ok.inj ((effect g).symm.trans ran)
  exact (effect (f g)).trans (congrArg Except.ok (twice g))

theorem repeatable_createOutputs (rows : List OutputData) :
    Repeatable neo4j (.createOutputs rows) := by
  refine repeatable_of_twice (fun _ => rfl) fun g => ?_
  rw [Graph.foldl_mergeOutput_eq, Graph.foldl_mergeOutput_eq]
  dsimp only
  rw [Table.foldl_upsert_twice]

theorem repeatable_createTransactions (rows : List TransactionData) :
    Repeatable neo4j (.createTransactions rows) := by
  refine repeatable_of_twice (fun _ => rfl) fun g => ?_
  rw [Graph.foldl_putTransaction_eq rows g, Graph.foldl_putTransaction_eq]
  apply Graph.ext
  case transactions => exact Table.foldl_upsert_twice _ _
  case includedIn => exact foldl_mergeLink_twice _ _
  all_goals rfl

theorem repeatable_createHasOutput (rows : List OutputData) :
    Repeatable neo4j (.createHasOutput rows) := by
  refine repeatable_of_twice (fun _ => rfl) fun g => ?_
  rw [Graph.foldl_putHasOutput_eq rows g, Graph.foldl_putHasOutput_eq]
  apply Graph.ext
  case hasOutput => exact foldl_mergeLink_twice _ _
  all_goals rfl

theorem repeatable_createInputs (rows : List InputData) :
    Repeatable neo4j (.createInputs rows) := by
  refine repeatable_of_twice (fun _ => rfl) fun g => ?_
  rw [Graph.foldl_putInput_eq rows g, Graph.foldl_putInput_eq]
  apply Graph.ext
  case inputs => exact Table.foldl_upsert_twice _ _
  case hasInput => exact foldl_mergeLink_twice _ _
  case spends => exact foldl_mergeLink_twice _ _
  all_goals rfl

theorem repeatable_createPerformsBulk (rows : List PerformsData) :
    Repeatable neo4j (.createPerformsBulk rows) := by
  refine repeatable_of_twice (fun _ => rfl) fun g => ?_
  rw [Graph.foldl_mergePerforms_eq rows g, Graph.foldl_mergePerforms_eq]
  apply Graph.ext
  case addresses => simp only [Finset.union_assoc, Finset.union_self]
  case performs => exact Table.foldl_upsert_twice _ _
  all_goals rfl

theorem repeatable_createBenefitsToBulk (rows : List BenefitsToData) :
    Repeatable neo4j (.createBenefitsToBulk rows) := by
  refine repeatable_of_twice (fun _ => rfl) fun g => ?_
  rw [Graph.foldl_mergeBenefitsTo_eq rows g, Graph.foldl_mergeBenefitsTo_eq]
  apply Graph.ext
  case addresses => simp only [Finset.union_assoc, Finset.union_self]
  case benefitsTo => exact Table.foldl_upsert_twice _ _
  all_goals rfl

theorem repeatable_updateCheckpoint (checkpoint : CheckpointData) :
    Repeatable neo4j (.updateCheckpoint checkpoint) :=
  repeatable_of_twice (fun _ => rfl) fun _ => rfl

theorem repeatable_createBlocks (b : BlockData) : Repeatable neo4j (.createBlocks [b]) :=
  fun _ _ ran => Graph.exec_createBlocks_one_again ran rfl rfl

/-- Rows with addresses: those whose output is stored are taken, and the others are dropped. -/
theorem Graph.foldlM_mergeLockedTo_addressed {rows : List OutputData} (g : Graph)
    (addressed : ∀ out ∈ rows, out.address.isSome) :
    rows.foldlM Graph.mergeLockedTo g =
      .ok ((rows.filter fun out => g.outputs.Has out.outputId).foldl (lockRow mergeLink) g) := by
  induction rows generalizing g with
  | nil => rfl
  | cons out rows ih =>
    obtain ⟨here, later⟩ := List.forall_mem_cons.mp addressed
    obtain ⟨a, has⟩ := Option.isSome_iff_exists.mp here
    rw [List.foldlM_cons, List.filter_cons]
    unfold mergeLockedTo
    by_cases stored : g.outputs.Has out.outputId
    · have locked : g.lockTo mergeLink out.outputId a = lockRow mergeLink g out := by
        unfold lockRow
        rw [has]
      simp only [stored, if_true, has, decide_true]
      rw [locked]
      refine (ih (lockRow mergeLink g out) later).trans ?_
      rw [outputs_lockRow, List.foldl_cons]
    · simp only [stored, if_false, decide_false, Bool.false_eq_true]
      exact ih g later

theorem Graph.foldl_lockRow_eq (rows : List OutputData) (g : Graph) :
    rows.foldl (lockRow mergeLink) g =
      { g with
        addresses := g.addresses ∪ (rows.filterMap (·.address)).toFinset
        lockedTo := (rows.filterMap fun out => out.address.map fun a => (out.outputId, a)).foldl
          mergeLink g.lockedTo } := by
  induction rows generalizing g with
  | nil => simp
  | cons out rows ih =>
    rw [List.foldl_cons, ih]
    cases address : out.address with
    | none => simp [lockRow, address]
    | some a => simp [lockRow, address, lockTo, Finset.insert_union, Finset.union_insert]

theorem repeatable_createLockedTo {rows : List OutputData}
    (addressed : ∀ out ∈ rows, out.address.isSome) : Repeatable neo4j (.createLockedTo rows) := by
  refine repeatable_of_twice (fun g => Graph.foldlM_mergeLockedTo_addressed g addressed) fun g => ?_
  rw [Graph.foldl_lockRow_eq _ g, Graph.foldl_lockRow_eq]
  apply Graph.ext
  case addresses => simp only [Finset.union_assoc, Finset.union_self]
  case lockedTo => exact foldl_mergeLink_twice _ _
  all_goals rfl

end Repeatable

/-! ## The writer's methods -/

namespace Neo4jWriter

variable {w : Neo4jWriter} {q : Query} {name : String} {i n r retries : ℕ} {g : Graph}

/-- A statement after which nothing is sent: it has been executed, or after a failure perhaps. -/
theorem holds_autoRun {f : Except DbFault Unit → Io Unit} {post : Except WriterError Unit →
      Store neo4j → Prop} (ok : ∀ g', q.exec g = .ok g' → (f (.ok ())).Holds (Session.lossy neo4j)
      post ⟨g', none⟩) (lost : ∀ e, (f (.error e)).Holds (Session.lossy neo4j) post ⟨g, none⟩)
    (unanswered : ∀ e g', q.exec g = .ok g' → (f (.error e)).Holds (Session.lossy neo4j) post
      ⟨g', none⟩) : (call (.autoRun q) >>= f).Holds (Session.lossy neo4j) post ⟨g, none⟩ := by
  refine ⟨trivial, fun answer s served => ?_⟩
  rcases lossy_autoRun served with ⟨rfl, g', ran, rfl⟩ | ⟨e, rfl, rfl | ⟨g', ran, rfl⟩⟩
  · exact ok g' ran
  · exact lost e
  · exact unanswered e g' ran

theorem execAll_one {g' : Graph} (ran : q.exec g = .ok g') : execAll neo4j [q] g = .ok g' :=
  (execAll_singleton (E := neo4j) q g).trans ran

/-- A failure after which a single statement may have been executed. -/
theorem delivered_error {e : WriterError} {g' : Graph} (ran : g' = g ∨ q.exec g = .ok g') :
    Delivered (E := neo4j) (ε := WriterError) [q] g (.error e) ⟨g', none⟩ := by
  rcases ran with rfl | ran
  · exact ⟨[], List.nil_prefix, g', rfl, rfl⟩
  · exact ⟨[q], List.prefix_rfl, g', execAll_one ran, rfl⟩

theorem delivers_runDirect {failed : DbFault → WriterError} :
    Delivers (runDirect q failed) [q] := by
  intro g
  refine holds_autoRun (fun g' ran => ?_) (fun e => ?_) fun e g' ran => ?_
  · exact ⟨g', execAll_one ran, rfl⟩
  · exact delivered_error (Or.inl rfl)
  · exact delivered_error (Or.inr ran)

/-- A statement that is sent again may have been executed before. -/
theorem delivers_runWithRetry (repeatable : Repeatable neo4j q) :
    Delivers (w.runWithRetry name q i n r retries) [q] := by
  intro g
  suffices any : ∀ g', g' = g ∨ q.exec g = .ok g' →
      (w.runWithRetry name q i n r retries).Holds (Session.lossy neo4j)
        (Delivered (E := neo4j) [q] g) ⟨g', none⟩ from any g (Or.inl rfl)
  have again : ∀ {g' g''}, g' = g ∨ q.exec g = .ok g' → q.exec g' = .ok g'' →
      q.exec g = .ok g'' := by
    intro g' g'' before ran
    rcases before with rfl | before
    · exact ran
    · rw [show q.exec g' = .ok g' from repeatable g g' before] at ran
      cases ran
      exact before
  induction retries with
  | zero =>
    intro g' before
    refine holds_autoRun (fun g'' ran => ?_) (fun e => ?_) fun e g'' ran => ?_
    · exact ⟨g'', execAll_one (again before ran), rfl⟩
    · exact delivered_error before
    · exact delivered_error (Or.inr (again before ran))
  | succ retries ih =>
    intro g' before
    refine holds_autoRun (fun g'' ran => ?_) (fun e => ?_) fun e g'' ran => ?_
    · exact ⟨g'', execAll_one (again before ran), rfl⟩
    · dsimp only
      split
      · exact ih g' before
      · exact delivered_error before
    · dsimp only
      split
      · exact ih g'' (Or.inr (again before ran))
      · exact delivered_error (Or.inr (again before ran))

section Batches

variable {α : Type} {body : ℕ → List α → Io Unit} {qs : List α → List Query} {items : List α}
  {query : List α → Query}

theorem delivers_eachBatch (each : ∀ i c, Delivers (body i c) (qs c)) (i : ℕ)
    (cs : List (List α)) : Delivers (eachBatch body i cs) (cs.flatMap qs) := by
  induction cs generalizing i with
  | nil => exact .done
  | cons c cs ih => exact (each i c).seq (ih (i + 1))

theorem delivers_executeBatched (repeatable : ∀ c, Repeatable neo4j (query c)) :
    Delivers (w.executeBatched items query name) (batchQueries w query items) := by
  unfold executeBatched
  by_cases empty : items.isEmpty
  · rw [if_pos empty, List.isEmpty_iff.mp empty]
    exact .done
  · rw [if_neg empty]
    intro g
    refine ⟨trivial, fun answer s served => ?_⟩
    rcases served with served | ⟨fault, u, failed, -⟩
    · cases served
      have each : ∀ i (c : List α), Delivers (w.runWithRetry name (query c) i
          (chunks w.batchSize items).length c.length w.maxRetries) [query c] :=
        fun i c => delivers_runWithRetry (repeatable c)
      exact delivers_eachBatch each 1 (chunks w.batchSize items) g
    · cases failed

end Batches

variable {outputs : List OutputData} {checkpoint : CheckpointData}

theorem delivers_writeOutputs : Delivers (w.writeOutputs outputs) (w.outputQueries outputs) := by
  refine delivers_eachBatch (fun i c => ?_) 1 _
  change Delivers (E := neo4j) _ ([.createOutputs c] ++ lockedToQueries c)
  apply (delivers_runWithRetry (repeatable_createOutputs c)).seq
  unfold lockedToQueries
  by_cases none : (filterOutputsWithAddress c).isEmpty
  · simp only [none, if_true]
    exact .done
  · simp only [none]
    exact delivers_runWithRetry (repeatable_createLockedTo fun out mem =>
      (List.mem_filter.mp mem).2)

theorem delivers_updateCheckpoint :
    Delivers (updateCheckpoint checkpoint) [.updateCheckpoint checkpoint] := by
  intro g
  refine ⟨trivial, fun answer s served => ?_⟩
  rcases served with served | ⟨fault, u, failed, -⟩
  · cases served
    refine holds_autoRun (fun g' ran => ?_) (fun e => ?_) fun e g' ran => ?_
    · exact ⟨g', execAll_one ran, rfl⟩
    · exact delivered_error (Or.inl rfl)
    · exact delivered_error (Or.inr ran)
  · cases failed

end Neo4jWriter

end ChainGraph

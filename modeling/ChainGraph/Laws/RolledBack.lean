import ChainGraph.Laws.AtLeastOnce
import ChainGraph.Laws.Interrupted

/-!
# A rollback over a connection that loses calls

A rollback deletes the blocks from the tip down, each with four statements, and then moves the
checkpoint. A statement that finds nothing to delete does nothing, and finds nothing to delete ever
after, whatever else is deleted. So a rollback that failed is called again with the same heights.
-/

namespace ChainGraph

open Foundation Foundation.Store

/-! ## Statements with nothing left to do -/

namespace Query

/-- A delete statement that finds nothing. -/
def Spent : Query → Graph → Prop
  | rollbackDeleteInputs height, g => ∀ e ∈ g.hasInput, ¬ g.InBlockAt height e.1
  | rollbackDeleteOutputs height, g => ∀ e ∈ g.hasOutput, ¬ g.InBlockAt height e.1
  | rollbackDeleteTransactions height, g => ∀ t, ¬ g.InBlockAt height t
  | rollbackDeleteBlock height, g => ∀ n ∈ g.blocks, n.height ≠ height
  | _, _ => False

/-- The delete statements of a rollback. -/
def Deletes : Query → Prop
  | rollbackDeleteInputs _ => True
  | rollbackDeleteOutputs _ => True
  | rollbackDeleteTransactions _ => True
  | rollbackDeleteBlock _ => True
  | _ => False

end Query

namespace Graph

variable {g g' : Graph} {q : Query}

/-- A graph with fewer blocks and links. -/
structure Shrunk (g g' : Graph) : Prop where
  blocks : ∀ n ∈ g'.blocks, n ∈ g.blocks
  includedIn : g'.includedIn ⊆ g.includedIn
  hasInput : g'.hasInput ⊆ g.hasInput
  hasOutput : g'.hasOutput ⊆ g.hasOutput

theorem Shrunk.inBlockAt (shrunk : Shrunk g g') {height : ℕ} {t : Txid}
    (inBlock : g'.InBlockAt height t) : g.InBlockAt height t := by
  obtain ⟨n, mem, same, included⟩ := inBlock
  exact ⟨n, shrunk.blocks n mem, same, shrunk.includedIn included⟩

theorem shrunk_exec (deletes : q.Deletes) (ran : q.exec g = .ok g') : Shrunk g g' := by
  cases q with
  | rollbackDeleteInputs height =>
    cases ran
    exact ⟨fun _ mem => mem, Multiset.Subset.refl _, Multiset.filter_subset _ _,
      Multiset.Subset.refl _⟩
  | rollbackDeleteOutputs height =>
    cases ran
    exact ⟨fun _ mem => mem, Multiset.Subset.refl _, Multiset.Subset.refl _,
      Multiset.filter_subset _ _⟩
  | rollbackDeleteTransactions height =>
    cases ran
    exact ⟨fun _ mem => mem, Multiset.filter_subset _ _, Multiset.filter_subset _ _,
      Multiset.filter_subset _ _⟩
  | rollbackDeleteBlock height =>
    cases ran
    refine ⟨fun n mem => (mem_blocks_detachDeleteBlockAt.mp mem).1, ?_, ?_, ?_⟩ <;>
    · unfold detachDeleteBlockAt
      split
      · exact Multiset.Subset.refl _
      · first | exact Multiset.filter_subset _ _ | exact Multiset.Subset.refl _
  | _ => exact deletes.elim

/-- What a statement has deleted stays deleted. -/
theorem spent_of_shrunk (shrunk : Shrunk g g') (spent : q.Spent g) : q.Spent g' := by
  cases q with
  | rollbackDeleteInputs height =>
    exact fun e mem inBlock => spent e (shrunk.hasInput mem) (shrunk.inBlockAt inBlock)
  | rollbackDeleteOutputs height =>
    exact fun e mem inBlock => spent e (shrunk.hasOutput mem) (shrunk.inBlockAt inBlock)
  | rollbackDeleteTransactions height =>
    exact fun t inBlock => spent t (shrunk.inBlockAt inBlock)
  | rollbackDeleteBlock height => exact fun n mem => spent n (shrunk.blocks n mem)
  | _ => exact spent.elim

theorem spent_exec (deletes : q.Deletes) (ran : q.exec g = .ok g') : q.Spent g' := by
  cases q with
  | rollbackDeleteInputs height =>
    cases ran
    intro e mem inBlock
    obtain ⟨old, kept⟩ := Multiset.mem_filter.mp mem
    exact kept ⟨e, old, rfl, inBlock⟩
  | rollbackDeleteOutputs height =>
    cases ran
    intro e mem inBlock
    obtain ⟨old, kept⟩ := Multiset.mem_filter.mp mem
    exact kept ⟨e, old, rfl, inBlock⟩
  | rollbackDeleteTransactions height =>
    cases ran
    rintro t ⟨n, mem, same, included⟩
    obtain ⟨old, kept⟩ := Multiset.mem_filter.mp included
    exact kept ⟨n, mem, same, old⟩
  | rollbackDeleteBlock height =>
    cases ran
    exact fun n mem => (mem_blocks_detachDeleteBlockAt.mp mem).2
  | _ => exact deletes.elim

theorem exec_spent (spent : q.Spent g) : q.exec g = .ok g := by
  cases q with
  | rollbackDeleteInputs height =>
    have nothing : ∀ id, ¬ g.InputOfBlockAt height id := by
      rintro id ⟨e, mem, -, inBlock⟩
      exact spent e mem inBlock
    refine congrArg Except.ok ?_
    apply Graph.ext
    case inputs => exact Table.delete_eq_self fun i _ => nothing i.inputId
    case hasInput => exact Multiset.filter_eq_self.mpr fun e _ => nothing e.2
    case spends => exact Multiset.filter_eq_self.mpr fun e _ => nothing e.1
    all_goals rfl
  | rollbackDeleteOutputs height =>
    have nothing : ∀ id, ¬ g.OutputOfBlockAt height id := by
      rintro id ⟨e, mem, -, inBlock⟩
      exact spent e mem inBlock
    refine congrArg Except.ok ?_
    apply Graph.ext
    case outputs => exact Table.delete_eq_self fun i _ => nothing i.outputId
    case hasOutput => exact Multiset.filter_eq_self.mpr fun e _ => nothing e.2
    case lockedTo => exact Multiset.filter_eq_self.mpr fun e _ => nothing e.1
    case spends => exact Multiset.filter_eq_self.mpr fun e _ => nothing e.2
    all_goals rfl
  | rollbackDeleteTransactions height =>
    refine congrArg Except.ok ?_
    apply Graph.ext
    case transactions => exact Table.delete_eq_self fun t _ => spent t.txid
    case includedIn => exact Multiset.filter_eq_self.mpr fun e _ => spent e.1
    case hasInput => exact Multiset.filter_eq_self.mpr fun e _ => spent e.1
    case hasOutput => exact Multiset.filter_eq_self.mpr fun e _ => spent e.1
    case performs => exact Table.delete_eq_self fun r _ => spent r.toTxid
    case benefitsTo => exact Table.delete_eq_self fun r _ => spent r.fromTxid
    all_goals rfl
  | rollbackDeleteBlock height =>
    refine congrArg Except.ok ?_
    unfold detachDeleteBlockAt
    rw [blockAt_eq_none.mpr spent]
  | _ => exact spent.elim

/-- Where no block is stored, there is nothing to roll back. -/
theorem rollbackBlock_eq_self {height : ℕ} (free : ∀ n ∈ g.blocks, n.height ≠ height) :
    g.rollbackBlock height = g := by
  have nowhere : ∀ t, ¬ g.InBlockAt height t := by
    rintro t ⟨n, mem, same, -⟩
    exact free n mem same
  have inputs : g.detachDeleteInputs (g.InputOfBlockAt height) = g := Except.ok.inj
    (exec_spent (q := .rollbackDeleteInputs height) fun e _ => nowhere e.1)
  have outputs : g.detachDeleteOutputs (g.OutputOfBlockAt height) = g := Except.ok.inj
    (exec_spent (q := .rollbackDeleteOutputs height) fun e _ => nowhere e.1)
  have transactions : g.detachDeleteTransactions (g.InBlockAt height) = g := Except.ok.inj
    (exec_spent (q := .rollbackDeleteTransactions height) nowhere)
  have block : g.detachDeleteBlockAt height = g := Except.ok.inj
    (exec_spent (q := .rollbackDeleteBlock height) free)
  unfold rollbackBlock
  dsimp only
  rw [inputs, outputs, transactions, block]

/-- Above the highest block a rollback does nothing. -/
theorem foldl_rollbackBlock_eq_self {heights : List ℕ}
    (free : ∀ n ∈ g.blocks, n.height ∉ heights) : heights.foldl rollbackBlock g = g := by
  induction heights with
  | nil => rfl
  | cons height heights ih =>
    rw [List.foldl_cons, rollbackBlock_eq_self fun n mem same =>
      free n mem (same ▸ List.mem_cons_self)]
    exact ih fun n mem inRest => free n mem (List.mem_cons_of_mem height inRest)

/-- A rollback from above the highest block. -/
theorem rollbackTo_of_le {tip currentTip forkPoint : ℕ} (below : ∀ n ∈ g.blocks, n.height ≤ tip)
    (le : tip ≤ currentTip) : g.rollbackTo currentTip forkPoint =
      if forkPoint < tip then g.rollbackTo tip forkPoint
      else if forkPoint < currentTip then g.checkpointAt forkPoint else g := by
  unfold rollbackTo
  by_cases inside : forkPoint < tip
  · have heights : IngestionOrchestrator.heightsDown (forkPoint + 1) currentTip =
        IngestionOrchestrator.heightsDown (tip + 1) currentTip ++
          IngestionOrchestrator.heightsDown (forkPoint + 1) tip := by
      have first : tip + 1 = forkPoint + 1 + (tip + 1 - (forkPoint + 1)) := by omega
      have count : currentTip + 1 - (forkPoint + 1) =
          tip + 1 - (forkPoint + 1) + (currentTip + 1 - (tip + 1)) := by omega
      unfold IngestionOrchestrator.heightsDown
      rw [← List.reverse_append, count, ← List.range'_append_1, ← first]
    have beyond : (IngestionOrchestrator.heightsDown (tip + 1) currentTip).foldl rollbackBlock g =
        g := foldl_rollbackBlock_eq_self fun n mem high => by
      have low := below n mem
      have above := (mem_heightsDown.mp high).1
      omega
    rw [if_neg (by omega), if_pos inside, if_neg (by omega), heights, List.foldl_append, beyond]
  · rw [if_neg inside]
    by_cases above : forkPoint < currentTip
    · rw [if_neg (by omega), if_pos above, foldl_rollbackBlock_eq_self]
      intro n mem high
      have low := below n mem
      have first := (mem_heightsDown.mp high).1
      omega
    · rw [if_pos (by omega), if_neg above]

end Graph

namespace IngestionOrchestrator

open Neo4jWriter

variable {o : IngestionOrchestrator} {g x y : Graph} {currentTip forkPoint : ℕ}

theorem deletes_deletes : ∀ q ∈ deletes currentTip forkPoint, q.Deletes := by
  intro q mem
  obtain ⟨height, -, step⟩ := List.mem_flatMap.mp mem
  simp only [rollbackQueries, rollbackSteps, List.map_cons, List.map_nil, List.mem_cons,
    List.not_mem_nil, or_false] at step
  rcases step with rfl | rfl | rfl | rfl <;> trivial

theorem settles_deletes : ∀ q ∈ deletes currentTip forkPoint, ∀ g g' : Graph,
    q.exec g = .ok g' → q.Spent g' :=
  fun q mem _ _ ran => Graph.spent_exec (deletes_deletes q mem) ran

theorem stays_deletes : ∀ q ∈ deletes currentTip forkPoint, ∀ r ∈ deletes currentTip forkPoint,
    ∀ g g' : Graph, q.Spent g → r.exec g = .ok g' → q.Spent g' :=
  fun _ _ r mem _ _ spent ran =>
    Graph.spent_of_shrunk (Graph.shrunk_exec (deletes_deletes r mem) ran) spent

/-- The deletes of a rollback can be sent all over again. -/
theorem resumable_deletes : Resumable neo4j (deletes currentTip forkPoint) :=
  resumable_of_done (fun _ _ _ spent => Graph.exec_spent spent) settles_deletes stays_deletes

theorem delivers_rollbackBlocks :
    Delivers ((heightsDown (forkPoint + 1) currentTip).forM rollbackBlock)
      (deletes currentTip forkPoint) := by
  refine Delivers.forM (fun height => ?_) _
  have steps : Delivers ((rollbackSteps height).forM fun step => runDirect step.1 fun e =>
      .QueryFailed s!"rollback_block {step.2} failed at height {height}: {e}")
      ((rollbackSteps height).flatMap fun step => [step.1]) :=
    Delivers.forM (fun step => delivers_runDirect) _
  exact steps

theorem execAll_deletes (x : Graph) : execAll neo4j (deletes currentTip forkPoint) x =
    .ok ((heightsDown (forkPoint + 1) currentTip).foldl Graph.rollbackBlock x) := by
  unfold deletes
  induction heightsDown (forkPoint + 1) currentTip generalizing x with
  | nil => rfl
  | cons height heights ih =>
    rw [List.flatMap_cons, List.foldl_cons, ← ih]
    exact execAll_append_ok rfl

/-- After some of the deletes a rollback still leaves the same. -/
theorem rollbackTo_of_sent {sent : List Query} (part : sent <+: deletes currentTip forkPoint)
    (ran : execAll neo4j sent x = .ok y) :
    y.rollbackTo currentTip forkPoint = x.rollbackTo currentTip forkPoint := by
  have same := resumable_deletes sent part x y ran
  rw [execAll_deletes, execAll_deletes] at same
  unfold Graph.rollbackTo
  by_cases above : forkPoint ≥ currentTip
  · have none : deletes currentTip forkPoint = [] := by
      unfold deletes heightsDown
      rw [Nat.sub_eq_zero_of_le (by omega)]
      rfl
    rw [none] at part
    cases List.prefix_nil.mp part
    cases ran
    rfl
  · rw [if_neg above, if_neg above, Except.ok.inj same]

theorem checkpointAt_twice (x : Graph) (forkPoint : ℕ) :
    (x.checkpointAt forkPoint).checkpointAt forkPoint = x.checkpointAt forkPoint := by
  unfold Graph.checkpointAt
  cases stored : x.lookupBlockHash forkPoint with
  | none =>
    dsimp only
    rw [stored]
  | some hash =>
    have same : ({ x with checkpoint := some (.ofData (Graph.forkCheckpoint forkPoint hash)) } :
        Graph).lookupBlockHash forkPoint = some hash := stored
    dsimp only
    rw [same]

/-- A rollback that is done is not done again. -/
theorem rollbackTo_twice (x : Graph) (currentTip forkPoint : ℕ) :
    (x.rollbackTo currentTip forkPoint).rollbackTo currentTip forkPoint =
      x.rollbackTo currentTip forkPoint := by
  unfold Graph.rollbackTo
  by_cases above : forkPoint ≥ currentTip
  · rw [if_pos above, if_pos above]
  have ran : execAll neo4j (deletes currentTip forkPoint) x = .ok _ := execAll_deletes x
  rw [if_neg above, if_neg above]
  generalize (heightsDown (forkPoint + 1) currentTip).foldl Graph.rollbackBlock x = y at ran
  have spent : ∀ q ∈ deletes currentTip forkPoint, q.Spent y := fun q mem =>
    done_execAll (List.Subset.refl _) settles_deletes stays_deletes ran q mem (Or.inl mem)
  have shrunk : Graph.Shrunk y (y.checkpointAt forkPoint) := by
    unfold Graph.checkpointAt
    split <;> exact ⟨fun _ mem => mem, Multiset.Subset.refl _, Multiset.Subset.refl _,
      Multiset.Subset.refl _⟩
  have idle : execAll neo4j (deletes currentTip forkPoint) (y.checkpointAt forkPoint) =
      .ok (y.checkpointAt forkPoint) := execAll_idle fun q mem =>
    Graph.exec_spent (Graph.spent_of_shrunk shrunk (spent q mem))
  rw [execAll_deletes] at idle
  rw [Except.ok.inj idle, checkpointAt_twice]

theorem holds_moveCheckpoint (x : Graph) (forkPoint : ℕ) :
    (o.moveCheckpoint forkPoint).Holds (Session.lossy neo4j) (fun r s =>
      (s = ⟨x, none⟩ ∨ s = ⟨x.checkpointAt forkPoint, none⟩) ∧
        (r = .ok () → s = ⟨x.checkpointAt forkPoint, none⟩)) ⟨x, none⟩ := by
  unfold moveCheckpoint lookupBlockHash
  rw [Prog.bind_assoc]
  refine holds_readGraph ?_ fun e => ⟨Or.inl rfl, fun impossible => by cases impossible⟩
  unfold Graph.checkpointAt
  cases x.lookupBlockHash forkPoint with
  | none => exact ⟨Or.inl rfl, fun _ => rfl⟩
  | some hash =>
    refine (delivers_updateCheckpoint x).mono fun r s done => ?_
    cases r with
    | ok _ =>
      obtain ⟨y, ran, rfl⟩ := done
      cases ran
      exact ⟨Or.inr rfl, fun _ => rfl⟩
    | error e =>
      obtain ⟨sent, part, y, ran, rfl⟩ := done
      refine ⟨?_, fun impossible => by cases impossible⟩
      rcases List.prefix_cons_iff.mp part with rfl | ⟨rest, rfl, none⟩
      · cases ran
        exact Or.inl rfl
      · obtain rfl := List.prefix_nil.mp none
        cases ran
        exact Or.inr rfl

/-- A call of `rollback_to_height`, however its calls fare. -/
theorem holds_rollbackToHeight (same : x.rollbackTo currentTip forkPoint =
      g.rollbackTo currentTip forkPoint) :
    (o.rollbackToHeight currentTip forkPoint).Holds (Session.lossy neo4j) (fun r s => ∃ y,
      s = ⟨y, none⟩ ∧ y.rollbackTo currentTip forkPoint = g.rollbackTo currentTip forkPoint ∧
        ∀ n, r = .ok n → n = currentTip - forkPoint ∧ y = g.rollbackTo currentTip forkPoint)
      ⟨x, none⟩ := by
  unfold rollbackToHeight
  by_cases above : forkPoint ≥ currentTip
  · rw [if_pos above]
    refine ⟨x, rfl, same, fun n done => ?_⟩
    cases done
    refine ⟨(Nat.sub_eq_zero_of_le above).symm, ?_⟩
    rw [← same, Graph.rollbackTo, if_pos above]
  · rw [if_neg above]
    refine (delivers_rollbackBlocks x).bind (fun _ s done => ?_) fun e s done => ?_
    · obtain ⟨y, ran, rfl⟩ := done
      have left := rollbackTo_of_sent List.prefix_rfl ran
      have whole : y.checkpointAt forkPoint = g.rollbackTo currentTip forkPoint := by
        rw [execAll_deletes] at ran
        rw [← same, Graph.rollbackTo, if_neg above, Except.ok.inj ran]
      have twice := rollbackTo_twice g currentTip forkPoint
      refine (holds_moveCheckpoint y forkPoint).bind (fun _ s moved => ?_) fun e s moved => ?_
      · obtain ⟨-, success⟩ := moved
        refine ⟨_, (success rfl).trans (by rw [whole]), twice, fun n done => ?_⟩
        cases done
        exact ⟨rfl, rfl⟩
      · obtain ⟨rfl | rfl, -⟩ := moved
        · exact ⟨y, rfl, left.trans same, fun n impossible => by cases impossible⟩
        · exact ⟨_, by rw [whole], twice, fun n impossible => by cases impossible⟩
    · obtain ⟨sent, part, y, ran, rfl⟩ := done
      exact ⟨y, rfl, (rollbackTo_of_sent part ran).trans same,
        fun n impossible => by cases impossible⟩

/-- **A rollback, at least once.** Over any graph, `rollback_to_height` is called any number of
times with the same heights and fails every time, calls of the database or their answers being
lost. Then a call in which nothing is lost succeeds; and every call that succeeds answers the number
of blocks between the heights, and leaves what one call in which nothing is lost leaves at first. -/
theorem rollbackToHeight_at_least_once (o : IngestionOrchestrator) (currentTip forkPoint : ℕ)
    (g : Graph) {s : Store neo4j} (tried : Prog.Tried (Session.lossy neo4j)
      (o.rollbackToHeight currentTip forkPoint) ⟨g, none⟩ s) :
    (o.rollbackToHeight currentTip forkPoint).run handle s =
        (o.rollbackToHeight currentTip forkPoint).run handle ⟨g, none⟩ ∧
      ∀ n t, (o.rollbackToHeight currentTip forkPoint).Ends (Session.lossy neo4j) s (.ok n) t →
        (.ok n, t) = (o.rollbackToHeight currentTip forkPoint).run handle ⟨g, none⟩ := by
  obtain ⟨x, rfl, same⟩ : ∃ x, s = ⟨x, none⟩ ∧ x.rollbackTo currentTip forkPoint =
      g.rollbackTo currentTip forkPoint := by
    refine tried.keeps (P := fun s => ∃ x, s = ⟨x, none⟩ ∧ x.rollbackTo currentTip forkPoint =
      g.rollbackTo currentTip forkPoint) ?_ ⟨g, rfl, rfl⟩
    rintro _ e t ⟨x, rfl, same⟩ failed
    obtain ⟨y, rfl, left, -⟩ := (holds_rollbackToHeight same).ends failed
    exact ⟨y, rfl, left⟩
  rw [run_rollbackToHeight, run_rollbackToHeight]
  refine ⟨by rw [same], fun n t ends => ?_⟩
  obtain ⟨y, rfl, -, done⟩ := (holds_rollbackToHeight same).ends ends
  obtain ⟨rfl, rfl⟩ := done n rfl
  rfl

end IngestionOrchestrator

/-- What a rollback of the second of two blocks leaves when the answer to its second delete is
lost, and it fails there. -/
def Sample.halfDeleted : Store neo4j :=
  (((Sample.orchestrator 0).rollbackToHeight 1 0).run handleFated
    ⟨⟨Sample.twoBlocks, none⟩, [.served, .unanswered DbFault.elapsed]⟩).2.state

theorem tried_rollback : Prog.Tried (Session.lossy neo4j)
    ((Sample.orchestrator 0).rollbackToHeight 1 0) ⟨Sample.twoBlocks, none⟩
    Sample.halfDeleted := by
  have failed : (((Sample.orchestrator 0).rollbackToHeight 1 0).run handleFated
      ⟨⟨Sample.twoBlocks, none⟩, [.served, .unanswered DbFault.elapsed]⟩).1.isOk = false := by
    decide +kernel
  exact Prog.tried_run Fated.state serves_handleFated failed

theorem rollbackToHeight_at_least_once_sample :
    let call := (Sample.orchestrator 0).rollbackToHeight 1 0
    call.run handle Sample.halfDeleted = call.run handle ⟨Sample.twoBlocks, none⟩ ∧
      ∀ n t, call.Ends (Session.lossy neo4j) Sample.halfDeleted (.ok n) t →
        (.ok n, t) = call.run handle ⟨Sample.twoBlocks, none⟩ :=
  IngestionOrchestrator.rollbackToHeight_at_least_once _ 1 0 _ tried_rollback

end ChainGraph

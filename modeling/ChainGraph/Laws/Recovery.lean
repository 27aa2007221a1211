import ChainGraph.Laws.Batch

/-!
# Rollback and checkpoint recovery

Rolling back and recovering the checkpoint send two kinds of statements only: the four deletes of
`rollback_block`, and statements about the checkpoint node. Neither ever touches the transaction
slot.
-/

namespace ChainGraph

open Foundation Foundation.Store

/-- The statements of rollback and recovery. -/
def Query.Recovers : Query → Prop
  | .rollbackDeleteInputs _ => True
  | .rollbackDeleteOutputs _ => True
  | .rollbackDeleteTransactions _ => True
  | .rollbackDeleteBlock _ => True
  | .deleteCheckpoint => True
  | .createCheckpoint => True
  | .updateCheckpoint _ => True
  | _ => False

namespace Neo4jWriter

variable {P : Query → Prop}

theorem sends_readGraph {failed : DbFault → WriterError} : OnlySends P (readGraph failed) := by
  refine ⟨trivial, fun answer => ?_⟩
  cases answer <;> trivial

theorem sends_getCheckpoint {w : Neo4jWriter} : OnlySends P w.getCheckpoint :=
  sends_readGraph.bind fun _ => trivial

theorem sends_lookupBlockHash {w : Neo4jWriter} (height : ℕ) :
    OnlySends P (w.lookupBlockHash height) :=
  sends_readGraph.bind fun _ => trivial

theorem sends_lookupOutputsBatch (ids : List OutputId) : OnlySends P (lookupOutputsBatch ids) := by
  unfold lookupOutputsBatch
  split
  · trivial
  · exact sends_readGraph.bind fun _ => trivial

theorem sends_getMaxBlockHeight : OnlySends P getMaxBlockHeight :=
  sends_readGraph.bind fun _ => trivial

theorem sends_checkBlockComplete (height : ℕ) : OnlySends P (checkBlockComplete height) :=
  sends_readGraph.bind fun _ => Prog.always_ofExcept _

theorem sends_runDirect {q : Query} {failed : DbFault → WriterError} (h : P q) :
    OnlySends P (runDirect q failed) := by
  refine ⟨h, fun answer => ?_⟩
  cases answer <;> trivial

theorem sends_rollbackBlock {height : ℕ} (h : ∀ step ∈ rollbackSteps height, P step.1) :
    OnlySends P (rollbackBlock height) :=
  Prog.Always.forM fun step mem => sends_runDirect (h step mem)

theorem recovers_rollbackSteps (height : ℕ) :
    ∀ step ∈ rollbackSteps height, step.1.Recovers := by
  intro step mem
  simp only [rollbackSteps, List.mem_cons, List.not_mem_nil, or_false] at mem
  rcases mem with rfl | rfl | rfl | rfl <;> trivial

end Neo4jWriter

namespace IngestionOrchestrator

open Neo4jWriter

variable {o : IngestionOrchestrator}

theorem sends_validateParentHash {P : Query → Prop} (block : Block) (height : ℕ) :
    OnlySends P (o.validateParentHash block height) := by
  unfold validateParentHash
  split
  · trivial
  · refine (sends_lookupBlockHash _).bind fun found => ?_
    cases found with
    | none => trivial
    | some hash =>
      dsimp only
      split <;> trivial

theorem sends_initSchema : OnlySends Query.Recovers o.initSchema := by
  refine sends_getCheckpoint.bind fun checkpoint => ?_
  cases checkpoint with
  | none => exact (sends_runDirect trivial).bind fun _ => sends_runDirect trivial
  | some _ => trivial

theorem sends_getResumeHeight : OnlySends Query.Recovers o.getResumeHeight := by
  refine sends_getCheckpoint.bind fun checkpoint => ?_
  cases checkpoint with
  | none => trivial
  | some checkpoint =>
    dsimp only
    split <;> trivial

theorem sends_findComplete (checkpointHeight : ℤ) (heights : List ℕ) :
    OnlySends Query.Recovers (findComplete checkpointHeight heights) := by
  induction heights with
  | nil => trivial
  | cons height rest ih =>
    refine (sends_checkBlockComplete height).bind fun counts => ?_
    obtain ⟨expected, actual⟩ := counts
    dsimp only
    split
    · trivial
    · exact (sends_rollbackBlock (recovers_rollbackSteps height)).bind fun _ => ih

theorem sends_saveRecovered (checkpoint : Option CheckpointData) (highestComplete : ℤ) :
    OnlySends Query.Recovers (o.saveRecovered checkpoint highestComplete) :=
  (sends_lookupBlockHash _).bind fun _ => sends_updateCheckpoint trivial

theorem sends_syncCheckpointWithDb : OnlySends Query.Recovers o.syncCheckpointWithDb := by
  refine sends_getCheckpoint.bind fun checkpoint => ?_
  dsimp only
  refine sends_getMaxBlockHeight.bind fun maxDbHeight => ?_
  cases maxDbHeight with
  | none => exact sends_getResumeHeight
  | some dbHeight =>
    dsimp only
    split
    · refine (sends_findComplete _ _).bind fun highestComplete => ?_
      split
      · exact (sends_saveRecovered _ _).bind fun _ => trivial
      · trivial
    · exact sends_getResumeHeight

theorem sends_moveCheckpoint (forkPoint : ℕ) :
    OnlySends Query.Recovers (o.moveCheckpoint forkPoint) := by
  refine (sends_lookupBlockHash forkPoint).bind fun hash => ?_
  cases hash with
  | none => trivial
  | some hash => exact sends_updateCheckpoint trivial

theorem sends_rollbackToHeight (currentTip forkPoint : ℕ) :
    OnlySends Query.Recovers (o.rollbackToHeight currentTip forkPoint) := by
  unfold rollbackToHeight
  split
  · trivial
  · refine Prog.Always.bind (Prog.Always.forM fun height _ =>
      sends_rollbackBlock (recovers_rollbackSteps height)) fun _ => ?_
    exact (sends_moveCheckpoint forkPoint).bind fun _ => trivial

end IngestionOrchestrator

end ChainGraph

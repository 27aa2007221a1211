import ChainGraph.Laws.Checkpoint
import ChainGraph.Writer.Mock

/-!
# The checkpoint of every writer

What each writer answers to `get_resume_height` after it was initialized and after it stored a
checkpoint. The two writers start apart: the graph's checkpoint begins at a sentinel and is read as
-1, the mock's begins at 0, the height of a processed genesis block. Once a height is stored both
resume after it, except that the graph's 255 is read as the sentinel.
-/

namespace ChainGraph

open Foundation Foundation.Store

/-- A writer with the storage its calls act on. -/
structure Implementation where
  writer : GraphWriter
  Storage : Type
  handle : Prog.Handler writer.Calls Storage
  /-- The storage nothing was written to. -/
  empty : Storage
  /-- No transaction is open. -/
  Idle : Storage → Prop

namespace Implementation

variable (W : Implementation)

/-- What `get_resume_height` answers. -/
def resume (s : W.Storage) : Except WriterError ℕ :=
  (W.writer.orchestratorGetResumeHeight.run W.handle s).1

/-- What `init_schema` makes of the empty storage. -/
def initialized : Except WriterError Unit × W.Storage :=
  W.writer.orchestratorInitSchema.run W.handle W.empty

/-- The round trip of the checkpoint at a height: a new store resumes at 0, and after a checkpoint
at the height is stored, directly or in a transaction that is then committed, the next height is
resumed at. -/
structure RoundTrips (h : ℕ) : Prop where
  start : W.initialized.1 = .ok () ∧ W.resume W.initialized.2 = .ok 0
  block : ∀ (data : CheckpointData) (s s' : W.Storage), data.lastProcessedHeight = h →
    W.Idle s → (W.writer.updateCheckpoint data).run W.handle s = (.ok (), s') →
      W.resume s' = .ok (h + 1)
  chunk : ∀ (data : CheckpointData) (s s' : W.Storage), data.lastProcessedHeight = h →
    (do W.writer.updateCheckpoint data; W.writer.commitTransaction).run W.handle s =
        (.ok (), s') → W.resume s' = .ok (h + 1)

end Implementation

/-- The implementations of the trait. -/
inductive WriterKind where
  | neo4j (w : Neo4jWriter)
  | mock

namespace WriterKind

def implementation : WriterKind → Implementation
  | neo4j w => ⟨w.graphWriter, Store ChainGraph.neo4j, Store.handle, ⟨.empty, none⟩,
      fun s => s.active = none⟩
  | mock => ⟨MockWriter.graphWriter, MockStorage, Cell.handle, .empty,
      fun s => s.inTransaction = false⟩

end WriterKind

/-- The height after one that was read; 0 where nothing was processed. -/
def resumeAfter (height : ℤ) : ℕ := if height < 0 then 0 else ((height + 1) % 2 ^ 32).toNat

theorem resumeAfter_nat {h : ℕ} (small : h < 2 ^ 31 - 1) : resumeAfter h = h + 1 := by
  unfold resumeAfter
  rw [if_neg (by omega)]
  omega

namespace Implementation

/-- What is resumed at depends on the height of the checkpoint as it is read, -1 without one. -/
theorem resume_of_read (W : Implementation) {s s' : W.Storage} {cp : Option CheckpointData}
    (read : W.writer.getCheckpoint.run W.handle s = (.ok cp, s')) :
    W.resume s = .ok (resumeAfter ((cp.map (·.lastProcessedHeight)).getD (-1))) := by
  unfold resume GraphWriter.orchestratorGetResumeHeight
  rw [Prog.run_bind_ok read]
  cases cp with
  | none => rfl
  | some checkpoint =>
    simp only [Option.map_some, Option.getD_some]
    unfold resumeAfter
    by_cases negative : checkpoint.lastProcessedHeight < 0
    · rw [if_pos negative, if_pos negative]
      rfl
    · rw [if_neg negative, if_neg negative]
      rfl

end Implementation

/-! ## The graph -/

namespace Neo4jWriter

variable {w : Neo4jWriter} {data : CheckpointData} {h : ℕ}

/-- The trait's methods at this writer are the orchestrator's. -/
theorem orchestratorInitSchema_eq (o : IngestionOrchestrator) :
    o.writer.graphWriter.orchestratorInitSchema = o.initSchema := rfl

theorem orchestratorGetResumeHeight_eq (o : IngestionOrchestrator) :
    o.writer.graphWriter.orchestratorGetResumeHeight = o.getResumeHeight := rfl

/-- What is resumed at is read off the checkpoint of the committed graph. -/
theorem resume_eq (s : Store neo4j) : (WriterKind.neo4j w).implementation.resume s =
    .ok (resumeAfter s.committed.readHeight) :=
  (WriterKind.neo4j w).implementation.resume_of_read (run_getCheckpoint (w := w) s)

/-- A stored height is resumed after, but for the one that is read as the sentinel. -/
theorem resume_stored {s : Store neo4j} (at_h : data.lastProcessedHeight = h)
    (small : h < 2 ^ 31 - 1) (stored : s.committed.checkpoint = some (.ofData data)) :
    (WriterKind.neo4j w).implementation.resume s = .ok (if h = 255 then 0 else h + 1) := by
  have height : s.committed.storedHeight = h := by
    rw [Graph.storedHeight_of_data data stored, at_h]
  rw [resume_eq]
  by_cases special : h = 255
  · subst special
    rw [Graph.readHeight_255 height, if_pos rfl]
    rfl
  · rw [Graph.readHeight_eq (by omega) (by omega) (by omega), height, resumeAfter_nat small,
      if_neg special]

/-- Without a transaction the checkpoint is stored at once. -/
theorem stored_updateCheckpoint {s s' : Store neo4j} (idle : s.active = none)
    (done : (updateCheckpoint data).run Store.handle s = (.ok (), s')) :
    s'.committed.checkpoint = some (.ofData data) := by
  obtain ⟨g, active⟩ := s
  cases idle
  rw [direct_updateCheckpoint.ok rfl] at done
  cases done
  rfl

/-- A committed transaction that stored the checkpoint stores it. -/
theorem stored_committed {s s' : Store neo4j}
    (done : (do updateCheckpoint data; commitTransaction : Io Unit).run Store.handle s =
      (.ok (), s')) : s'.committed.checkpoint = some (.ofData data) := by
  obtain ⟨g, active⟩ := s
  cases active with
  | none =>
    rw [Prog.run_bind_ok (direct_updateCheckpoint.ok rfl)] at done
    cases done
  | some view =>
    rw [Prog.run_bind_ok (within_updateCheckpoint.ok rfl)] at done
    cases done
    rfl

end Neo4jWriter

/-! ## The mock -/

namespace MockWriter

variable {data : CheckpointData} {h : ℕ} {s s' : MockStorage}

theorem resume_stored (at_h : data.lastProcessedHeight = h) (small : h < 2 ^ 31 - 1)
    (stored : s.checkpoint = some data) :
    WriterKind.mock.implementation.resume s = .ok (h + 1) := by
  have read : getCheckpoint.run Cell.handle s = (.ok (some data), s) := by
    rw [← stored]
    rfl
  rw [WriterKind.mock.implementation.resume_of_read read]
  simp only [Option.map_some, Option.getD_some, at_h, resumeAfter_nat small]

/-- A method that did not fail had its effect. -/
theorem run_failing {method : String} {undo effect : MockStorage → MockStorage}
    (done : (failing method undo effect).run Cell.handle s = (.ok (), s')) :
    s' = effect (s.checkFailure method).2 := by
  unfold failing storage at done
  rw [Prog.run_bind, Prog.run_perform] at done
  dsimp only [Cell.handle] at done
  cases failure : (s.checkFailure method).1 with
  | some err =>
    rw [failure] at done
    cases done
  | none =>
    rw [failure] at done
    cases done
    rfl

theorem stored_updateCheckpoint
    (done : (updateCheckpoint data).run Cell.handle s = (.ok (), s')) :
    s'.checkpoint = some data := by
  rw [run_failing done]

end MockWriter

/-! ## Every writer -/

/-- The mock begins as if the genesis block were processed. -/
theorem mock_not_roundTrips (h : ℕ) : ¬ WriterKind.mock.implementation.RoundTrips h := by
  intro trips
  have one : WriterKind.mock.implementation.resume WriterKind.mock.implementation.initialized.2 =
      .ok 1 := rfl
  have zero := one.symm.trans trips.start.2
  cases zero

theorem neo4j_roundTrips (w : Neo4jWriter) {h : ℕ} (small : h < 2 ^ 31 - 1) (usual : h ≠ 255) :
    (WriterKind.neo4j w).implementation.RoundTrips h where
  start := ⟨rfl, rfl⟩
  block data s s' at_h idle done := by
    have stored := Neo4jWriter.stored_updateCheckpoint idle done
    rw [Neo4jWriter.resume_stored at_h small stored, if_neg usual]
  chunk data s s' at_h done := by
    have stored := Neo4jWriter.stored_committed done
    rw [Neo4jWriter.resume_stored at_h small stored, if_neg usual]

/-- A checkpoint stored at 255 is read as the sentinel, and the run starts over. -/
theorem neo4j_not_roundTrips (w : Neo4jWriter) :
    ¬ (WriterKind.neo4j w).implementation.RoundTrips 255 := by
  intro trips
  let data : CheckpointData := ⟨255, none, "", none, ""⟩
  have done : (Neo4jWriter.updateCheckpoint data).run Store.handle ⟨.empty, none⟩ =
      (.ok (), ⟨{ Graph.empty with checkpoint := some (.ofData data) }, none⟩) :=
    Neo4jWriter.direct_updateCheckpoint.ok rfl
  have next := trips.block data ⟨.empty, none⟩ _ rfl rfl done
  rw [Neo4jWriter.resume_stored (h := 255) rfl (by decide) rfl, if_pos rfl] at next
  cases next

/-- **The round trip of the checkpoint.** It holds of the graph's writer at every height but 255,
and of the mock at none. -/
theorem roundTrips_iff (kind : WriterKind) (h : ℕ) (small : h < 2 ^ 31 - 1) :
    kind.implementation.RoundTrips h ↔ (∃ w, kind = .neo4j w) ∧ h ≠ 255 := by
  constructor
  · intro trips
    cases kind with
    | mock => exact absurd trips (mock_not_roundTrips h)
    | neo4j w =>
      refine ⟨⟨w, rfl⟩, ?_⟩
      rintro rfl
      exact neo4j_not_roundTrips w trips
  · rintro ⟨⟨w, rfl⟩, usual⟩
    exact neo4j_roundTrips w small usual

/-- A new mock resumes at 1. -/
theorem mock_starts_at_one :
    WriterKind.mock.implementation.resume WriterKind.mock.implementation.initialized.2 = .ok 1 ∧
      ¬ WriterKind.mock.implementation.RoundTrips 0 ∧
      ¬ (WriterKind.neo4j ⟨1, Nat.one_pos, 0, 0⟩).implementation.RoundTrips 255 :=
  ⟨rfl, mock_not_roundTrips 0, neo4j_not_roundTrips _⟩

theorem roundTrips_iff_sample :
    254 < 2 ^ 31 - 1 ∧ (WriterKind.neo4j ⟨1, Nat.one_pos, 0, 0⟩).implementation.RoundTrips 254 :=
  ⟨by decide, (roundTrips_iff _ 254 (by decide)).mpr ⟨⟨_, rfl⟩, by decide⟩⟩

end ChainGraph

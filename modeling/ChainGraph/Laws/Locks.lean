import ChainGraph.Laws.Recovery
import ChainGraph.Laws.Sound

/-!
# One lock for an output

An output that has one address is locked once: merging a lock does not repeat it, and a new output
has none. So as long as blocks give every output one address, a lookup answers with one row for
each output it finds. Blocks whose transactions are what their txids denote do.
-/

namespace ChainGraph

open Foundation Foundation.Store

/-! ## One row for each output -/

namespace Graph

variable {g : Graph}

/-- An output has at most one `LOCKED_TO`. -/
def LockedOnce (g : Graph) : Prop := ∀ id, (g.lockedTo.filter (·.1 = id)).card ≤ 1

theorem length_lockedAddresses (once : g.LockedOnce) (id : OutputId) :
    (g.lockedAddresses id).length = 1 := by
  have few : (listing ((g.lockedTo.filter (·.1 = id)).map (·.2))).length ≤ 1 := by
    rw [length_listing, Multiset.card_map]
    exact once id
  unfold lockedAddresses
  generalize listing ((g.lockedTo.filter (·.1 = id)).map (·.2)) = as at few ⊢
  cases as with
  | nil => rfl
  | cons a as =>
    rw [List.length_cons] at few
    simp only [List.length_map, List.length_cons]
    omega

theorem length_lookupOutput (once : g.LockedOnce) (id : OutputId) :
    (g.lookupOutput id).length = if g.outputs.Has id then 1 else 0 := by
  unfold lookupOutput
  cases found : g.outputs.get? id with
  | none => rw [if_neg (Table.get?_eq_none.mp found), List.length_nil]
  | some o =>
    obtain ⟨mem, same⟩ := Table.get?_eq_some.mp found
    rw [if_pos ⟨o, mem, same⟩, List.length_map, length_lockedAddresses once]

/-- As many rows as requested ids that are stored. -/
theorem length_lookupOutputsBatch (once : g.LockedOnce) (ids : List OutputId) :
    (g.lookupOutputsBatch ids).length = ids.countP fun id => decide (g.outputs.Has id) := by
  unfold lookupOutputsBatch
  induction ids with
  | nil => rfl
  | cons id ids ih =>
    rw [List.flatMap_cons, List.length_append, ih, length_lookupOutput once, List.countP_cons]
    by_cases has : g.outputs.Has id
    · simp [has, Nat.add_comm]
    · simp [has]

end Graph

/-! ## Outputs keep their one address -/

/-- Every lock starts at a stored output, is to the address `A` gives the output, and is there
once. -/
structure LockedAs (A : OutputId → Option Address) (g : Graph) : Prop where
  stored : ∀ e ∈ g.lockedTo, g.outputs.Has e.1
  address : ∀ e ∈ g.lockedTo, A e.1 = some e.2
  nodup : g.lockedTo.Nodup

/-- The row gives its output the address `A` does, if it gives it one. -/
def AddressedAs (A : OutputId → Option Address) (out : OutputData) : Prop :=
  ∀ a, out.address = some a → A out.outputId = some a

/-- The rows the statement locks give their outputs the addresses `A` does. -/
def Query.LocksAs (A : OutputId → Option Address) : Query → Prop
  | .createLockedTo rows => ∀ out ∈ rows, AddressedAs A out
  | .createOutputsWithLockedToFast rows => ∀ out ∈ rows, AddressedAs A out
  | _ => True

namespace LockedAs

variable {A : OutputId → Option Address} {g g' : Graph}

theorem empty : LockedAs A .empty where
  stored e mem := absurd mem (Multiset.notMem_zero e)
  address e mem := absurd mem (Multiset.notMem_zero e)
  nodup := Multiset.nodup_zero

theorem lockedOnce (h : LockedAs A g) : g.LockedOnce := by
  intro id
  have few : (⟨_, h.nodup.filter (·.1 = id)⟩ : Finset (OutputId × Address)).card ≤ 1 := by
    refine Finset.card_le_one.mpr fun e he e' he' => ?_
    obtain ⟨mem, rfl⟩ := Multiset.mem_filter.mp he
    obtain ⟨mem', same⟩ := Multiset.mem_filter.mp he'
    have address := h.address e mem
    rw [← same, h.address e' mem'] at address
    exact Prod.ext same.symm (Option.some.inj address).symm
  exact few

theorem congr (h : LockedAs A g) (outputs : g'.outputs = g.outputs)
    (lockedTo : g'.lockedTo = g.lockedTo) : LockedAs A g' := by
  refine ⟨?_, ?_, ?_⟩ <;> rw [lockedTo]
  · rw [outputs]
    exact h.stored
  · exact h.address
  · exact h.nodup

theorem mergeOutput (h : LockedAs A g) (out : OutputData) : LockedAs A (g.mergeOutput out) :=
  { h with stored := fun e mem => Table.has_upsert.mpr (Or.inr (h.stored e mem)) }

/-- A lock of a stored output to its address; `fresh` when it is made without looking. -/
theorem lockRow {add : Multiset (OutputId × Address) → OutputId × Address →
      Multiset (OutputId × Address)} (adds : Adds add) (h : LockedAs A g) {out : OutputData}
    (named : AddressedAs A out) (has : g.outputs.Has out.outputId)
    (once : ∀ a, (add g.lockedTo (out.outputId, a)).Nodup) : LockedAs A (g.lockRow add out) := by
  unfold Graph.lockRow
  cases given : out.address with
  | none => exact h
  | some a =>
    refine ⟨fun e mem => ?_, fun e mem => ?_, once a⟩
    · rcases (adds _ _ _).mp mem with rfl | old
      · exact has
      · exact h.stored e old
    · rcases (adds _ _ _).mp mem with rfl | old
      · exact named a given
      · exact h.address e old

theorem mergeLockedTo (h : LockedAs A g) {out : OutputData} (named : AddressedAs A out)
    (ok : g.mergeLockedTo out = .ok g') : LockedAs A g' := by
  unfold Graph.mergeLockedTo at ok
  split at ok
  · rename_i has
    have merged := h.lockRow adds_mergeLink named has fun a => nodup_mergeLink h.nodup _
    unfold Graph.lockRow at merged
    split at ok
    · rename_i a given
      rw [given] at merged
      cases ok
      exact merged
    · cases ok
  · cases ok
    exact h

/-- A new output has no lock yet. -/
theorem createOutput (h : LockedAs A g) {out : OutputData} (named : AddressedAs A out)
    (ok : g.createOutput out = .ok g') : LockedAs A g' := by
  rw [Graph.createOutput_eq] at ok
  split at ok
  · cases ok
  · rename_i absent
    cases ok
    refine (h.mergeOutput out).lockRow adds_link named (Table.has_upsert.mpr (Or.inl rfl)) ?_
    intro a
    refine Multiset.nodup_cons.mpr ⟨fun old => absent (h.stored _ old), h.nodup⟩

theorem detachDeleteOutputs (h : LockedAs A g) (p : OutputId → Prop) [DecidablePred p] :
    LockedAs A (g.detachDeleteOutputs p) where
  stored e mem := by
    obtain ⟨old, keep⟩ := Multiset.mem_filter.mp mem
    exact Sound.has_delete_key (h.stored e old) keep
  address e mem := h.address e (Multiset.mem_filter.mp mem).1
  nodup := h.nodup.filter _

/-- Rows that write neither outputs nor locks. -/
theorem foldl {α : Type} {f : Graph → α → Graph}
    (beside : ∀ g a, (f g a).outputs = g.outputs ∧ (f g a).lockedTo = g.lockedTo)
    (h : LockedAs A g) (rows : List α) : LockedAs A (rows.foldl f g) :=
  List.foldlRecOn rows f h fun g h a _ => h.congr (beside g a).1 (beside g a).2

theorem foldlM {α : Type} {f : Graph → α → Except DbFault Graph}
    (beside : ∀ g a g', f g a = .ok g' → g'.outputs = g.outputs ∧ g'.lockedTo = g.lockedTo)
    (h : LockedAs A g) {rows : List α} (ok : rows.foldlM f g = .ok g') : LockedAs A g' :=
  foldlM_keeps (fun a _ g g' h ok => h.congr (beside g a g' ok).1 (beside g a g' ok).2) h ok

theorem writeBlocks {put : Graph → BlockData → Except DbFault Graph}
    {add : Multiset (BlockHash × BlockHash) → BlockHash × BlockHash →
      Multiset (BlockHash × BlockHash)}
    (puts : ∀ g b g', put g b = .ok g' → g.mergeBlock b = .ok g') (h : LockedAs A g)
    {rows : List BlockData}
    (ok : (rows.foldlM put g >>= fun g => .ok (rows.foldl (Graph.linkPrev add) g)) = .ok g') :
    LockedAs A g' := by
  cases first : rows.foldlM put g with
  | error e =>
    rw [first] at ok
    cases ok
  | ok g₁ =>
    rw [first] at ok
    cases ok
    refine foldl (fun g b => ?_) (h.foldlM (fun g b g' ok => ?_) first) rows
    · unfold Graph.linkPrev
      split
      · split <;> exact ⟨rfl, rfl⟩
      · exact ⟨rfl, rfl⟩
    · obtain ⟨_, _, rfl⟩ := Graph.mergeBlock_eq_ok.mp (puts g b g' ok)
      exact ⟨rfl, rfl⟩

/-- **Every query** whose rows give their outputs the addresses `A` does. -/
theorem exec (h : LockedAs A g) {q : Query} (named : q.LocksAs A) (ok : q.exec g = .ok g') :
    LockedAs A g' := by
  cases q with
  | createOutputs rows =>
    cases ok
    exact List.foldlRecOn rows _ h fun g h out _ => h.mergeOutput out
  | createLockedTo rows =>
    exact foldlM_keeps (fun out mem g g' h ok => h.mergeLockedTo (named out mem) ok) h ok
  | createOutputsWithLockedToFast rows =>
    exact foldlM_keeps (fun out mem g g' h ok => h.createOutput (named out mem) ok) h ok
  | rollbackDeleteOutputs height =>
    cases ok
    exact h.detachDeleteOutputs _
  | createBlocks rows => exact h.writeBlocks (fun _ _ _ ok => ok) ok
  | createBlocksFast rows =>
    refine h.writeBlocks (fun g b g' ok => ?_) ok
    unfold Graph.createBlock at ok
    split at ok
    · cases ok
    · exact ok
  | createTransactions rows =>
    cases ok
    exact foldl (f := Graph.putTransaction mergeLink) (fun _ _ => ⟨rfl, rfl⟩) h rows
  | createTransactionsFast rows =>
    refine h.foldlM (fun g tx g' ok => ?_) ok
    unfold Graph.createTransaction at ok
    split at ok
    · cases ok
    · cases ok
      exact ⟨rfl, rfl⟩
  | createInputs rows =>
    cases ok
    exact foldl (f := Graph.putInput mergeLink mergeLink) (fun _ _ => ⟨rfl, rfl⟩) h rows
  | createInputsFast rows =>
    refine h.foldlM (fun g inp g' ok => ?_) ok
    unfold Graph.createInput at ok
    split at ok
    · cases ok
    · cases ok
      exact ⟨rfl, rfl⟩
  | createHasOutput rows =>
    cases ok
    refine foldl (fun g out => ?_) h rows
    unfold Graph.putHasOutput
    split <;> exact ⟨rfl, rfl⟩
  | createHasOutputFast rows =>
    cases ok
    refine foldl (fun g out => ?_) h rows
    unfold Graph.putHasOutput
    split <;> exact ⟨rfl, rfl⟩
  | createPerformsBulk rows =>
    cases ok
    exact foldl (f := Graph.mergePerforms) (fun _ _ => ⟨rfl, rfl⟩) h rows
  | createBenefitsToBulk rows =>
    cases ok
    refine foldl (fun g b => ?_) h rows
    unfold Graph.mergeBenefitsTo
    split <;> exact ⟨rfl, rfl⟩
  | rollbackDeleteBlock height =>
    cases ok
    unfold Graph.detachDeleteBlockAt
    split <;> exact h.congr rfl rfl
  | _ =>
    cases ok
    exact h.congr rfl rfl

end LockedAs

namespace IngestionOrchestrator

open Neo4jWriter

variable {o : IngestionOrchestrator} {A : OutputId → Option Address}

/-! ## What a chunk sends -/

/-- The statements of the program give outputs the addresses `A` does. -/
abbrev LocksAs (A : OutputId → Option Address) {α : Type} (p : Ingest α) : Prop :=
  p.Always (Client.Op.Obeys (E := neo4j) (Query.LocksAs A))

theorem locksAs_io {α : Type} {p : Io α} (sends : OnlySends (Query.LocksAs A) p) :
    LocksAs A (io p) :=
  Prog.always_lift (Prog.Always.mono (fun _ sends => sends.obeys) sends)

theorem locksAs_modifyCache (f : UtxoCache → UtxoCache) : LocksAs A (modifyCache f) :=
  ⟨trivial, fun _ => ⟨trivial, fun _ => trivial⟩⟩

theorem locksAs_transaction : LocksAs A (io beginTransaction) ∧ LocksAs A (io commitTransaction) ∧
    LocksAs A (io rollbackTransaction) := by
  refine ⟨⟨trivial, fun answer => ?_⟩, ⟨trivial, fun answer => ?_⟩, ⟨trivial, fun answer => ?_⟩⟩
  all_goals
    cases answer with
    | ok b => cases b <;> trivial
    | error e => trivial

theorem sends_writeOutputs {outputs : List OutputData}
    (named : ∀ out ∈ outputs, AddressedAs A out) :
    OnlySends (Query.LocksAs A) (o.writer.writeOutputs outputs) := by
  unfold writeOutputs
  refine sends_eachBatch (fun i c among => ?_) 1
  refine (sends_runWithRetry trivial).bind fun _ => ?_
  dsimp only
  split
  · trivial
  · refine sends_runWithRetry fun out mem => named out ?_
    exact mem_of_mem_chunks o.writer.batchSize_pos among (List.mem_filter.mp mem).1

theorem sends_writeOutputsFast {outputs : List OutputData}
    (named : ∀ out ∈ outputs, AddressedAs A out) :
    OnlySends (Query.LocksAs A) (o.writer.writeOutputsFast outputs) :=
  sends_executeBatched fun _ among out mem =>
    named out (mem_of_mem_chunks o.writer.batchSize_pos among mem)

theorem sends_writePerformsIfAny (performs : List PerformsData) :
    OnlySends (Query.LocksAs A) (o.writePerformsIfAny performs) := by
  unfold writePerformsIfAny
  split
  · trivial
  · exact sends_executeBatched fun _ _ => trivial

theorem sends_writeBenefitsToIfAny (benefits : List BenefitsToData) :
    OnlySends (Query.LocksAs A) (o.writeBenefitsToIfAny benefits) := by
  unfold writeBenefitsToIfAny
  split
  · trivial
  · exact sends_executeBatched fun _ _ => trivial

theorem locksAs_spawnAll (performs : List PerformsData) (benefits : List BenefitsToData) :
    LocksAs A (spawnAll (o.bucketTasks performs benefits)) := by
  refine ⟨fun t mem => ?_, fun answer => Prog.always_ofExcept answer⟩
  unfold bucketTasks at mem
  obtain ⟨p, b, rfl⟩ : ∃ p b, t = o.bucketTask p b := by
    obtain ⟨i, hi, rfl⟩ := List.mem_iff_getElem.mp mem
    rw [List.getElem_zipWith]
    exact ⟨_, _, rfl⟩
  have sends : OnlySends (Query.LocksAs A) (o.bucketTask p b) :=
    (sends_writePerformsIfAny p).bind fun _ => sends_writeBenefitsToIfAny b
  exact Prog.Always.mono (fun _ sends => sends.obeys) sends

theorem sends_checkpointChunk (chunk : List LocatedBlock) :
    OnlySends (Query.LocksAs A) (checkpointChunk chunk) := by
  unfold checkpointChunk
  split
  · exact sends_updateCheckpoint trivial
  · trivial

theorem locksAs_processBatchChunk {chunk : List LocatedBlock}
    (named : ∀ out ∈ o.outputRows chunk, AddressedAs A out) (found : Found) :
    LocksAs A (o.processBatchChunk chunk found) := by
  unfold processBatchChunk
  refine (locksAs_io ?_).bind fun _ => ?_
  · exact sends_executeBatched fun _ _ => trivial
  refine (Prog.Always.attempt (locksAs_io ?_)).bind fun written => ?_
  · split
    · exact sends_writeOutputs named
    · exact sends_writeOutputsFast named
  refine (locksAs_modifyCache _).bind fun _ => ?_
  refine (Prog.always_ofExcept written).bind fun _ => ?_
  refine Prog.Always.bind ⟨trivial, fun _ => trivial⟩ fun cache => ?_
  refine Prog.Always.bind ⟨trivial, fun _ => trivial⟩ fun _ => ?_
  refine (locksAs_io ?_).bind fun _ => ?_
  · split <;> exact sends_executeBatched fun _ _ => trivial
  refine (locksAs_io ?_).bind fun _ => ?_
  · exact sends_executeBatched fun _ _ => trivial
  refine (locksAs_io ?_).bind fun _ => ?_
  · split <;> exact sends_executeBatched fun _ _ => trivial
  refine (locksAs_spawnAll _ _).bind fun _ => ?_
  refine (locksAs_modifyCache _).bind fun _ => ?_
  exact (locksAs_io (sends_checkpointChunk chunk)).bind fun _ => trivial

theorem locksAs_prefetchUtxos (keys : List UtxoKey) : LocksAs A (prefetchUtxos keys) := by
  unfold prefetchUtxos
  split
  · trivial
  · refine Prog.Always.bind ⟨trivial, fun _ => trivial⟩ fun cache => ?_
    dsimp only
    refine Prog.Always.bind ⟨trivial, fun _ => trivial⟩ fun _ => ?_
    split
    · trivial
    · refine (locksAs_io (sends_lookupOutputsBatch _)).bind fun rows => ?_
      exact Prog.Always.bind ⟨trivial, fun _ => trivial⟩ fun _ => trivial

theorem sends_validateFirst {P : Query → Prop} (chunk : List LocatedBlock) :
    OnlySends P (o.validateFirst chunk) := by
  unfold validateFirst
  split
  · exact sends_validateParentHash _ _
  · trivial

/-- **A chunk** sends only statements that give outputs the addresses its own rows do. -/
theorem locksAs_ingestChunk {chunk : List LocatedBlock}
    (named : ∀ out ∈ o.outputRows chunk, AddressedAs A out) : LocksAs A (o.ingestChunk chunk) := by
  unfold ingestChunk
  refine (locksAs_io (sends_validateFirst chunk)).bind fun _ => ?_
  refine (locksAs_prefetchUtxos _).bind fun found => ?_
  obtain ⟨begins, commits, rolls⟩ := locksAs_transaction (A := A)
  refine begins.bind fun _ => ?_
  refine (Prog.Always.attempt (locksAs_processBatchChunk named found)).bind fun result => ?_
  cases result with
  | ok counts => exact commits.bind fun _ => trivial
  | error e => exact (Prog.Always.attempt rolls).bind fun _ => trivial

/-! ## What a call sends -/

theorem locksAs_recovers {α : Type} {p : Io α} (sends : OnlySends Query.Recovers p) :
    LocksAs A (io p) := by
  have names : ∀ q : Query, q.Recovers → q.LocksAs A := fun q recovers => by
    cases q <;> trivial
  refine Prog.always_lift (Prog.Always.mono (fun o sends => ?_) sends)
  cases o with
  | txnRun q => exact names q sends
  | autoRun q => exact names q sends
  | _ => trivial

theorem locksAs_getManyWithFallback (keys : List UtxoKey) :
    LocksAs A (getManyWithFallback keys) := by
  unfold getManyWithFallback
  refine Prog.Always.bind ⟨trivial, fun _ => trivial⟩ fun cache => ?_
  refine Prog.Always.bind ⟨trivial, fun _ => trivial⟩ fun _ => ?_
  split
  · trivial
  · refine Prog.Always.bind ⟨trivial, fun _ => trivial⟩ fun _ => ?_
    refine (locksAs_io (sends_lookupOutputsBatch _)).bind fun rows => ?_
    refine Prog.Always.bind ⟨trivial, fun _ => trivial⟩ fun _ => ?_
    split <;> trivial

theorem locksAs_ingestBlock {b : LocatedBlock} (offset : Option ℕ)
    (named : ∀ out ∈ o.outputRows [b], AddressedAs A out) :
    LocksAs A (o.ingestBlock b.block b.height b.fileName offset) := by
  have rows : ∀ out ∈ b.block.txdata.flatMap o.outputsOf, AddressedAs A out := by
    intro out mem
    refine named out ?_
    rw [outputRows, txsOf, List.flatMap_singleton]
    exact mem
  unfold ingestBlock
  refine (locksAs_io (sends_validateParentHash _ _)).bind fun _ => ?_
  refine (locksAs_io ?_).bind fun _ => ?_
  · exact sends_executeBatched fun _ _ => trivial
  have outputs : LocksAs A (o.ingestOutputsAndCache b.block) := by
    unfold ingestOutputsAndCache
    refine (Prog.Always.attempt (locksAs_io (sends_writeOutputs rows))).bind fun written => ?_
    refine (locksAs_modifyCache _).bind fun _ => ?_
    exact (Prog.always_ofExcept written).bind fun _ => trivial
  have transactions : LocksAs A (o.ingestTransactionsWithAmounts b.block b.height) := by
    unfold ingestTransactionsWithAmounts
    refine (locksAs_getManyWithFallback _).bind fun found => ?_
    refine (locksAs_io ?_).bind fun _ => trivial
    exact sends_executeBatched fun _ _ => trivial
  refine outputs.bind fun outputData => transactions.bind fun performs => ?_
  refine (locksAs_io ?_).bind fun _ => ?_
  · exact sends_executeBatched fun _ _ => trivial
  refine (locksAs_io ?_).bind fun _ => ?_
  · exact sends_executeBatched fun _ _ => trivial
  have layer : LocksAs A (o.writeSimplifiedLayerRust b.block performs) :=
    (locksAs_io (sends_writePerformsIfAny _)).bind fun _ =>
      locksAs_io (sends_writeBenefitsToIfAny _)
  refine layer.bind fun _ => (locksAs_modifyCache _).bind fun _ => ?_
  exact locksAs_io (sends_updateCheckpoint trivial)

theorem locksAs_ingestChunks {chunks : List (List LocatedBlock)}
    (named : ∀ chunk ∈ chunks, ∀ out ∈ o.outputRows chunk, AddressedAs A out)
    (stats : BatchStats) : LocksAs A (o.ingestChunks stats chunks) := by
  induction chunks generalizing stats with
  | nil => trivial
  | cons chunk rest ih =>
    refine (locksAs_ingestChunk (named chunk List.mem_cons_self)).bind fun counts => ?_
    exact ih (fun chunk mem => named chunk (List.mem_cons_of_mem _ mem)) _

/-- A row of a chunk of the batch is a row of the batch. -/
theorem outputRows_of_chunk {blocks chunk : List LocatedBlock}
    (mem : chunk ∈ o.adaptiveChunks blocks) {out : OutputData} (row : out ∈ o.outputRows chunk) :
    out ∈ o.outputRows blocks := by
  obtain ⟨tx, inChunk, made⟩ := List.mem_flatMap.mp row
  exact List.mem_flatMap.mpr ⟨tx, mem_txsOf_of_chunk mem inChunk, made⟩

/-- **A call** sends only statements that give outputs the addresses its blocks do. -/
theorem locksAs_call (call : Call) (named : ∀ out ∈ o.outputRows call.blocks, AddressedAs A out) :
    LocksAs A (call.program o) := by
  cases call with
  | initSchema => exact locksAs_recovers sends_initSchema
  | syncCheckpointWithDb =>
    exact (locksAs_recovers sends_syncCheckpointWithDb).bind fun _ => trivial
  | ingestBlock b offset => exact locksAs_ingestBlock offset named
  | ingestBlocksBatch blocks =>
    refine Prog.Always.bind ?_ fun _ => trivial
    exact locksAs_ingestChunks (fun chunk mem out row => named out (outputRows_of_chunk mem row)) _
  | rollbackToHeight currentTip forkPoint =>
    exact (locksAs_recovers (sends_rollbackToHeight currentTip forkPoint)).bind fun _ => trivial

/-! ## Graphs built by ingestion -/

/-- The address of an output as its txid denotes it. -/
def denotedAddress (o : IngestionOrchestrator) (U : Denotation) (id : OutputId) : Option Address :=
  (o.rowOf U id).bind (·.address)

/-- **Graphs that calls build.** Every output is locked to its own address, once. -/
theorem lockedAs_reachable {U : Denotation} {g : Graph} (reached : Reachable o U g) :
    LockedAs (o.denotedAddress U) g := by
  induction reached with
  | refl => exact LockedAs.empty
  | tail _ step h =>
    obtain ⟨o', call, c, same, denoted, rfl⟩ := step
    have addresses : o'.denotedAddress U = o.denotedAddress U := by
      funext id
      rw [denotedAddress, denotedAddress, rowOf, rowOf, same.1, same.2]
    have named : ∀ out ∈ o'.outputRows call.blocks, AddressedAs (o.denotedAddress U) out := by
      intro out mem a address
      rw [← addresses, denotedAddress, rowOf_outputId denoted mem]
      exact address
    exact (World.lawful_run_obeys (E := neo4j) (fun _ _ _ names h ok => h.exec names ok)
      (locksAs_call call named) (w := ⟨⟨_, none⟩, c⟩) (.idle h)).committed

end IngestionOrchestrator

end ChainGraph

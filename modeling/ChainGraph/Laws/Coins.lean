import ChainGraph.Laws.Growth

/-!
# Where stored outputs come from

A txid is the hash of a transaction, so what it denotes is fixed once and for all. A graph is
faithful to a denotation when every stored output is the one its id denotes, locked to exactly the
address of its script. Then an output resolves to one value whenever it is stored, whatever else
the graph holds, and writing it again changes nothing a lookup could see.
-/

namespace ChainGraph

open Foundation Foundation.Store

/-- The outputs of the transaction under each txid. -/
abbrev Denotation := Txid → List TxOut

/-- The transactions are those their txids denote. -/
def Denotes (U : Denotation) (txs : List Transaction) : Prop :=
  ∀ tx ∈ txs, U tx.txid = tx.output

/-- A way of adding links: the link is there afterwards, beside those that were. -/
def Adds {ε : Type} (add : Multiset ε → ε → Multiset ε) : Prop :=
  ∀ s e x, x ∈ add s e ↔ x = e ∨ x ∈ s

theorem adds_link {ε : Type} : Adds (link : Multiset ε → ε → Multiset ε) := fun _ _ _ =>
  Multiset.mem_cons

theorem adds_mergeLink {ε : Type} [DecidableEq ε] :
    Adds (mergeLink : Multiset ε → ε → Multiset ε) :=
  fun _ _ _ => mem_mergeLink

namespace IngestionOrchestrator

theorem adds_linkBy {ε : Type} [DecidableEq ε] (merging : Bool) :
    Adds (linkBy merging : Multiset ε → ε → Multiset ε) := by
  cases merging
  · exact adds_link
  · exact adds_mergeLink

variable {o : IngestionOrchestrator} {U : Denotation}

/-- The record of the output with an id. -/
def rowOf (o : IngestionOrchestrator) (U : Denotation) (id : OutputId) : Option OutputData :=
  (U id.txid)[id.vout]?.map fun output =>
    .fromOutput o.crate output id.txid (asU32 id.vout) o.network

/-- What the output with an id is worth, and to whom. -/
def valueOf (o : IngestionOrchestrator) (U : Denotation) (id : OutputId) : Option CachedOutput :=
  (o.rowOf U id).map .ofOutput

/-- A record's id is made of its txid and index. -/
theorem outputId_of_rowOf {id : OutputId} {row : OutputData} (h : o.rowOf U id = some row) :
    (⟨row.txid, row.outputIndex⟩ : OutputId) = row.outputId := by
  obtain ⟨output, _, rfl⟩ := Option.map_eq_some_iff.mp h
  rfl

/-- The outputs of a transaction, by position. -/
theorem mem_outputsOf {tx : Transaction} {row : OutputData} :
    row ∈ o.outputsOf tx ↔ ∃ i output, tx.output[i]? = some output ∧
      row = .fromOutput o.crate output tx.txid i o.network := by
  unfold outputsOf
  rw [List.mem_map]
  constructor
  · rintro ⟨⟨output, i⟩, mem, rfl⟩
    have at_i := List.mk_mem_zipIdx_iff_getElem?.mp mem
    have inside : i < 2 ^ 32 :=
      Nat.lt_trans (List.getElem?_eq_some_iff.mp at_i).1 tx.outputs_lt
    exact ⟨i, output, at_i, by dsimp only; rw [asU32_of_lt inside]⟩
  · rintro ⟨i, output, at_i, rfl⟩
    have inside : i < 2 ^ 32 :=
      Nat.lt_trans (List.getElem?_eq_some_iff.mp at_i).1 tx.outputs_lt
    exact ⟨(output, i), List.mk_mem_zipIdx_iff_getElem?.mpr at_i, by
      dsimp only
      rw [asU32_of_lt inside]⟩

/-- The rows of denoted transactions are those their ids denote. -/
theorem rowOf_outputId {chunk : List LocatedBlock} (denoted : Denotes U (txsOf chunk))
    {row : OutputData} (mem : row ∈ o.outputRows chunk) : o.rowOf U row.outputId = some row := by
  obtain ⟨tx, inChunk, inTx⟩ := List.mem_flatMap.mp mem
  obtain ⟨i, output, at_i, rfl⟩ := mem_outputsOf.mp inTx
  have inside : i < 2 ^ 32 := Nat.lt_trans (List.getElem?_eq_some_iff.mp at_i).1 tx.outputs_lt
  unfold rowOf OutputData.fromOutput
  dsimp only
  rw [denoted tx inChunk, at_i, Option.map_some, asU32_of_lt inside]

/-- Every stored output is the one its id denotes, locked to exactly its address. -/
structure Faithful (o : IngestionOrchestrator) (U : Denotation) (g : Graph) : Prop where
  outputs : ∀ n ∈ g.outputs, ∃ row, o.rowOf U n.outputId = some row ∧ n = .ofData row
  locked : ∀ e ∈ g.lockedTo, ∃ row, o.rowOf U e.1 = some row ∧ row.address = some e.2
  addressed : ∀ id row, g.outputs.Has id → o.rowOf U id = some row → ∀ a, row.address = some a →
    (id, a) ∈ g.lockedTo

theorem faithful_empty : o.Faithful U .empty where
  outputs n mem := absurd mem (Table.not_mem_empty n)
  locked e mem := absurd mem (Multiset.notMem_zero e)
  addressed id _ has := absurd has (Table.not_has_empty id)

/-- Only the outputs and their locks matter. -/
theorem Faithful.congr {g g' : Graph} (h : o.Faithful U g) (outputs : g'.outputs = g.outputs)
    (lockedTo : g'.lockedTo = g.lockedTo) : o.Faithful U g' := by
  refine ⟨?_, ?_, ?_⟩
  · rw [outputs]
    exact h.outputs
  · rw [lockedTo]
    exact h.locked
  · rw [outputs, lockedTo]
    exact h.addressed

theorem getLast?_of_forall_eq {α : Type} {l : List α} {a : α} (nonempty : l ≠ [])
    (all : ∀ x ∈ l, x = a) : l.getLast? = some a := by
  rw [List.getLast?_eq_some_getLast nonempty, all _ (List.getLast_mem nonempty)]

/-- The one address of a stored output. -/
theorem Faithful.lockedAddresses {g : Graph} (h : o.Faithful U g) {id : OutputId}
    {row : OutputData} (stored : g.outputs.Has id) (denoted : o.rowOf U id = some row) :
    (g.lockedAddresses id).getLast? = some row.address := by
  have every : ∀ a, a ∈ (g.lockedTo.filter (·.1 = id)).map (·.2) → row.address = some a := by
    intro a mem
    obtain ⟨e, inside, rfl⟩ := Multiset.mem_map.mp mem
    obtain ⟨locked, rfl⟩ := Multiset.mem_filter.mp inside
    obtain ⟨row', denoted', address⟩ := h.locked e locked
    rw [denoted] at denoted'
    cases denoted'
    exact address
  unfold Graph.lockedAddresses
  cases listed : listing ((g.lockedTo.filter (·.1 = id)).map (·.2)) with
  | nil =>
    cases address : row.address with
    | none => rfl
    | some a =>
      have mem : a ∈ listing ((g.lockedTo.filter (·.1 = id)).map (·.2)) :=
        mem_listing.mpr (Multiset.mem_map.mpr ⟨(id, a), Multiset.mem_filter.mpr
          ⟨h.addressed id row stored denoted a address, rfl⟩, rfl⟩)
      rw [listed] at mem
      cases mem
  | cons a as =>
    refine getLast?_of_forall_eq (by simp) fun x mem => ?_
    obtain ⟨b, inside, rfl⟩ := List.mem_map.mp mem
    rw [← listed] at inside
    exact (every b (mem_listing.mp inside)).symm

/-- **Resolution.** A stored output resolves to what its id denotes. -/
theorem Faithful.resolve {g : Graph} (h : o.Faithful U g) {id : OutputId}
    (stored : g.outputs.Has id) : g.resolve id = o.valueOf U id := by
  obtain ⟨n, mem, rfl⟩ := stored
  obtain ⟨row, denoted, same⟩ := h.outputs n mem
  have address := h.lockedAddresses (Table.has_of_mem mem) denoted
  unfold Graph.resolve Graph.lookupOutput valueOf
  rw [Table.get?_eq_some.mpr ⟨mem, rfl⟩, denoted]
  dsimp only
  rw [List.getLast?_map, address]
  obtain ⟨output, _, rfl⟩ := Option.map_eq_some_iff.mp denoted
  rw [same]
  unfold OutputNode.ofData CachedOutput.ofLookup CachedOutput.ofOutput OutputData.fromOutput asU32
  simp only [Option.map_some, Nat.mod_mod]

/-- What resolves is what is denoted. -/
theorem Faithful.resolve_eq_some {g : Graph} (h : o.Faithful U g) {id : OutputId}
    {v : CachedOutput} (found : g.resolve id = some v) : o.valueOf U id = some v := by
  rw [← h.resolve (resolve_isSome.mp (by rw [found, Option.isSome_some])), found]

/-! ## Steps -/

/-- Storing denoted outputs. -/
theorem Faithful.putOutput {add : Multiset (OutputId × Address) → OutputId × Address →
      Multiset (OutputId × Address)} (adds : Adds add) {g : Graph} (h : o.Faithful U g)
    {row : OutputData} (denoted : o.rowOf U row.outputId = some row) :
    o.Faithful U (Graph.putOutput add g row) := by
  have outputs : (Graph.putOutput add g row).outputs = g.outputs.upsert (.ofData row) := by
    rw [Graph.putOutput, Graph.outputs_lockRow, Graph.outputs_mergeOutput]
  have locks : ∀ e, e ∈ (Graph.putOutput add g row).lockedTo ↔
      (row.address = some e.2 ∧ e.1 = row.outputId) ∨ e ∈ g.lockedTo := by
    intro e
    unfold Graph.putOutput Graph.lockRow
    cases address : row.address with
    | none => simp [Graph.mergeOutput]
    | some a =>
      show e ∈ add g.lockedTo (row.outputId, a) ↔ _
      rw [adds, Prod.ext_iff, Option.some_inj]
      simp only [eq_comm, and_comm]
  refine ⟨fun n mem => ?_, fun e mem => ?_, fun id row' has denoted' a address => ?_⟩
  · rw [outputs] at mem
    rcases Table.mem_upsert.mp mem with rfl | ⟨old, _⟩
    · exact ⟨row, denoted, rfl⟩
    · exact h.outputs n old
  · rcases (locks e).mp mem with ⟨address, same⟩ | old
    · exact ⟨row, same ▸ denoted, address⟩
    · exact h.locked e old
  · rw [outputs, Table.has_upsert] at has
    refine (locks (id, a)).mpr ?_
    rcases has with rfl | old
    · have same : row' = row := Option.some.inj (denoted'.symm.trans denoted)
      exact Or.inl ⟨same ▸ address, rfl⟩
    · exact Or.inr (h.addressed id row' old denoted' a address)

theorem Faithful.foldl_putOutput {add : Multiset (OutputId × Address) → OutputId × Address →
      Multiset (OutputId × Address)} (adds : Adds add) {rows : List OutputData} {g : Graph}
    (h : o.Faithful U g) (denoted : ∀ row ∈ rows, o.rowOf U row.outputId = some row) :
    o.Faithful U (rows.foldl (Graph.putOutput add) g) := by
  induction rows generalizing g with
  | nil => exact h
  | cons row rows ih =>
    exact ih (h.putOutput adds (denoted row List.mem_cons_self)) fun r hr =>
      denoted r (List.mem_cons_of_mem row hr)

/-- Deleting outputs with their locks. -/
theorem Faithful.detachDeleteOutputs {g : Graph} (h : o.Faithful U g) (p : OutputId → Prop)
    [DecidablePred p] : o.Faithful U (g.detachDeleteOutputs p) := by
  refine ⟨fun n mem => h.outputs n (Table.mem_delete.mp mem).1,
    fun e mem => h.locked e (Multiset.mem_filter.mp mem).1, fun id row has denoted a address => ?_⟩
  obtain ⟨n, mem, kept, rfl⟩ := Table.has_delete.mp has
  exact Multiset.mem_filter.mpr
    ⟨h.addressed _ row (Table.has_of_mem mem) denoted a address, kept⟩

/-! ## Blocks and chunks -/

section Growth

variable {g g₁ : Graph} {chunk : List LocatedBlock} {b : LocatedBlock} {offset : Option ℕ}
  {res : Found}

/-- Creating or merging a block touches neither outputs nor locks. -/
theorem coins_blockQuery (created : (blockQuery b).exec g = .ok g₁) :
    g₁.outputs = g.outputs ∧ g₁.lockedTo = g.lockedTo := by
  obtain ⟨_, _, _, rfl, _⟩ := Graph.exec_createBlocks_one.mp created
  exact ⟨rfl, rfl⟩

theorem coins_finishBlock (o : IngestionOrchestrator) (res : Found) (b : LocatedBlock)
    (offset : Option ℕ) (g : Graph) :
    (o.finishBlock res b offset (o.putOutputs b g)).outputs = (o.putOutputs b g).outputs ∧
      (o.finishBlock res b offset (o.putOutputs b g)).lockedTo = (o.putOutputs b g).lockedTo := by
  rw [finishBlock_eq]
  exact coins_phases o res [b] true true (blockParts_perm o res b).1 (blockParts_perm o res b).2 ..

theorem coins_createBlocksFast
    (created : execAll neo4j (o.writer.batchQueries .createBlocksFast (blockRows chunk)) g =
      .ok g₁) : g₁.outputs = g.outputs ∧ g₁.lockedTo = g.lockedTo := by
  obtain ⟨_, _, _, rfl, _⟩ := Graph.execAll_createBlocksFast created
  exact ⟨rfl, rfl⟩

theorem Faithful.putOutputs (h : o.Faithful U g) (denoted : Denotes U (txsOf [b])) :
    o.Faithful U (o.putOutputs b g) :=
  h.foldl_putOutput adds_mergeLink fun _ mem => rowOf_outputId denoted mem

/-- A committed chunk. -/
theorem Faithful.chunkQueries {g' : Graph} (h : o.Faithful U g) (denoted : Denotes U (txsOf chunk))
    (sent : execAll neo4j (o.chunkQueries res chunk) g = .ok g') : o.Faithful U g' := by
  obtain ⟨g₁, blocks, _, rfl⟩ := execAll_chunkQueries.mp sent
  obtain ⟨outputs, locks⟩ := coins_createBlocksFast blocks
  have stored := (h.congr outputs locks).foldl_putOutput (adds_linkBy (hasBip30 chunk))
    fun _ mem => rowOf_outputId denoted mem
  obtain ⟨performs, benefits⟩ := chunkParts_perm o res chunk
  obtain ⟨outputs', locks'⟩ := coins_phases o res chunk (hasBip30 chunk) false performs benefits
    (lastCheckpoint chunk) g₁
  exact stored.congr outputs' locks'

/-- What a BIP30 chunk leaves beside its transaction. -/
theorem Faithful.besideChunk (h : o.Faithful U g) (denoted : Denotes U (txsOf chunk)) :
    o.Faithful U (IngestionOrchestrator.besideChunk o chunk g) := by
  unfold IngestionOrchestrator.besideChunk
  split
  · exact h.foldl_putOutput adds_mergeLink fun _ mem => rowOf_outputId denoted mem
  · exact h

end Growth

end IngestionOrchestrator

end ChainGraph

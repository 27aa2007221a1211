import ChainGraph.Laws.Writer

/-!
# Effects of whole row lists

What a writing method does to a graph, row by row. The merging output write sends its nodes and
its `LOCKED_TO` relationships in alternating queries; since the two touch different parts of the
graph, its effect is again one row after the other, and no row is ever refused.
-/

namespace ChainGraph

open Foundation Foundation.Store

namespace Graph

/-- `LOCKED_TO` for an output that has an address. -/
def lockRow (add : Multiset (OutputId × Address) → OutputId × Address →
    Multiset (OutputId × Address)) (g : Graph) (out : OutputData) : Graph :=
  match out.address with
  | some address => g.lockTo add out.outputId address
  | none => g

/-- An output with its address. -/
def putOutput (add : Multiset (OutputId × Address) → OutputId × Address →
    Multiset (OutputId × Address)) (g : Graph) (out : OutputData) : Graph :=
  lockRow add (g.mergeOutput out) out

section Outputs

variable {add : Multiset (OutputId × Address) → OutputId × Address →
  Multiset (OutputId × Address)}

theorem mergeOutput_lockRow (g : Graph) (a b : OutputData) :
    (lockRow add g b).mergeOutput a = lockRow add (g.mergeOutput a) b := by
  unfold lockRow
  cases b.address <;> rfl

theorem foldl_mergeOutput_lockRow (rows : List OutputData) (g : Graph) (b : OutputData) :
    rows.foldl mergeOutput (lockRow add g b) = lockRow add (rows.foldl mergeOutput g) b := by
  induction rows generalizing g with
  | nil => rfl
  | cons a rows ih => rw [List.foldl_cons, mergeOutput_lockRow, ih, List.foldl_cons]

/-- All nodes and then all relationships are the rows one after the other. -/
theorem foldl_putOutput (rows : List OutputData) (g : Graph) :
    rows.foldl (putOutput add) g = (filterOutputsWithAddress rows).foldl (lockRow add)
      (rows.foldl mergeOutput g) := by
  induction rows generalizing g with
  | nil => rfl
  | cons a rows ih =>
    rw [List.foldl_cons, ih, putOutput, foldl_mergeOutput_lockRow, List.foldl_cons]
    unfold filterOutputsWithAddress
    cases address : a.address with
    | none => simp [address, lockRow]
    | some addr => simp [address]

@[simp] theorem outputs_lockRow (g : Graph) (out : OutputData) :
    (lockRow add g out).outputs = g.outputs := by
  unfold lockRow
  cases out.address <;> rfl

@[simp] theorem outputs_mergeOutput (g : Graph) (out : OutputData) :
    (g.mergeOutput out).outputs = g.outputs.upsert (.ofData out) := rfl

theorem outputs_foldl_mergeOutput (rows : List OutputData) (g : Graph) :
    (rows.foldl mergeOutput g).outputs =
      (rows.map OutputNode.ofData).foldl Table.upsert g.outputs := by
  induction rows generalizing g with
  | nil => rfl
  | cons a rows ih => exact ih (g.mergeOutput a)

/-- Rows whose outputs are stored and that have addresses are all taken. -/
theorem foldlM_mergeLockedTo (rows : List OutputData) (g : Graph)
    (stored : ∀ out ∈ rows, g.outputs.Has out.outputId)
    (addressed : ∀ out ∈ rows, out.address.isSome) :
    rows.foldlM mergeLockedTo g = .ok (rows.foldl (lockRow mergeLink) g) := by
  induction rows generalizing g with
  | nil => rfl
  | cons a rows ih =>
    obtain ⟨addr, has⟩ := Option.isSome_iff_exists.mp (addressed a List.mem_cons_self)
    have one : g.mergeLockedTo a = .ok (lockRow mergeLink g a) := by
      unfold mergeLockedTo lockRow
      rw [if_pos (stored a List.mem_cons_self), has]
    rw [List.foldlM_cons, one]
    refine ih (lockRow mergeLink g a) (fun out mem => ?_) fun out mem =>
      addressed out (List.mem_cons_of_mem a mem)
    rw [outputs_lockRow]
    exact stored out (List.mem_cons_of_mem a mem)

/-! ## Closed forms

What a phase does to the graph as a whole. Each phase changes parts that its own conditions do not
read, so the conditions can be decided at its start. -/

/-- The outputs' nodes, their addresses and their locks. -/
theorem foldl_putOutput_eq (rows : List OutputData) (g : Graph) :
    rows.foldl (putOutput add) g =
      { g with
        outputs := (rows.map OutputNode.ofData).foldl Table.upsert g.outputs
        addresses := g.addresses ∪ (rows.filterMap (·.address)).toFinset
        lockedTo := (rows.filterMap fun out => out.address.map fun a => (out.outputId, a)).foldl
          add g.lockedTo } := by
  induction rows generalizing g with
  | nil => simp
  | cons out rows ih =>
    rw [List.foldl_cons, ih]
    cases address : out.address with
    | none =>
      simp only [putOutput, lockRow, address, mergeOutput, List.map_cons, List.foldl_cons,
        List.filterMap_cons, Option.map_none]
    | some a =>
      simp only [putOutput, lockRow, address, mergeOutput, lockTo, List.map_cons,
        List.foldl_cons, List.filterMap_cons, Option.map_some, List.toFinset_cons,
        Finset.insert_union, Finset.union_insert]

end Outputs

theorem createOutput_eq (g : Graph) (out : OutputData) :
    g.createOutput out =
      if g.outputs.Has out.outputId then .error .constraintViolation
      else .ok (putOutput link g out) := by
  unfold createOutput putOutput lockRow
  cases out.address <;> rfl

/-- Outputs are created iff their ids differ and none is stored. -/
theorem foldlM_createOutput {rows : List OutputData} {g g' : Graph} :
    rows.foldlM createOutput g = .ok g' ↔
      ((rows.map (·.outputId)).Nodup ∧ ∀ out ∈ rows, ¬ g.outputs.Has out.outputId) ∧
        g' = rows.foldl (putOutput link) g := by
  have guarded : createOutput = fun g out =>
      if g.outputs.Has out.outputId then .error .constraintViolation
      else .ok (putOutput link g out) := funext fun g => funext fun out => createOutput_eq g out
  rw [guarded]
  refine foldlM_guarded (t := fun g : Graph => g.outputs.Has) fun g out k => ?_
  rw [putOutput, outputs_lockRow, outputs_mergeOutput, Table.has_upsert]
  rfl

section Transactions

variable {add : Multiset (Txid × BlockHash) → Txid × BlockHash → Multiset (Txid × BlockHash)}

/-- The `INCLUDED_IN` of a transaction, if a block has its height. -/
def inclusion (g : Graph) (tx : TransactionData) : Option (Txid × BlockHash) :=
  (g.blockAt tx.blockHeight).map fun b => (tx.txid, b.hash)

theorem foldl_putTransaction_eq (rows : List TransactionData) (g : Graph) :
    rows.foldl (putTransaction add) g =
      { g with
        transactions := (rows.map TransactionNode.ofData).foldl Table.upsert g.transactions
        includedIn := (rows.filterMap g.inclusion).foldl add g.includedIn } := by
  induction rows generalizing g with
  | nil => rfl
  | cons tx rows ih =>
    rw [List.foldl_cons, ih]
    have same : (putTransaction add g tx).inclusion = g.inclusion := rfl
    rw [same, List.map_cons, List.foldl_cons, List.filterMap_cons]
    unfold putTransaction
    cases stored : g.blockAt tx.blockHeight with
    | none => simp only [inclusion, stored, Option.map_none]
    | some b => simp only [inclusion, stored, Option.map_some, List.foldl_cons]

/-- Transactions are created iff their ids differ and none is stored. -/
theorem foldlM_createTransaction {rows : List TransactionData} {g g' : Graph} :
    rows.foldlM createTransaction g = .ok g' ↔
      ((rows.map (·.txid)).Nodup ∧ ∀ tx ∈ rows, ¬ g.transactions.Has tx.txid) ∧
        g' = rows.foldl (putTransaction link) g :=
  foldlM_guarded (t := fun g : Graph => g.transactions.Has) fun g _ _ =>
    Table.has_upsert (t := g.transactions)

end Transactions

/-- The rows whose transaction and output are both stored. -/
theorem foldl_putHasOutput_eq
    {add : Multiset (Txid × OutputId) → Txid × OutputId → Multiset (Txid × OutputId)}
    (rows : List OutputData) (g : Graph) :
    rows.foldl (putHasOutput add) g =
      { g with
        hasOutput := ((rows.filter fun out => g.transactions.Has out.txid ∧
          g.outputs.Has out.outputId).map fun out => (out.txid, out.outputId)).foldl add
            g.hasOutput } := by
  induction rows generalizing g with
  | nil => rfl
  | cons out rows ih =>
    rw [List.foldl_cons, ih, List.filter_cons]
    unfold putHasOutput
    by_cases both : g.transactions.Has out.txid ∧ g.outputs.Has out.outputId
    · rw [if_pos both, if_pos (decide_eq_true both), List.map_cons, List.foldl_cons]
    · rw [if_neg both, if_neg fun yes => both (of_decide_eq_true yes)]

section Inputs

variable {addHas : Multiset (Txid × InputId) → Txid × InputId → Multiset (Txid × InputId)}
  {addSpends : Multiset (InputId × OutputId) → InputId × OutputId →
    Multiset (InputId × OutputId)}

/-- Whether an input gets a `SPENDS`. -/
def Spending (g : Graph) (inp : InputData) : Prop :=
  g.transactions.Has inp.txid ∧ inp.previousOutputIndex ≠ maxVout ∧
    g.outputs.Has inp.previousOutputId

instance (g : Graph) (inp : InputData) : Decidable (g.Spending inp) :=
  inferInstanceAs (Decidable (_ ∧ _))

theorem foldl_putInput_eq (rows : List InputData) (g : Graph) :
    rows.foldl (putInput addHas addSpends) g =
      { g with
        inputs := (rows.map InputNode.ofData).foldl Table.upsert g.inputs
        hasInput := ((rows.filter fun inp => g.transactions.Has inp.txid).map fun inp =>
          (inp.txid, inp.inputId)).foldl addHas g.hasInput
        spends := ((rows.filter fun inp => g.Spending inp).map fun inp =>
          (inp.inputId, inp.previousOutputId)).foldl addSpends g.spends } := by
  induction rows generalizing g with
  | nil => rfl
  | cons inp rows ih =>
    have same : (putInput addHas addSpends g inp).Spending = g.Spending := rfl
    rw [List.foldl_cons, ih, List.filter_cons, List.filter_cons]
    simp only [same]
    by_cases has : g.transactions.Has inp.txid <;> by_cases spending : g.Spending inp <;>
      simp only [putInput, has, Spending] at spending ⊢ <;> simp [spending]

/-- Inputs are created iff their ids differ and none is stored. -/
theorem foldlM_createInput {rows : List InputData} {g g' : Graph} :
    rows.foldlM createInput g = .ok g' ↔
      ((rows.map (·.inputId)).Nodup ∧ ∀ inp ∈ rows, ¬ g.inputs.Has inp.inputId) ∧
        g' = rows.foldl (putInput link link) g :=
  foldlM_guarded (t := fun g : Graph => g.inputs.Has) fun g _ _ =>
    Table.has_upsert (t := g.inputs)

end Inputs

/-! ## The simplified layer -/

theorem foldl_mergePerforms_eq (rows : List PerformsData) (g : Graph) :
    rows.foldl mergePerforms g =
      { g with
        addresses := g.addresses ∪ (rows.map (·.fromAddress)).toFinset
        performs := (rows.filter fun p => g.transactions.Has p.toTxid).foldl Table.upsert
          g.performs } := by
  induction rows generalizing g with
  | nil => simp
  | cons p rows ih =>
    rw [List.foldl_cons, ih, List.filter_cons, List.map_cons, List.toFinset_cons]
    by_cases has : g.transactions.Has p.toTxid <;>
      simp [mergePerforms, has, Finset.union_insert]

theorem foldl_mergeBenefitsTo_eq (rows : List BenefitsToData) (g : Graph) :
    rows.foldl mergeBenefitsTo g =
      { g with
        addresses := g.addresses ∪
          ((rows.filter fun b => g.transactions.Has b.fromTxid).map (·.toAddress)).toFinset
        benefitsTo := (rows.filter fun b => g.transactions.Has b.fromTxid).foldl Table.upsert
          g.benefitsTo } := by
  induction rows generalizing g with
  | nil => simp
  | cons b rows ih =>
    rw [List.foldl_cons, ih, List.filter_cons]
    by_cases has : g.transactions.Has b.fromTxid <;>
      simp [mergeBenefitsTo, has, Finset.union_insert]

end Graph

namespace Neo4jWriter

open Graph

theorem execAll_lockedToQueries (c : List OutputData) (g : Graph)
    (stored : ∀ out ∈ filterOutputsWithAddress c, g.outputs.Has out.outputId) :
    execAll neo4j (lockedToQueries c) g =
      .ok ((filterOutputsWithAddress c).foldl (lockRow mergeLink) g) := by
  unfold lockedToQueries
  by_cases none : (filterOutputsWithAddress c).isEmpty
  · rw [if_pos none, List.isEmpty_iff.mp none]
    rfl
  · rw [if_neg none, execAll_singleton]
    exact foldlM_mergeLockedTo _ g stored fun out mem => (List.mem_filter.mp mem).2

/-- The merging output write takes its rows one after the other and refuses none. -/
theorem execAll_outputQueries (w : Neo4jWriter) (outputs : List OutputData) (g : Graph) :
    execAll neo4j (w.outputQueries outputs) g = .ok (outputs.foldl (putOutput mergeLink) g) := by
  have part : ∀ (c : List OutputData) (g : Graph),
      execAll neo4j ([.createOutputs c] ++ lockedToQueries c) g =
        .ok (c.foldl (putOutput mergeLink) g) := by
    intro c g
    have nodes : execAll neo4j [.createOutputs c] g = .ok (c.foldl mergeOutput g) := rfl
    rw [execAll_append_ok nodes, foldl_putOutput, execAll_lockedToQueries]
    intro out mem
    rw [outputs_foldl_mergeOutput, Table.has_foldl_upsert]
    have inside := (List.mem_filter.mp mem).1
    exact Or.inl (List.mem_map.mpr ⟨.ofData out, List.mem_map.mpr ⟨out, inside, rfl⟩, rfl⟩)
  have parts : ∀ (cs : List (List OutputData)) (g : Graph),
      execAll neo4j (cs.flatMap fun c => [.createOutputs c] ++ lockedToQueries c) g =
        .ok (cs.flatten.foldl (putOutput mergeLink) g) := by
    intro cs
    induction cs with
    | nil => exact fun g => rfl
    | cons c cs ih =>
      intro g
      rw [List.flatMap_cons, execAll_append_ok (part c g), ih, List.flatten_cons,
        List.foldl_append]
  rw [outputQueries, parts, flatten_chunks w.batchSize_pos]

end Neo4jWriter

end ChainGraph

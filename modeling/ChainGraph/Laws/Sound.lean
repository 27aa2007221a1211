import Mathlib.Data.List.Induction
import ChainGraph.Laws.Transparency

/-!
# No relationship without its ends

`CREATE` and `MERGE` join nodes that have been matched, and `DETACH DELETE` takes a node's
relationships with it. So in every graph that calls build, a relationship has both its ends. A new
node has none, which is why merging a relationship of a new node is the same as creating it.
-/

namespace ChainGraph

open Foundation Foundation.Store

/-- Every relationship has both its ends. -/
structure Sound (g : Graph) : Prop where
  nextBlock : ∀ e ∈ g.nextBlock, g.blocks.Has e.1 ∧ g.blocks.Has e.2
  includedIn : ∀ e ∈ g.includedIn, g.transactions.Has e.1 ∧ g.blocks.Has e.2
  hasInput : ∀ e ∈ g.hasInput, g.transactions.Has e.1 ∧ g.inputs.Has e.2
  hasOutput : ∀ e ∈ g.hasOutput, g.transactions.Has e.1 ∧ g.outputs.Has e.2
  lockedTo : ∀ e ∈ g.lockedTo, g.outputs.Has e.1 ∧ e.2 ∈ g.addresses
  spends : ∀ e ∈ g.spends, g.inputs.Has e.1 ∧ g.outputs.Has e.2
  performs : ∀ p ∈ g.performs, p.fromAddress ∈ g.addresses ∧ g.transactions.Has p.toTxid
  benefitsTo : ∀ b ∈ g.benefitsTo, g.transactions.Has b.fromTxid ∧ b.toAddress ∈ g.addresses

theorem sound_empty : Sound .empty where
  nextBlock e mem := absurd mem (Multiset.notMem_zero e)
  includedIn e mem := absurd mem (Multiset.notMem_zero e)
  hasInput e mem := absurd mem (Multiset.notMem_zero e)
  hasOutput e mem := absurd mem (Multiset.notMem_zero e)
  lockedTo e mem := absurd mem (Multiset.notMem_zero e)
  spends e mem := absurd mem (Multiset.notMem_zero e)
  performs p mem := absurd mem (Table.not_mem_empty p)
  benefitsTo b mem := absurd mem (Table.not_mem_empty b)

namespace Sound

variable {g g' : Graph}

/-! ## Rows that are written -/

theorem putBlock (h : Sound g) (b : BlockNode)
    (free : ∀ c ∈ g.blocks.rows, c.height = b.height → c.hash = b.hash) :
    Sound (g.putBlock b free) := by
  have grow : ∀ k, g.blocks.Has k → (g.blocks.upsert b).Has k :=
    fun k has => Table.has_upsert.mpr (Or.inr has)
  exact { h with
    nextBlock := fun e mem => ⟨grow _ (h.nextBlock e mem).1, grow _ (h.nextBlock e mem).2⟩
    includedIn := fun e mem => ⟨(h.includedIn e mem).1, grow _ (h.includedIn e mem).2⟩ }

theorem linkPrev {add : Multiset (BlockHash × BlockHash) → BlockHash × BlockHash →
      Multiset (BlockHash × BlockHash)} (adds : Adds add) (h : Sound g) {b : BlockData}
    (stored : g.blocks.Has b.hash) : Sound (g.linkPrev add b) := by
  unfold Graph.linkPrev
  split
  · split
    · rename_i prev below
      refine { h with nextBlock := fun e mem => ?_ }
      rcases (adds _ _ _).mp mem with rfl | old
      · exact ⟨Table.has_of_mem (Graph.blockAt_eq_some.mp below).1, stored⟩
      · exact h.nextBlock e old
    · exact h
  · exact h

theorem putTransaction {add : Multiset (Txid × BlockHash) → Txid × BlockHash →
      Multiset (Txid × BlockHash)} (adds : Adds add) (h : Sound g) (tx : TransactionData) :
    Sound (g.putTransaction add tx) := by
  have grow : ∀ k, g.transactions.Has k → (g.transactions.upsert (.ofData tx)).Has k :=
    fun k has => Table.has_upsert.mpr (Or.inr has)
  have old : ∀ e ∈ g.includedIn, (g.transactions.upsert (.ofData tx)).Has e.1 ∧ g.blocks.Has e.2 :=
    fun e mem => ⟨grow _ (h.includedIn e mem).1, (h.includedIn e mem).2⟩
  refine { h with
    includedIn := fun e mem => ?_
    hasInput := fun e mem => ⟨grow _ (h.hasInput e mem).1, (h.hasInput e mem).2⟩
    hasOutput := fun e mem => ⟨grow _ (h.hasOutput e mem).1, (h.hasOutput e mem).2⟩
    performs := fun p mem => ⟨(h.performs p mem).1, grow _ (h.performs p mem).2⟩
    benefitsTo := fun b mem => ⟨grow _ (h.benefitsTo b mem).1, (h.benefitsTo b mem).2⟩ }
  unfold Graph.putTransaction at mem
  dsimp only at mem
  split at mem
  · rename_i b stored
    rcases (adds _ _ _).mp mem with rfl | before
    · exact ⟨Table.has_upsert.mpr (Or.inl rfl),
        Table.has_of_mem (Graph.blockAt_eq_some.mp stored).1⟩
    · exact old e before
  · exact old e mem

theorem mergeOutput (h : Sound g) (out : OutputData) : Sound (g.mergeOutput out) := by
  have grow : ∀ k, g.outputs.Has k → (g.outputs.upsert (.ofData out)).Has k :=
    fun k has => Table.has_upsert.mpr (Or.inr has)
  exact { h with
    hasOutput := fun e mem => ⟨(h.hasOutput e mem).1, grow _ (h.hasOutput e mem).2⟩
    lockedTo := fun e mem => ⟨grow _ (h.lockedTo e mem).1, (h.lockedTo e mem).2⟩
    spends := fun e mem => ⟨(h.spends e mem).1, grow _ (h.spends e mem).2⟩ }

theorem lockTo {add : Multiset (OutputId × Address) → OutputId × Address →
      Multiset (OutputId × Address)} (adds : Adds add) (h : Sound g) {id : OutputId}
    (stored : g.outputs.Has id) (address : Address) : Sound (g.lockTo add id address) := by
  have grow : ∀ a, a ∈ g.addresses → a ∈ insert address g.addresses :=
    fun a mem => Finset.mem_insert_of_mem mem
  refine { h with
    lockedTo := fun e mem => ?_
    performs := fun p mem => ⟨grow _ (h.performs p mem).1, (h.performs p mem).2⟩
    benefitsTo := fun b mem => ⟨(h.benefitsTo b mem).1, grow _ (h.benefitsTo b mem).2⟩ }
  rcases (adds _ _ _).mp mem with rfl | old
  · exact ⟨stored, Finset.mem_insert_self ..⟩
  · exact ⟨(h.lockedTo e old).1, grow _ (h.lockedTo e old).2⟩

theorem putOutput {add : Multiset (OutputId × Address) → OutputId × Address →
      Multiset (OutputId × Address)} (adds : Adds add) (h : Sound g) (out : OutputData) :
    Sound (g.putOutput add out) := by
  have node := h.mergeOutput out
  unfold Graph.putOutput Graph.lockRow
  cases out.address with
  | none => exact node
  | some address => exact node.lockTo adds (Table.has_upsert.mpr (Or.inl rfl)) address

theorem putHasOutput {add : Multiset (Txid × OutputId) → Txid × OutputId →
      Multiset (Txid × OutputId)} (adds : Adds add) (h : Sound g) (out : OutputData) :
    Sound (g.putHasOutput add out) := by
  unfold Graph.putHasOutput
  split
  · rename_i both
    refine { h with hasOutput := fun e mem => ?_ }
    rcases (adds _ _ _).mp mem with rfl | old
    · exact both
    · exact h.hasOutput e old
  · exact h

theorem putInput {addHas : Multiset (Txid × InputId) → Txid × InputId → Multiset (Txid × InputId)}
    {addSpends : Multiset (InputId × OutputId) → InputId × OutputId →
      Multiset (InputId × OutputId)} (addsHas : Adds addHas) (addsSpends : Adds addSpends)
    (h : Sound g) (inp : InputData) : Sound (g.putInput addHas addSpends inp) := by
  have grow : ∀ k, g.inputs.Has k → (g.inputs.upsert (.ofData inp)).Has k :=
    fun k has => Table.has_upsert.mpr (Or.inr has)
  have here : (g.inputs.upsert (.ofData inp)).Has inp.inputId := Table.has_upsert.mpr (Or.inl rfl)
  have oldHas : ∀ e ∈ g.hasInput, g.transactions.Has e.1 ∧
      (g.inputs.upsert (.ofData inp)).Has e.2 :=
    fun e mem => ⟨(h.hasInput e mem).1, grow _ (h.hasInput e mem).2⟩
  have oldSpends : ∀ e ∈ g.spends, (g.inputs.upsert (.ofData inp)).Has e.1 ∧ g.outputs.Has e.2 :=
    fun e mem => ⟨grow _ (h.spends e mem).1, (h.spends e mem).2⟩
  refine { h with hasInput := fun e mem => ?_, spends := fun e mem => ?_ } <;>
    unfold Graph.putInput at mem <;> dsimp only at mem <;> split at mem
  · rename_i has
    rcases (addsHas _ _ _).mp mem with rfl | old
    · exact ⟨has, here⟩
    · exact oldHas e old
  · exact oldHas e mem
  · rename_i spending
    rcases (addsSpends _ _ _).mp mem with rfl | old
    · exact ⟨here, spending.2.2⟩
    · exact oldSpends e old
  · exact oldSpends e mem

/-- More addresses do no harm. -/
theorem insertAddress (h : Sound g) (a : Address) :
    Sound { g with addresses := insert a g.addresses } := by
  have grow : ∀ b, b ∈ g.addresses → b ∈ insert a g.addresses :=
    fun b mem => Finset.mem_insert_of_mem mem
  exact { h with
    lockedTo := fun e mem => ⟨(h.lockedTo e mem).1, grow _ (h.lockedTo e mem).2⟩
    performs := fun p mem => ⟨grow _ (h.performs p mem).1, (h.performs p mem).2⟩
    benefitsTo := fun b mem => ⟨(h.benefitsTo b mem).1, grow _ (h.benefitsTo b mem).2⟩ }

theorem mergePerforms (h : Sound g) (p : PerformsData) : Sound (g.mergePerforms p) := by
  have known := h.insertAddress p.fromAddress
  refine { known with performs := fun q mem => ?_ }
  unfold Graph.mergePerforms at mem
  dsimp only at mem
  split at mem
  · rename_i has
    rcases Table.mem_upsert.mp mem with rfl | ⟨old, _⟩
    · exact ⟨Finset.mem_insert_self .., has⟩
    · exact known.performs q old
  · exact known.performs q mem

theorem mergeBenefitsTo (h : Sound g) (b : BenefitsToData) : Sound (g.mergeBenefitsTo b) := by
  have known := h.insertAddress b.toAddress
  unfold Graph.mergeBenefitsTo
  split
  · rename_i has
    refine { known with benefitsTo := fun q mem => ?_ }
    rcases Table.mem_upsert.mp mem with rfl | ⟨old, _⟩
    · exact ⟨has, Finset.mem_insert_self ..⟩
    · exact known.benefitsTo q old
  · exact h

/-! ## Nodes that are deleted -/

theorem has_delete_key {α κ : Type} [DecidableEq κ] {key : α → κ} {t : Table α key}
    {p : κ → Prop} [DecidablePred p] {k : κ} (has : t.Has k) (keep : ¬ p k) :
    (t.delete fun a => p (key a)).Has k := by
  obtain ⟨a, mem, rfl⟩ := has
  exact Table.has_delete.mpr ⟨a, mem, keep, rfl⟩

theorem detachDeleteInputs (h : Sound g) (p : InputId → Prop) [DecidablePred p] :
    Sound (g.detachDeleteInputs p) := by
  refine { h with hasInput := fun e mem => ?_, spends := fun e mem => ?_ }
  · obtain ⟨old, keep⟩ := Multiset.mem_filter.mp mem
    exact ⟨(h.hasInput e old).1, has_delete_key (h.hasInput e old).2 keep⟩
  · obtain ⟨old, keep⟩ := Multiset.mem_filter.mp mem
    exact ⟨has_delete_key (h.spends e old).1 keep, (h.spends e old).2⟩

theorem detachDeleteOutputs (h : Sound g) (p : OutputId → Prop) [DecidablePred p] :
    Sound (g.detachDeleteOutputs p) := by
  refine { h with
    hasOutput := fun e mem => ?_, lockedTo := fun e mem => ?_, spends := fun e mem => ?_ }
  · obtain ⟨old, keep⟩ := Multiset.mem_filter.mp mem
    exact ⟨(h.hasOutput e old).1, has_delete_key (h.hasOutput e old).2 keep⟩
  · obtain ⟨old, keep⟩ := Multiset.mem_filter.mp mem
    exact ⟨has_delete_key (h.lockedTo e old).1 keep, (h.lockedTo e old).2⟩
  · obtain ⟨old, keep⟩ := Multiset.mem_filter.mp mem
    exact ⟨(h.spends e old).1, has_delete_key (h.spends e old).2 keep⟩

theorem detachDeleteTransactions (h : Sound g) (p : Txid → Prop) [DecidablePred p] :
    Sound (g.detachDeleteTransactions p) := by
  refine { h with
    includedIn := fun e mem => ?_, hasInput := fun e mem => ?_, hasOutput := fun e mem => ?_
    performs := fun r mem => ?_, benefitsTo := fun r mem => ?_ }
  · obtain ⟨old, keep⟩ := Multiset.mem_filter.mp mem
    exact ⟨has_delete_key (h.includedIn e old).1 keep, (h.includedIn e old).2⟩
  · obtain ⟨old, keep⟩ := Multiset.mem_filter.mp mem
    exact ⟨has_delete_key (h.hasInput e old).1 keep, (h.hasInput e old).2⟩
  · obtain ⟨old, keep⟩ := Multiset.mem_filter.mp mem
    exact ⟨has_delete_key (h.hasOutput e old).1 keep, (h.hasOutput e old).2⟩
  · obtain ⟨old, keep⟩ := Table.mem_delete.mp mem
    exact ⟨(h.performs r old).1, has_delete_key (h.performs r old).2 keep⟩
  · obtain ⟨old, keep⟩ := Table.mem_delete.mp mem
    exact ⟨has_delete_key (h.benefitsTo r old).1 keep, (h.benefitsTo r old).2⟩

theorem detachDeleteBlockAt (h : Sound g) (height : ℕ) : Sound (g.detachDeleteBlockAt height) := by
  unfold Graph.detachDeleteBlockAt
  cases stored : g.blockAt height with
  | none => exact h
  | some b =>
    obtain ⟨mem, here⟩ := Graph.blockAt_eq_some.mp stored
    have kept : ∀ k, g.blocks.Has k → k ≠ b.hash →
        (g.blocks.delete fun c => c.height = height).Has k := by
      rintro k ⟨c, hc, rfl⟩ other
      exact Table.has_delete.mpr ⟨c, hc, fun same =>
        other (congrArg _ (g.heightUnique c hc b mem (same.trans here.symm))), rfl⟩
    refine { h with nextBlock := fun e mem => ?_, includedIn := fun e mem => ?_ }
    · obtain ⟨old, other, other'⟩ := Multiset.mem_filter.mp mem
      exact ⟨kept _ (h.nextBlock e old).1 other, kept _ (h.nextBlock e old).2 other'⟩
    · obtain ⟨old, other⟩ := Multiset.mem_filter.mp mem
      exact ⟨(h.includedIn e old).1, kept _ (h.includedIn e old).2 other⟩

/-! ## Queries -/

/-- What every row keeps, a list of rows keeps. -/
theorem foldl {α : Type} {f : Graph → α → Graph} (step : ∀ g a, Sound g → Sound (f g a))
    (h : Sound g) (rows : List α) : Sound (rows.foldl f g) :=
  List.foldlRecOn rows f h fun g h a _ => step g a h

theorem foldlM {α : Type} {f : Graph → α → Except DbFault Graph}
    (step : ∀ g a g', Sound g → f g a = .ok g' → Sound g') (h : Sound g) {rows : List α}
    (ok : rows.foldlM f g = .ok g') : Sound g' :=
  foldlM_keeps (fun a _ g g' h ok => step g a g' h ok) h ok

/-- Blocks are written and then linked. -/
theorem writeBlocks {put : Graph → BlockData → Except DbFault Graph}
    {add : Multiset (BlockHash × BlockHash) → BlockHash × BlockHash →
      Multiset (BlockHash × BlockHash)} (adds : Adds add)
    (puts : ∀ g b g', put g b = .ok g' → g.mergeBlock b = .ok g') (h : Sound g)
    {rows : List BlockData}
    (ok : (rows.foldlM put g >>= fun g => .ok (rows.foldl (Graph.linkPrev add) g)) = .ok g') :
    Sound g' := by
  have written : ∀ (rows : List BlockData) (g g₁ : Graph), Sound g →
      rows.foldlM put g = .ok g₁ → Sound g₁ ∧ (∀ k, g.blocks.Has k → g₁.blocks.Has k) ∧
        ∀ b ∈ rows, g₁.blocks.Has b.hash := by
    intro rows
    induction rows with
    | nil =>
      intro g g₁ h ok
      cases ok
      exact ⟨h, fun k has => has, fun b mem => absurd mem List.not_mem_nil⟩
    | cons b rows ih =>
      intro g g₁ h ok
      rw [List.foldlM_cons] at ok
      cases first : put g b with
      | error e =>
        rw [first] at ok
        cases ok
      | ok g₂ =>
        rw [first] at ok
        obtain ⟨free, hu, rfl⟩ := Graph.mergeBlock_eq_ok.mp (puts g b g₂ first)
        obtain ⟨sound, grow, stored⟩ := ih _ g₁ (h.putBlock b free) ok
        refine ⟨sound, fun k has => grow k (Table.has_upsert.mpr (Or.inr has)), fun c mem => ?_⟩
        rcases List.mem_cons.mp mem with rfl | inside
        · exact grow _ (Table.has_upsert.mpr (Or.inl rfl))
        · exact stored c inside
  cases first : rows.foldlM put g with
  | error e =>
    rw [first] at ok
    cases ok
  | ok g₁ =>
    rw [first] at ok
    cases ok
    obtain ⟨sound, _, stored⟩ := written rows g g₁ h first
    refine (List.foldlRecOn (motive := fun g => Sound g ∧ ∀ b ∈ rows, g.blocks.Has b.hash) rows
      (Graph.linkPrev add) ⟨sound, stored⟩ fun g' both b mem =>
        ⟨both.1.linkPrev adds (both.2 b mem), fun c hc => ?_⟩).1
    have same : (g'.linkPrev add b).blocks = g'.blocks := by
      unfold Graph.linkPrev
      split
      · split <;> rfl
      · rfl
    rw [same]
    exact both.2 c hc

/-- Guarded rows. -/
theorem of_guarded {p : Prop} [Decidable p] {fault : DbFault} {g₁ : Graph} (h : Sound g₁)
    (ok : (if p then Except.error fault else .ok g₁) = .ok g') : Sound g' := by
  split at ok
  · cases ok
  · cases ok
    exact h

/-- **Every query** keeps the ends of relationships. -/
theorem exec (h : Sound g) {q : Query} (ok : q.exec g = .ok g') : Sound g' := by
  cases q with
  | createBlocks blocks => exact h.writeBlocks adds_mergeLink (fun _ _ _ ok => ok) ok
  | createTransactions rows =>
    cases ok
    exact foldl (fun g tx h => h.putTransaction adds_mergeLink tx) h rows
  | createOutputs rows =>
    cases ok
    exact foldl (fun g out h => h.mergeOutput out) h rows
  | createLockedTo rows =>
    refine foldlM (fun g out g' h ok => ?_) h ok
    unfold Graph.mergeLockedTo at ok
    split at ok
    · rename_i has
      split at ok
      · cases ok
        exact h.lockTo adds_mergeLink has _
      · cases ok
    · cases ok
      exact h
  | createHasOutput rows =>
    cases ok
    exact foldl (fun g out h => h.putHasOutput adds_mergeLink out) h rows
  | createInputs rows =>
    cases ok
    exact foldl (fun g inp h => h.putInput adds_mergeLink adds_mergeLink inp) h rows
  | createPerformsBulk rows =>
    cases ok
    exact foldl (fun g p h => h.mergePerforms p) h rows
  | createBenefitsToBulk rows =>
    cases ok
    exact foldl (fun g b h => h.mergeBenefitsTo b) h rows
  | deleteCheckpoint => cases ok; exact { h with }
  | createCheckpoint => cases ok; exact { h with }
  | setCheckpointStatus status => cases ok; exact { h with }
  | updateCheckpoint checkpoint => cases ok; exact { h with }
  | markCheckpointComplete => cases ok; exact { h with }
  | rollbackDeleteInputs height => cases ok; exact h.detachDeleteInputs _
  | rollbackDeleteOutputs height => cases ok; exact h.detachDeleteOutputs _
  | rollbackDeleteTransactions height => cases ok; exact h.detachDeleteTransactions _
  | rollbackDeleteBlock height => cases ok; exact h.detachDeleteBlockAt height
  | createBlocksFast blocks =>
    refine h.writeBlocks adds_link (fun g b g' ok => ?_) ok
    unfold Graph.createBlock at ok
    split at ok
    · cases ok
    · exact ok
  | createTransactionsFast rows =>
    exact foldlM (fun g tx g' h ok => of_guarded (h.putTransaction adds_link tx) ok) h ok
  | createOutputsWithLockedToFast rows =>
    refine foldlM (fun g out g' h ok => ?_) h ok
    rw [Graph.createOutput_eq] at ok
    exact of_guarded (h.putOutput adds_link out) ok
  | createInputsFast rows =>
    exact foldlM (fun g inp g' h ok => of_guarded (h.putInput adds_link adds_link inp) ok) h ok
  | createHasOutputFast rows =>
    cases ok
    exact foldl (fun g out h => h.putHasOutput adds_link out) h rows

theorem execAll (h : Sound g) {qs : List Query} (ok : Store.execAll neo4j qs g = .ok g') :
    Sound g' :=
  foldlM (fun _ _ _ h ok => h.exec ok) h ok

/-- So does every program. -/
theorem run {α : Type} (h : Sound g) (p : Ingest α) (c : UtxoCache) :
    Sound (p.run World.handle ⟨⟨g, none⟩, c⟩).2.store.committed :=
  (World.lawful_run (E := neo4j) (S := Sound) (fun _ _ _ h ok => h.exec ok) p
    (w := ⟨⟨g, none⟩, c⟩) (.idle h)).committed

end Sound

theorem sound_reachable {o : IngestionOrchestrator} {U : Denotation} {g : Graph}
    (reached : Reachable o U g) : Sound g := by
  induction reached with
  | refl => exact sound_empty
  | tail _ step h =>
    obtain ⟨o', call, c, _, _, rfl⟩ := step
    exact h.run _ c

end ChainGraph

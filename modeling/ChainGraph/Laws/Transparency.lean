import Mathlib.Logic.Relation
import ChainGraph.Laws.Coins
import ChainGraph.Laws.Recovery

/-!
# The cache is transparent to single blocks

Over a graph that ingestion has built, what a block's inputs resolve to is a matter of the graph
alone, so the cache decides neither whether `ingest_block` succeeds nor what it writes. After the
block the cache is coherent again: what it was given is stored, and what was evicted or spent is
merely not there.
-/

namespace ChainGraph

open Foundation Foundation.Store

/-! ## Graphs built by ingestion -/

/-- The orchestrators extract the same addresses; batch sizes, budgets and retries may differ. -/
def IngestionOrchestrator.SameChain (o o' : IngestionOrchestrator) : Prop :=
  o.crate = o'.crate ∧ o.network = o'.network

/-- One call, under any configuration and with any cache, that brings transactions their txids
denote. It may fail. -/
def DenotedStep (o : IngestionOrchestrator) (U : Denotation) (g g' : Graph) : Prop :=
  ∃ (o' : IngestionOrchestrator) (call : Call) (c : UtxoCache), o.SameChain o' ∧
    Denotes U (txsOf call.blocks) ∧
    ((call.program o').run World.handle ⟨⟨g, none⟩, c⟩).2.store.committed = g'

/-- Graphs that calls build from the empty one. -/
def Reachable (o : IngestionOrchestrator) (U : Denotation) : Graph → Prop :=
  Relation.ReflTransGen (DenotedStep o U) .empty

namespace IngestionOrchestrator

variable {o : IngestionOrchestrator} {U : Denotation} {g g₁ g' : Graph} {c : UtxoCache}
  {b : LocatedBlock} {offset : Option ℕ}

/-- Rollback and recovery statements delete outputs with their locks, or leave both alone. -/
theorem Faithful.recovers {q : Query} (recovers : q.Recovers) (h : o.Faithful U g)
    (ok : q.exec g = .ok g') : o.Faithful U g' := by
  cases q <;> cases recovers <;> cases ok
  case rollbackDeleteOutputs height => exact h.detachDeleteOutputs _
  case rollbackDeleteBlock height =>
    unfold Graph.detachDeleteBlockAt
    cases g.blockAt height <;> exact h.congr rfl rfl
  all_goals exact h.congr rfl rfl

/-- A program of rollback and recovery. -/
theorem Faithful.run_recovers {α : Type} {p : Io α} (sends : Neo4jWriter.OnlySends Query.Recovers p)
    (h : o.Faithful U g) :
    o.Faithful U ((io p).run World.handle ⟨⟨g, none⟩, c⟩).2.store.committed := by
  have onC : ∀ q g g', Query.Recovers q → o.Faithful U g → q.exec g = .ok g' →
      o.Faithful U g' := fun q g g' recovers h ok => h.recovers recovers ok
  have start : Store.Keeps (E := neo4j) (o.Faithful U) (fun _ => True) false ⟨g, none⟩ :=
    ⟨h, fun _ _ => trivial, rfl⟩
  exact (World.keeps_run onC (fun _ _ _ _ _ _ => trivial) (World.always_lift sends)
    (w := ⟨⟨g, none⟩, c⟩) start).committed

theorem Faithful.ingestBlock (h : o.Faithful U g) (denoted : Denotes U (txsOf [b])) :
    o.Faithful U ((o.ingestBlock b.block b.height b.fileName offset).run World.handle
      ⟨⟨g, none⟩, c⟩).2.store.committed := by
  have outcome := run_ingestBlock_outcome o b offset g c
  generalize (o.ingestBlock b.block b.height b.fileName offset).run World.handle
    ⟨⟨g, none⟩, c⟩ = result at outcome ⊢
  cases outcome with
  | orphan err unlinked => exact h
  | refused err fault parent refusal => exact h
  | missing err g₁ c' parent created looked =>
    obtain ⟨outputs, locks⟩ := coins_blockQuery created
    exact (h.congr outputs locks).putOutputs denoted
  | stored g₁ res c' parent created looked =>
    obtain ⟨outputs, locks⟩ := coins_blockQuery created
    obtain ⟨outputs', locks'⟩ := coins_finishBlock o res b offset g₁
    exact ((h.congr outputs locks).putOutputs denoted).congr outputs' locks'

/-- One chunk leaves the transaction slot free and the graph faithful. -/
theorem Faithful.ingestChunk {chunk : List LocatedBlock} {w : World neo4j UtxoCache}
    (free : w.store.active = none) (h : o.Faithful U w.store.committed)
    (denoted : Denotes U (txsOf chunk)) :
    ((o.ingestChunk chunk).run World.handle w).2.store.active = none ∧
      o.Faithful U ((o.ingestChunk chunk).run World.handle w).2.store.committed := by
  obtain ⟨⟨g, active⟩, c⟩ := w
  dsimp only at free h
  subst free
  obtain ⟨found, c₁, fetched⟩ := run_prefetchUtxos_total g none c (spentKeys chunk)
  have outcome := run_ingestChunk_outcome (o := o) fetched
  generalize (o.ingestChunk chunk).run World.handle ⟨⟨g, none⟩, c⟩ = result at outcome ⊢
  cases outcome with
  | orphan err unlinked => exact ⟨rfl, h⟩
  | refused err g' c' parent outside =>
    refine ⟨rfl, ?_⟩
    rcases outside with rfl | rfl
    · exact h
    · exact h.besideChunk denoted
  | committed g' parent sent => exact ⟨rfl, h.chunkQueries denoted sent⟩

theorem Faithful.ingestBlocksBatch {blocks : List LocatedBlock} (h : o.Faithful U g)
    (denoted : Denotes U (txsOf blocks)) :
    o.Faithful U ((o.ingestBlocksBatch blocks).run World.handle
      ⟨⟨g, none⟩, c⟩).2.store.committed := by
  have kept := run_ingestChunks_keeps
    (S := fun w => w.store.active = none ∧ o.Faithful U w.store.committed)
    (o.adaptiveChunks blocks)
    (fun chunk mem w inv => Faithful.ingestChunk inv.1 inv.2 fun tx inChunk => ?_)
    ⟨0, 0, 0, (o.adaptiveChunks blocks).length⟩ (w := ⟨⟨g, none⟩, c⟩) ⟨rfl, h⟩
  · exact kept.2
  · exact denoted tx (mem_txsOf_of_chunk mem inChunk)

/-- What a call leaves. -/
theorem Faithful.call (h : o.Faithful U g) (call : Call)
    (denoted : Denotes U (txsOf call.blocks)) :
    o.Faithful U ((call.program o).run World.handle ⟨⟨g, none⟩, c⟩).2.store.committed := by
  cases call with
  | initSchema => exact h.run_recovers sends_initSchema
  | syncCheckpointWithDb =>
    rw [Call.program, Prog.run_discard]
    exact h.run_recovers sends_syncCheckpointWithDb
  | ingestBlock b offset => exact h.ingestBlock denoted
  | ingestBlocksBatch blocks =>
    rw [Call.program, Prog.run_discard]
    exact h.ingestBlocksBatch denoted
  | rollbackToHeight currentTip forkPoint =>
    rw [Call.program, Prog.run_discard]
    exact h.run_recovers (sends_rollbackToHeight currentTip forkPoint)

/-- Whether a graph is faithful does not depend on the configuration. -/
theorem Faithful.sameChain {o' : IngestionOrchestrator} (same : o.SameChain o')
    (h : o.Faithful U g) : o'.Faithful U g := by
  have rows : o'.rowOf U = o.rowOf U := by
    funext id
    rw [rowOf, rowOf, same.1, same.2]
  refine ⟨?_, ?_, ?_⟩ <;> rw [rows]
  · exact h.outputs
  · exact h.locked
  · exact h.addressed

/-- **Provenance.** Every graph ingestion builds is faithful. -/
theorem faithful_reachable (reached : Reachable o U g) : o.Faithful U g := by
  induction reached with
  | refl => exact faithful_empty
  | tail _ step h =>
    obtain ⟨o', call, c, same, denoted, rfl⟩ := step
    exact ((h.sameChain same).call call denoted).sameChain ⟨same.1.symm, same.2.symm⟩

/-! ## Caches over a faithful graph -/

/-- Outputs put into a coherent cache once they are stored: it is coherent with the new graph. -/
theorem coherent_populateCache (h : o.Faithful U g) (coherent : Coherent g c)
    {rows : List OutputData} (denoted : ∀ row ∈ rows, o.rowOf U row.outputId = some row)
    {add : Multiset (OutputId × Address) → OutputId × Address → Multiset (OutputId × Address)}
    (adds : Adds add) :
    Coherent (rows.foldl (Graph.putOutput add) g) (populateCache rows c) := by
  induction rows generalizing g c with
  | nil => exact coherent
  | cons row rows ih =>
    have here := denoted row List.mem_cons_self
    have stored := h.putOutput adds here
    refine ih stored ?_ fun r hr => denoted r (List.mem_cons_of_mem row hr)
    have outputs : (Graph.putOutput add g row).outputs = g.outputs.upsert (.ofData row) := by
      rw [Graph.putOutput, Graph.outputs_lockRow, Graph.outputs_mergeOutput]
    intro k v present
    rcases UtxoCache.peek_insert present with ⟨rfl, rfl⟩ | ⟨_, old⟩
    · have has : (Graph.putOutput add g row).outputs.Has row.outputId := by
        rw [outputs, Table.has_upsert]
        exact Or.inl rfl
      have same := stored.resolve has
      rw [valueOf, here] at same
      rw [outputId_of_rowOf here, same, Option.map_some]
    · have before := coherent k v old
      have has : (Graph.putOutput add g row).outputs.Has k := by
        rw [outputs, Table.has_upsert]
        exact Or.inr (coherent.has (by rw [old, Option.isSome_some]))
      rw [stored.resolve has, h.resolve_eq_some before]

/-- What a block's lookup answers once its outputs are stored, and the cache it leaves. -/
theorem looked_block (h : o.Faithful U g) (coherent : Coherent g c)
    (denoted : Denotes U (txsOf [b])) :
    ∃ r c', Coherent (o.putOutputs b g) c' ∧
      (getManyWithFallback (spentKeys [b])).run World.handle
          ⟨⟨o.putOutputs b g, none⟩, populateCache (o.outputRows [b]) c⟩ =
        (r, ⟨⟨o.putOutputs b g, none⟩, c'⟩) ∧
      ((∀ k ∈ spentKeys [b], (o.putOutputs b g).outputs.Has k) →
        r = .ok (storedAmong (o.putOutputs b g) (spentKeys [b]))) ∧
      ((¬ ∀ k ∈ spentKeys [b], (o.putOutputs b g).outputs.Has k) → ∃ e, r = .error e) := by
  have filled : Coherent (o.putOutputs b g) (populateCache (o.outputRows [b]) c) :=
    coherent_populateCache h coherent (fun _ mem => rowOf_outputId denoted mem) adds_mergeLink
  obtain ⟨r, found, c', answered, ran, complete, incomplete⟩ := run_getManyWithFallback
    none (spentKeys [b]) (g := o.putOutputs b g) filled fun _ _ found => found
  have known : (∀ k ∈ spentKeys [b], (o.putOutputs b g).outputs.Has k) ↔
      ∀ k ∈ spentKeys [b], ((populateCache (o.outputRows [b]) c).peek k).isSome ∨
        (o.putOutputs b g).outputs.Has k :=
    forall₂_congr fun k _ => ⟨Or.inr, fun either => either.elim filled.has id⟩
  refine ⟨r, c', answered.cache, ran, fun all => ?_, fun some => ?_⟩
  · rw [complete (known.mp all), answered.eq_storedAmong]
  · exact incomplete fun all => some (known.mpr all)

/-- `ingest_block` over any coherent cache: whether it succeeds and the graph it leaves are the
graph's doing, and the cache it leaves is coherent. -/
theorem ingestBlock_result (offset : Option ℕ) (h : o.Faithful U g)
    (denoted : Denotes U (txsOf [b])) :
    ∃ (ok : Bool) (g' : Graph), ∀ c, Coherent g c → ∃ r c', r.isOk = ok ∧ Coherent g' c' ∧
      (o.ingestBlock b.block b.height b.fileName offset).run World.handle ⟨⟨g, none⟩, c⟩ =
        (r, ⟨⟨g', none⟩, c'⟩) := by
  by_cases parent : ParentOk g b.block b.height
  swap
  · refine ⟨false, g, fun c coherent => ?_⟩
    obtain ⟨err, ran⟩ := run_ingestBlock_orphan offset (o := o) (c := c) parent
    exact ⟨_, c, rfl, coherent, ran⟩
  cases created : (blockQuery b).exec g with
  | error fault =>
    refine ⟨false, g, fun c coherent => ?_⟩
    obtain ⟨err, ran⟩ := run_ingestBlock_refused offset (o := o) (c := c) parent created
    exact ⟨_, c, rfl, coherent, ran⟩
  | ok g₁ =>
    obtain ⟨outputs, locks⟩ := coins_blockQuery created
    have h₁ := h.congr outputs locks
    by_cases complete : ∀ k ∈ spentKeys [b], (o.putOutputs b g₁).outputs.Has k
    · let found := storedAmong (o.putOutputs b g₁) (spentKeys [b])
      refine ⟨true, o.finishBlock found b offset (o.putOutputs b g₁), fun c coherent => ?_⟩
      obtain ⟨r, c', coherent', looked, stored, _⟩ :=
        looked_block h₁ (coherent.congr outputs locks) denoted
      rw [stored complete] at looked
      obtain ⟨outputs', locks'⟩ := coins_finishBlock o found b offset g₁
      refine ⟨_, _, rfl, (coherent'.congr outputs' locks').of_peek fun k v present => ?_,
        run_ingestBlock_ok offset parent created looked⟩
      rw [UtxoCache.peek_removeMany] at present
      split at present
      · cases present
      · exact Or.inl present
    · refine ⟨false, o.putOutputs b g₁, fun c coherent => ?_⟩
      obtain ⟨r, c', coherent', looked, _, missing⟩ :=
        looked_block h₁ (coherent.congr outputs locks) denoted
      obtain ⟨err, rfl⟩ := missing complete
      exact ⟨_, c', rfl, coherent', run_ingestBlock_missing parent created looked⟩

/-- **Cache transparency.** Over a graph built by ingestion, two coherent caches, whatever their
capacities and contents, make `ingest_block` succeed or fail alike and leave the same database,
and each run leaves a cache coherent with it. -/
theorem ingestBlock_cache_transparent (reached : Reachable o U g)
    (denoted : Denotes U (txsOf [b])) {c₁ c₂ : UtxoCache} (coherent₁ : Coherent g c₁)
    (coherent₂ : Coherent g c₂) :
    let run c := (o.ingestBlock b.block b.height b.fileName offset).run World.handle
      ⟨⟨g, none⟩, c⟩
    (run c₁).1.isOk = (run c₂).1.isOk ∧ (run c₁).2.store = (run c₂).2.store ∧
      Coherent (run c₁).2.store.committed (run c₁).2.memory ∧
      Coherent (run c₂).2.store.committed (run c₂).2.memory := by
  intro run
  obtain ⟨ok, g', result⟩ := ingestBlock_result offset (faithful_reachable reached) denoted
  obtain ⟨r₁, c₁', ok₁, after₁, ran₁⟩ := result c₁ coherent₁
  obtain ⟨r₂, c₂', ok₂, after₂, ran₂⟩ := result c₂ coherent₂
  have run₁ : run c₁ = (r₁, ⟨⟨g', none⟩, c₁'⟩) := ran₁
  have run₂ : run c₂ = (r₂, ⟨⟨g', none⟩, c₂'⟩) := ran₂
  rw [run₁, run₂]
  exact ⟨ok₁.trans ok₂.symm, rfl, after₁, after₂⟩

end IngestionOrchestrator

/-- What the txids of the small chain denote. -/
def Sample.denotation : Denotation := fun txid =>
  if txid = 3 then [⟨40, eaterScript⟩]
  else if txid = 4 then [⟨30, burnScript⟩]
  else [⟨50, burnScript⟩]

/-- The second block of the small chain, over the first, with caches of two capacities. -/
theorem ingestBlock_cache_transparent_second :
    let o := Sample.orchestrator 0
    let g := (((Call.ingestBlock Sample.first none).program o).run World.handle
      ⟨⟨.empty, none⟩, .new 1⟩).2.store.committed
    let run c := (o.ingestBlock Sample.second.block 1 "blk00000.dat" none).run World.handle
      ⟨⟨g, none⟩, c⟩
    (run (.new 1)).1.isOk = (run (.new 1000)).1.isOk ∧
      (run (.new 1)).2.store = (run (.new 1000)).2.store ∧
      Coherent (run (.new 1)).2.store.committed (run (.new 1)).2.memory ∧
      Coherent (run (.new 1000)).2.store.committed (run (.new 1000)).2.memory := by
  refine IngestionOrchestrator.ingestBlock_cache_transparent (U := Sample.denotation)
    (b := Sample.second)
    (.single ⟨_, .ingestBlock Sample.first none, .new 1, ⟨rfl, rfl⟩, ?_, rfl⟩) ?_
    (coherent_new _ _) (coherent_new _ _)
  · show ∀ tx ∈ txsOf [Sample.first], _
    decide
  · show ∀ tx ∈ txsOf [Sample.second], _
    decide

end ChainGraph

import ChainGraph.Laws.Grown

/-!
# One relationship of a kind

Merging a relationship never repeats it, and creating one for a node that was just created cannot
repeat it either. A chunk at a BIP30 height merges its nodes, so a node need not be new, and its
relationships are merged as well; all but one kind. `HAS_OUTPUT` is created without looking in every
chunk, and so is repeated exactly when such a chunk brings one that is stored or brings one twice.
-/

namespace ChainGraph

open Foundation Foundation.Store

/-- At most one relationship: of a transaction with an output, of a transaction with a block, from
an input, and from an output to an address. -/
structure Single (g : Graph) : Prop where
  hasOutput : g.hasOutput.Nodup
  includedIn : g.includedIn.Nodup
  spends : (g.spends.map Prod.fst).Nodup
  lockedTo : (g.lockedTo.map Prod.fst).Nodup

/-- What the inputs of the transaction under each txid spend. -/
abbrev InputDenotation := Txid → List OutPoint

/-- The transactions spend what their txids denote. -/
def DenotesInputs (V : InputDenotation) (txs : List Transaction) : Prop :=
  ∀ tx ∈ txs, V tx.txid = tx.input.map (·.previousOutput)

namespace IngestionOrchestrator

/-! ## Links are merged or new -/

section Links

variable {ε : Type} [DecidableEq ε] {merging : Bool} {s : Multiset ε} {es : List ε}

theorem nodup_foldl_mergeLink (nodup : s.Nodup) : (es.foldl mergeLink s).Nodup := by
  induction es generalizing s with
  | nil => exact nodup
  | cons e es ih => exact ih (nodup_mergeLink nodup e)

omit [DecidableEq ε] in
theorem nodup_foldl_link : (es.foldl link s).Nodup ↔ s.Nodup ∧ es.Nodup ∧ ∀ e ∈ es, e ∉ s := by
  rw [foldl_link, Multiset.nodup_add, Multiset.coe_nodup, Multiset.disjoint_right]
  simp only [Multiset.mem_coe]

theorem nodup_foldl_linkBy (nodup : s.Nodup)
    (fresh : ¬ merging → es.Nodup ∧ ∀ e ∈ es, e ∉ s) : (es.foldl (linkBy merging) s).Nodup := by
  cases merging
  · exact nodup_foldl_link.mpr ⟨nodup, fresh Bool.false_ne_true⟩
  · exact nodup_foldl_mergeLink nodup

theorem mem_foldl_linkBy {e : ε} : e ∈ es.foldl (linkBy merging) s ↔ e ∈ es ∨ e ∈ s := by
  induction es generalizing s with
  | nil => simp
  | cons d es ih =>
    rw [List.foldl_cons, ih, adds_linkBy merging, List.mem_cons]
    tauto

end Links

/-! ## Three kinds are never repeated -/

/-- No relationship of the other three kinds is repeated, and what is spent is what is denoted. -/
structure Unrepeated (V : InputDenotation) (g : Graph) : Prop where
  includedIn : g.includedIn.Nodup
  spends : g.spends.Nodup
  lockedTo : g.lockedTo.Nodup
  spent : ∀ e ∈ g.spends, (V e.1.txid)[e.1.vout]? = some e.2

variable {o : IngestionOrchestrator} {U : Denotation} {V : InputDenotation} {g g₁ g' : Graph}
  {c : UtxoCache} {b : LocatedBlock} {offset : Option ℕ} {res : Found}
  {rows chunk : List LocatedBlock}

theorem unrepeated_empty : Unrepeated V .empty where
  includedIn := Multiset.nodup_zero
  spends := Multiset.nodup_zero
  lockedTo := Multiset.nodup_zero
  spent e mem := absurd mem (Multiset.notMem_zero e)

/-- Fewer relationships. -/
theorem Unrepeated.mono (h : Unrepeated V g) (includedIn : g'.includedIn ≤ g.includedIn)
    (spends : g'.spends ≤ g.spends) (lockedTo : g'.lockedTo ≤ g.lockedTo) : Unrepeated V g' where
  includedIn := Multiset.nodup_of_le includedIn h.includedIn
  spends := Multiset.nodup_of_le spends h.spends
  lockedTo := Multiset.nodup_of_le lockedTo h.lockedTo
  spent e mem := h.spent e (Multiset.mem_of_le spends mem)

/-- With at most one `HAS_OUTPUT` there is at most one of every kind: an input's previous output and
an output's address are denoted. -/
theorem single_iff (faithful : o.Faithful U g) (h : Unrepeated V g) :
    Single g ↔ g.hasOutput.Nodup := by
  refine ⟨Single.hasOutput, fun nodup => ⟨nodup, h.includedIn, ?_, ?_⟩⟩
  · refine h.spends.map_on fun e mem e' mem' same => Prod.ext same ?_
    have denoted := h.spent e mem
    rw [same, h.spent e' mem'] at denoted
    exact (Option.some.inj denoted).symm
  · refine h.lockedTo.map_on fun e mem e' mem' same => Prod.ext same ?_
    obtain ⟨row, denoted, address⟩ := faithful.locked e mem
    obtain ⟨row', denoted', address'⟩ := faithful.locked e' mem'
    rw [same, denoted'] at denoted
    cases denoted
    exact Option.some.inj (address.symm.trans address')

/-- A row of an input names what its id denotes. -/
theorem spent_of_mem (denoted : DenotesInputs V (txsOf rows)) {inp : InputData}
    (mem : inp ∈ inputRows rows) :
    (V inp.inputId.txid)[inp.inputId.vout]? = some inp.previousOutputId := by
  obtain ⟨b, inRows, inBlock⟩ := List.mem_flatMap.mp mem
  obtain ⟨tx, inTxs, inTx⟩ := List.mem_flatMap.mp inBlock
  obtain ⟨⟨input, i⟩, place, rfl⟩ := List.mem_map.mp inTx
  have here := List.mk_mem_zipIdx_iff_getElem?.mp place
  have short : i < 2 ^ 32 := Nat.lt_trans (List.getElem?_eq_some_iff.mp here).1 tx.inputs_lt
  have known := denoted tx (List.mem_flatMap.mpr ⟨b, inRows, inTxs⟩)
  show (V tx.txid)[asU32 i]? = some ⟨input.previousOutput.txid, input.previousOutput.vout⟩
  rw [known, asU32_of_lt short, List.getElem?_map, here]
  rfl

/-- The phases repeat none of the three, merged or with new rows. -/
theorem Unrepeated.phases (h : Unrepeated V g) (sound : Sound g)
    (denoted : DenotesInputs V (txsOf rows)) {merging : Bool} (mergingHas : Bool)
    (fresh : ¬ merging → o.NewRows rows g)
    {parts : List (List PerformsData × List BenefitsToData)}
    (performs : (parts.flatMap (·.1)).Perm (performsRows res rows))
    (benefits : (parts.flatMap (·.2)).Perm (o.benefitsRows rows))
    (checkpoint : Option Checkpoint) :
    Unrepeated V (o.phases res rows merging mergingHas parts checkpoint g) := by
  rw [phases_eq o res rows merging mergingHas performs benefits]
  constructor
  case includedIn =>
    refine nodup_foldl_linkBy h.includedIn fun fast => ⟨?_, fun e mem old => ?_⟩
    · have keys : ((transactionRows res rows).map (·.txid)).Nodup := by
        rw [map_txid_transactionRows]
        exact (fresh fast).txids
      refine nodup_filterMap_keyed keys fun tx x made => ?_
      obtain ⟨_, _, rfl⟩ := Option.map_eq_some_iff.mp made
      rfl
    · obtain ⟨row, inRows, made⟩ := List.mem_filterMap.mp mem
      obtain ⟨_, _, rfl⟩ := Option.map_eq_some_iff.mp made
      obtain ⟨tx, inTxs, same⟩ := (txid_mem_transactionRows res).mp ⟨row, inRows, rfl⟩
      exact (fresh fast).transactions tx inTxs (same ▸ (sound.includedIn _ old).1)
  case spends =>
    refine nodup_foldl_linkBy h.spends fun fast => ⟨?_, fun e mem old => ?_⟩
    · apply List.Nodup.of_map Prod.fst
      rw [List.map_map]
      exact List.Sublist.nodup ((List.filter_sublist (l := inputRows rows)).map _)
        (fresh fast).inputIds
    · obtain ⟨inp, inRows, rfl⟩ := List.mem_map.mp mem
      exact (fresh fast).inputs inp (List.mem_filter.mp inRows).1 (sound.spends _ old).1
  case lockedTo =>
    refine nodup_foldl_linkBy h.lockedTo fun fast => ⟨nodup_locks (fresh fast).outputIds, ?_⟩
    intro e mem old
    obtain ⟨out, inRows, made⟩ := List.mem_filterMap.mp mem
    obtain ⟨_, _, rfl⟩ := Option.map_eq_some_iff.mp made
    exact (fresh fast).outputs out inRows (sound.lockedTo _ old).1
  case spent =>
    intro e mem
    rcases mem_foldl_linkBy.mp mem with new | old
    · obtain ⟨inp, inRows, rfl⟩ := List.mem_map.mp new
      exact spent_of_mem denoted (List.mem_filter.mp inRows).1
    · exact h.spent e old

/-- Outputs that are merged repeat no lock. -/
theorem Unrepeated.foldl_putOutput (h : Unrepeated V g) (rows : List OutputData) :
    Unrepeated V (rows.foldl (Graph.putOutput mergeLink) g) := by
  rw [Graph.foldl_putOutput_eq]
  exact { h with lockedTo := nodup_foldl_mergeLink h.lockedTo }

/-! ## What a chunk brings -/

/-- A chunk at a BIP30 height brings no `HAS_OUTPUT` twice, and none that is stored. -/
def Clear (o : IngestionOrchestrator) (g : Graph) (chunk : List LocatedBlock) : Prop :=
  hasBip30 chunk →
    (o.ownedOutputs chunk).Nodup ∧ ∀ e ∈ o.ownedOutputs chunk, e ∉ g.hasOutput

theorem hasOutput_phases (o : IngestionOrchestrator) (res : Found) (rows : List LocatedBlock)
    (merging mergingHas : Bool) {parts : List (List PerformsData × List BenefitsToData)}
    (performs : (parts.flatMap (·.1)).Perm (performsRows res rows))
    (benefits : (parts.flatMap (·.2)).Perm (o.benefitsRows rows))
    (checkpoint : Option Checkpoint) (g : Graph) :
    (o.phases res rows merging mergingHas parts checkpoint g).hasOutput =
      (o.ownedOutputs rows).foldl (linkBy mergingHas) g.hasOutput := by
  rw [phases_eq o res rows merging mergingHas performs benefits]
  rfl

/-- **A committed chunk.** It repeats none of the three kinds, and no `HAS_OUTPUT` exactly if it is
clear. -/
theorem Unrepeated.chunkQueries (h : Unrepeated V g) (sound : Sound g)
    (denoted : DenotesInputs V (txsOf chunk))
    (sent : execAll neo4j (o.chunkQueries res chunk) g = .ok g') :
    Unrepeated V g' ∧ (g'.hasOutput.Nodup ↔ g.hasOutput.Nodup ∧ o.Clear g chunk) := by
  obtain ⟨g₁, blocks, new, rfl⟩ := execAll_chunkQueries.mp sent
  obtain ⟨performs, benefits⟩ := chunkParts_perm o res chunk
  have sound₁ := sound.execAll blocks
  obtain ⟨-, hu, next, rfl, -⟩ := Graph.execAll_createBlocksFast blocks
  have h₁ : Unrepeated V (g.withBlocks _ hu next) := h.mono le_rfl le_rfl le_rfl
  refine ⟨h₁.phases sound₁ denoted false new performs benefits _, ?_⟩
  rw [afterBlocks, hasOutput_phases o res chunk _ _ performs benefits]
  refine nodup_foldl_link.trans (and_congr_right fun _ => ⟨fun both _ => both, fun clear => ?_⟩)
  by_cases bip30 : hasBip30 chunk
  · exact clear bip30
  · refine ⟨nodup_ownedOutputs (new bip30).outputIds, fun e mem old => ?_⟩
    obtain ⟨out, inRows, rfl⟩ := List.mem_map.mp mem
    exact (new bip30).outputs out inRows (sound.hasOutput _ old).2

/-! ## Chunks in a row -/

/-- The chunks that are started, each with the graph it starts from: a chunk is started when those
before it succeed. -/
def chunkStarts (o : IngestionOrchestrator) :
    List (List LocatedBlock) → World neo4j UtxoCache → List (Graph × List LocatedBlock)
  | [], _ => []
  | chunk :: rest, w =>
    (w.store.committed, chunk) ::
      match (o.ingestChunk chunk).run World.handle w with
      | (.ok _, w') => o.chunkStarts rest w'
      | (.error _, _) => []

theorem chunkStarts_singleton (chunk : List LocatedBlock) (w : World neo4j UtxoCache) :
    o.chunkStarts [chunk] w = [(w.store.committed, chunk)] := by
  rw [chunkStarts]
  split <;> rfl

/-- What every chunk keeps from a start that meets a condition, chunks keep whose starts all do. -/
theorem run_ingestChunks_keeps_starts {S : World neo4j UtxoCache → Prop}
    {C : Graph → List LocatedBlock → Prop} (chunks : List (List LocatedBlock))
    (each : ∀ chunk ∈ chunks, ∀ w, S w → C w.store.committed chunk →
      S ((o.ingestChunk chunk).run World.handle w).2)
    (stats : BatchStats) {w : World neo4j UtxoCache} (inv : S w)
    (starts : ∀ s ∈ o.chunkStarts chunks w, C s.1 s.2) :
    S ((o.ingestChunks stats chunks).run World.handle w).2 := by
  induction chunks generalizing stats w with
  | nil => exact inv
  | cons chunk rest ih =>
    rw [chunkStarts, List.forall_mem_cons] at starts
    have first := each chunk List.mem_cons_self w inv starts.1
    unfold ingestChunks
    rw [Prog.run_bind]
    cases ran : (o.ingestChunk chunk).run World.handle w with
    | mk outcome w' =>
      rw [ran] at first starts
      cases outcome with
      | error e => exact first
      | ok counts =>
        exact ih (fun d hd => each d (List.mem_cons_of_mem chunk hd)) _ first starts.2

/-! ## Calls -/

/-- The chunks a call starts. -/
def started (o : IngestionOrchestrator) (w : World neo4j UtxoCache) :
    Call → List (Graph × List LocatedBlock)
  | .ingestBlocksBatch blocks => o.chunkStarts (o.adaptiveChunks blocks) w
  | _ => []

/-- Nothing is repeated, and every relationship has its ends. -/
structure Unduplicated (V : InputDenotation) (g : Graph) : Prop where
  unrepeated : Unrepeated V g
  hasOutput : g.hasOutput.Nodup
  sound : Sound g

/-- Rollback and recovery only take relationships away. -/
theorem Unduplicated.recovers {q : Query} (recovers : q.Recovers) (h : Unduplicated V g)
    (ok : q.exec g = .ok g') : Unduplicated V g' := by
  have sound := h.sound.exec ok
  have fewer : g'.includedIn ≤ g.includedIn ∧ g'.spends ≤ g.spends ∧ g'.lockedTo ≤ g.lockedTo ∧
      g'.hasOutput ≤ g.hasOutput := by
    cases q <;> cases recovers <;> cases ok
    case rollbackDeleteInputs => exact ⟨le_rfl, Multiset.filter_le _ _, le_rfl, le_rfl⟩
    case rollbackDeleteOutputs =>
      exact ⟨le_rfl, Multiset.filter_le _ _, Multiset.filter_le _ _, Multiset.filter_le _ _⟩
    case rollbackDeleteTransactions =>
      exact ⟨Multiset.filter_le _ _, le_rfl, le_rfl, Multiset.filter_le _ _⟩
    case rollbackDeleteBlock height =>
      unfold Graph.detachDeleteBlockAt
      cases g.blockAt height with
      | none => exact ⟨le_rfl, le_rfl, le_rfl, le_rfl⟩
      | some n => exact ⟨Multiset.filter_le _ _, le_rfl, le_rfl, le_rfl⟩
    all_goals exact ⟨le_rfl, le_rfl, le_rfl, le_rfl⟩
  obtain ⟨includedIn, spends, lockedTo, hasOutput⟩ := fewer
  exact ⟨h.unrepeated.mono includedIn spends lockedTo,
    Multiset.nodup_of_le hasOutput h.hasOutput, sound⟩

theorem Unduplicated.run_recovers {α : Type} {p : Io α}
    (sends : Neo4jWriter.OnlySends Query.Recovers p) (h : Unduplicated V g) :
    Unduplicated V ((io p).run World.handle ⟨⟨g, none⟩, c⟩).2.store.committed := by
  have onC : ∀ q g g', Query.Recovers q → Unduplicated V g → q.exec g = .ok g' →
      Unduplicated V g' := fun q g g' recovers h ok => h.recovers recovers ok
  have start : Store.Keeps (E := neo4j) (Unduplicated V) (fun _ => True) false ⟨g, none⟩ :=
    ⟨h, fun _ _ => trivial, rfl⟩
  exact (World.keeps_run onC (fun _ _ _ _ _ _ => trivial) (World.always_lift sends)
    (w := ⟨⟨g, none⟩, c⟩) start).committed

theorem Unduplicated.ingestBlock (h : Unduplicated V g) (denoted : DenotesInputs V (txsOf [b])) :
    Unduplicated V ((o.ingestBlock b.block b.height b.fileName offset).run World.handle
      ⟨⟨g, none⟩, c⟩).2.store.committed := by
  have sound := h.sound.run (o.ingestBlock b.block b.height b.fileName offset) c
  have outcome := run_ingestBlock_outcome o b offset g c
  generalize (o.ingestBlock b.block b.height b.fileName offset).run World.handle
    ⟨⟨g, none⟩, c⟩ = result at outcome sound ⊢
  cases outcome with
  | orphan err unlinked => exact h
  | refused err fault parent refusal => exact h
  | missing err g₁ c' parent created looked =>
    obtain ⟨-, hu, next, rfl, -⟩ := Graph.exec_createBlocks_one.mp created
    have h₁ : Unrepeated V (g.withBlocks _ hu next) := h.unrepeated.mono le_rfl le_rfl le_rfl
    refine ⟨h₁.foldl_putOutput _, ?_, sound⟩
    dsimp only [putOutputs]
    rw [Graph.foldl_putOutput_eq]
    exact h.hasOutput
  | stored g₁ res c' parent created looked =>
    have sound₁ := h.sound.exec created
    obtain ⟨-, hu, next, rfl, -⟩ := Graph.exec_createBlocks_one.mp created
    have h₁ : Unrepeated V (g.withBlocks _ hu next) := h.unrepeated.mono le_rfl le_rfl le_rfl
    obtain ⟨performs, benefits⟩ := blockParts_perm o res b
    refine ⟨?_, ?_, sound⟩
    · dsimp only
      rw [finishBlock_eq]
      exact h₁.phases sound₁ denoted true (fun no => absurd rfl no) performs benefits _
    · dsimp only
      rw [finishBlock_eq, hasOutput_phases o res [b] _ _ performs benefits]
      exact nodup_foldl_mergeLink h.hasOutput

/-- A chunk that is clear where it starts. -/
theorem Unduplicated.ingestChunk {w : World neo4j UtxoCache} (free : w.store.active = none)
    (h : Unduplicated V w.store.committed) (denoted : DenotesInputs V (txsOf chunk))
    (clear : o.Clear w.store.committed chunk) :
    ((o.ingestChunk chunk).run World.handle w).2.store.active = none ∧
      Unduplicated V ((o.ingestChunk chunk).run World.handle w).2.store.committed := by
  obtain ⟨⟨g, active⟩, c⟩ := w
  dsimp only at free h clear
  subst free
  have sound := h.sound.run (o.ingestChunk chunk) c
  obtain ⟨found, c₁, fetched⟩ := run_prefetchUtxos_total g none c (spentKeys chunk)
  have outcome := run_ingestChunk_outcome (o := o) fetched
  generalize (o.ingestChunk chunk).run World.handle ⟨⟨g, none⟩, c⟩ = result at outcome sound ⊢
  cases outcome with
  | orphan err unlinked => exact ⟨rfl, h⟩
  | refused err g' c' parent outside =>
    refine ⟨rfl, ?_⟩
    rcases outside with rfl | rfl
    · exact h
    · dsimp only at sound ⊢
      unfold besideChunk at sound ⊢
      split
      · rename_i bip30
        rw [if_pos bip30] at sound
        refine ⟨h.unrepeated.foldl_putOutput _, ?_, sound⟩
        rw [Graph.foldl_putOutput_eq]
        exact h.hasOutput
      · exact h
  | committed g' parent sent =>
    obtain ⟨unrepeated, single⟩ := h.unrepeated.chunkQueries h.sound denoted sent
    exact ⟨rfl, unrepeated, single.mpr ⟨h.hasOutput, clear⟩, sound⟩

/-- **A call** whose chunks are clear where they start. -/
theorem Unduplicated.call (h : Unduplicated V g) (call : Call)
    (denoted : DenotesInputs V (txsOf call.blocks))
    (clear : ∀ s ∈ o.started ⟨⟨g, none⟩, c⟩ call, o.Clear s.1 s.2) :
    Unduplicated V ((call.program o).run World.handle ⟨⟨g, none⟩, c⟩).2.store.committed := by
  cases call with
  | initSchema => exact h.run_recovers sends_initSchema
  | syncCheckpointWithDb =>
    rw [Call.program, Prog.run_discard]
    exact h.run_recovers sends_syncCheckpointWithDb
  | ingestBlock b offset => exact h.ingestBlock denoted
  | ingestBlocksBatch blocks =>
    rw [Call.program, Prog.run_discard]
    have kept := run_ingestChunks_keeps_starts (C := o.Clear)
      (S := fun w => w.store.active = none ∧ Unduplicated V w.store.committed)
      (o.adaptiveChunks blocks)
      (fun chunk mem w inv => Unduplicated.ingestChunk inv.1 inv.2 fun tx inChunk => ?_)
      ⟨0, 0, 0, (o.adaptiveChunks blocks).length⟩ (w := ⟨⟨g, none⟩, c⟩) ⟨rfl, h⟩ clear
    · exact kept.2
    · exact denoted tx (mem_txsOf_of_chunk mem inChunk)
  | rollbackToHeight currentTip forkPoint =>
    rw [Call.program, Prog.run_discard]
    exact h.run_recovers (sends_rollbackToHeight currentTip forkPoint)

end IngestionOrchestrator

open IngestionOrchestrator

/-- One call that brings transactions their txids denote, and all of whose chunks are clear. -/
def ClearStep (o : IngestionOrchestrator) (U : Denotation) (V : InputDenotation) (g g' : Graph) :
    Prop :=
  ∃ (o' : IngestionOrchestrator) (call : Call) (c : UtxoCache), o.SameChain o' ∧
    Denotes U (txsOf call.blocks) ∧ DenotesInputs V (txsOf call.blocks) ∧
    (∀ s ∈ o'.started ⟨⟨g, none⟩, c⟩ call, o'.Clear s.1 s.2) ∧
    ((call.program o').run World.handle ⟨⟨g, none⟩, c⟩).2.store.committed = g'

variable {o : IngestionOrchestrator} {U : Denotation} {V : InputDenotation} {g : Graph}

/-- Such calls build graphs in which nothing is repeated. -/
theorem unduplicated_of_clear (reached : Relation.ReflTransGen (ClearStep o U V) .empty g) :
    Reachable o U g ∧ Unduplicated V g := by
  induction reached with
  | refl => exact ⟨.refl, unrepeated_empty, Multiset.nodup_zero, sound_empty⟩
  | tail _ step h =>
    obtain ⟨o', call, c, same, denoted, inputs, clear, rfl⟩ := step
    exact ⟨h.1.tail ⟨o', call, c, same, denoted, rfl⟩, h.2.call call inputs clear⟩

/-- **At most one relationship.** In every graph that calls build whose chunks are all clear there
is at most one relationship of each kind; and a chunk that is committed to such a graph keeps it so
exactly if it is clear. -/
theorem single_of_clear (reached : Relation.ReflTransGen (ClearStep o U V) .empty g) :
    Single g ∧ ∀ (chunk : List LocatedBlock) (c : UtxoCache) (counts : ℕ × ℕ × ℕ)
      (w : World neo4j UtxoCache), Denotes U (txsOf chunk) → DenotesInputs V (txsOf chunk) →
      (o.ingestChunk chunk).run World.handle ⟨⟨g, none⟩, c⟩ = (.ok counts, w) →
        (Single w.store.committed ↔ o.Clear g chunk) := by
  obtain ⟨reachable, kept⟩ := unduplicated_of_clear reached
  have faithful := faithful_reachable reachable
  refine ⟨(single_iff faithful kept.unrepeated).mpr kept.hasOutput, ?_⟩
  intro chunk c counts w denoted inputs ran
  obtain ⟨found, c₁, fetched⟩ := run_prefetchUtxos_total g none c (spentKeys chunk)
  have outcome := run_ingestChunk_outcome (o := o) fetched
  rw [ran] at outcome
  cases outcome with
  | committed g' parent sent =>
    obtain ⟨unrepeated, single⟩ := kept.unrepeated.chunkQueries kept.sound inputs sent
    rw [single_iff (faithful.chunkQueries denoted sent) unrepeated, single]
    exact and_iff_right kept.hasOutput

/-! ## A repeated coinbase -/

/-- Two blocks with one coinbase, the second at a BIP30 height. -/
def Sample.original : LocatedBlock :=
  Sample.block 91841 100 0 [Sample.coinbase 1 50 Sample.burnScript]

def Sample.duplicate : LocatedBlock :=
  Sample.block 91842 101 100 [Sample.coinbase 1 50 Sample.burnScript]

/-- What the one coinbase denotes. -/
def Sample.coinbaseOutputs : Denotation := fun _ => [⟨50, Sample.burnScript⟩]

def Sample.coinbaseInputs : InputDenotation := fun _ => [⟨0, maxVout⟩]

/-- A graph after batches of one block each. -/
def Sample.afterBatches (blocks : List LocatedBlock) : Graph :=
  blocks.foldl (fun g b => (((Call.ingestBlocksBatch [b]).program (Sample.orchestrator 0)).run
    World.handle ⟨⟨g, none⟩, .new 1000⟩).2.store.committed) .empty

/-- The transaction has its one output twice. -/
theorem hasOutput_repeated :
    Reachable (Sample.orchestrator 0) Sample.coinbaseOutputs
        (Sample.afterBatches [Sample.original, Sample.duplicate]) ∧
      DenotesInputs Sample.coinbaseInputs (txsOf [Sample.original, Sample.duplicate]) ∧
      (Sample.afterBatches [Sample.original, Sample.duplicate]).hasOutput =
        {(1, ⟨1, 0⟩), (1, ⟨1, 0⟩)} ∧
      ¬ Single (Sample.afterBatches [Sample.original, Sample.duplicate]) := by
  have twice : (Sample.afterBatches [Sample.original, Sample.duplicate]).hasOutput =
      {(1, ⟨1, 0⟩), (1, ⟨1, 0⟩)} := by decide +kernel
  refine ⟨?_, by unfold DenotesInputs; decide, twice, fun single => ?_⟩
  · have first : DenotedStep (Sample.orchestrator 0) Sample.coinbaseOutputs .empty
        (Sample.afterBatches [Sample.original]) :=
      ⟨_, .ingestBlocksBatch [Sample.original], .new 1000, ⟨rfl, rfl⟩,
        by show ∀ tx ∈ txsOf [Sample.original], _; decide, rfl⟩
    exact .tail (.single first) ⟨_, .ingestBlocksBatch [Sample.duplicate], .new 1000, ⟨rfl, rfl⟩,
      by show ∀ tx ∈ txsOf [Sample.duplicate], _; decide, rfl⟩
  · have nodup := single.hasOutput
    rw [twice] at nodup
    exact absurd nodup (by decide)

/-- An ordinary block in place of the first. -/
def Sample.ordinary : LocatedBlock :=
  Sample.block 91841 100 0 [Sample.coinbase 7 50 Sample.burnScript]

/-- With another coinbase before it the block at the BIP30 height is clear. -/
theorem single_of_clear_sample :
    Single (Sample.afterBatches [Sample.ordinary, Sample.duplicate]) := by
  have one (b : LocatedBlock) (same : b = Sample.ordinary ∨ b = Sample.duplicate) :
      (Sample.orchestrator 0).adaptiveChunks [b] = [[b]] := by
    rcases same with rfl | rfl <;> decide +kernel
  have first : ClearStep (Sample.orchestrator 0) Sample.coinbaseOutputs Sample.coinbaseInputs
      .empty (Sample.afterBatches [Sample.ordinary]) := by
    refine ⟨_, .ingestBlocksBatch [Sample.ordinary], .new 1000, ⟨rfl, rfl⟩, ?_, ?_, ?_, rfl⟩
    · show ∀ tx ∈ txsOf [Sample.ordinary], _
      decide
    · show ∀ tx ∈ txsOf [Sample.ordinary], _
      decide
    · rw [started, one _ (.inl rfl), chunkStarts_singleton, List.forall_mem_singleton]
      intro bip30
      exact absurd bip30 (by decide)
  refine (single_of_clear (.tail (.single first) ⟨_, .ingestBlocksBatch [Sample.duplicate],
    .new 1000, ⟨rfl, rfl⟩, ?_, ?_, ?_, rfl⟩)).1
  · show ∀ tx ∈ txsOf [Sample.duplicate], _
    decide
  · show ∀ tx ∈ txsOf [Sample.duplicate], _
    decide
  · rw [started, one _ (.inr rfl), chunkStarts_singleton, List.forall_mem_singleton]
    intro _
    have fresh : ∀ e ∈ (Sample.orchestrator 0).ownedOutputs [Sample.duplicate],
        e ∉ (Sample.afterBatches [Sample.ordinary]).hasOutput := by
      decide +kernel
    exact ⟨by decide, fresh⟩

end ChainGraph

import ChainGraph.Laws.Losses

/-!
# One by one or as a batch

A batch accepts chunks by their first blocks and by what the database refuses to create twice. One
by one, every block is checked and every input has to be found. Where both take a list, they leave
the same graph if no transaction comes twice and what the chunks lose is immaterial.
-/

namespace ChainGraph

open Foundation Foundation.Store

/-- The same graph, with the same height and hash in its checkpoint. -/
structure Graph.Level (g g' : Graph) : Prop where
  graph : { g with checkpoint := none } = { g' with checkpoint := none }
  checkpoint : g.checkpoint.map (fun c => (c.lastProcessedHeight, c.lastProcessedHash)) =
    g'.checkpoint.map fun c => (c.lastProcessedHeight, c.lastProcessedHash)

/-- Two runs succeed together, and then leave the same graph and the same place in it. -/
structure Concur {ε α β : Type} (ran : Except ε α × World neo4j UtxoCache)
    (ran' : Except ε β × World neo4j UtxoCache) : Prop where
  success : ran.1.isOk ↔ ran'.1.isOk
  level : ran.1.isOk → ran'.1.isOk → ran.2.store.committed.Level ran'.2.store.committed

/-- If every element with a key brings some item, the key comes no more often than the item. -/
theorem count_map_le_flatMap {α β γ : Type} [BEq β] [LawfulBEq β] [BEq γ] [LawfulBEq γ]
    {k : α → β} {f : α → List γ} {l : List α} {b : β} {item : γ}
    (brings : ∀ a ∈ l, k a = b → item ∈ f a) :
    (l.map k).count b ≤ (l.flatMap f).count item := by
  induction l with
  | nil => exact Nat.zero_le _
  | cons a l ih =>
    have rest := ih fun d mem => brings d (List.mem_cons_of_mem a mem)
    rw [List.map_cons, List.flatMap_cons, List.count_append, List.count_cons]
    split
    · rename_i same
      have one := List.count_pos_iff.mpr (brings a List.mem_cons_self (by simpa using same))
      omega
    · omega

namespace IngestionOrchestrator

variable {o : IngestionOrchestrator} {U : Denotation} {res : Found} {g g₁ g' : Graph}
  {c : UtxoCache} {w w' w'' w₁ : World neo4j UtxoCache} {blocks chunk chain : List LocatedBlock}
  {chunks : List (List LocatedBlock)} {cap : Fin numShards → ℕ} {tx : Transaction}
  {offset : LocatedBlock → Option ℕ}

/-! ## Chunks that a batch accepts -/

/-- The next chunk continues the blocks of the first. -/
def Adjoins (chunk next : List LocatedBlock) : Prop :=
  ∀ a ∈ chunk.getLast?, ∀ b ∈ next.head?, Links a b

/-- Chunks that a batch accepts: each continues the one before with its first block, and at ordinary
heights it brings nothing that is stored or that came before. -/
structure Admits (o : IngestionOrchestrator) (g : Graph) (chunks : List (List LocatedBlock)) :
    Prop where
  parent : FirstParentOk g chunks.flatten
  joined : chunks.IsChain Adjoins
  rows : ∀ before chunk after, chunks = before ++ chunk :: after → ¬ hasBip30 chunk →
    o.NewRows chunk g ∧
      ∀ tx ∈ txsOf chunk, tx.txid ∉ (txsOf before.flatten).map (·.txid)

theorem Admits.first (h : o.Admits g (chunk :: chunks)) (filled : chunk ≠ []) :
    FirstParentOk g chunk ∧ (¬ hasBip30 chunk → o.NewRows chunk g) := by
  refine ⟨fun b head => h.parent b ?_, fun fast => (h.rows [] chunk chunks rfl fast).1⟩
  rw [List.flatten_cons, List.head?_append_of_ne_nil _ filled]
  exact head

theorem admits_single (parent : FirstParentOk g chunk)
    (rows : ¬ hasBip30 chunk → o.NewRows chunk g) : o.Admits g [chunk] where
  parent := by rwa [List.flatten_cons, List.flatten_nil, List.append_nil]
  joined := List.isChain_singleton _
  rows before later after split fast := by
    cases before with
    | nil =>
      obtain ⟨rfl, -⟩ := List.cons_eq_cons.mp split
      exact ⟨rows fast, fun _ _ => List.not_mem_nil⟩
    | cons d before => simp at split

/-- Rows that are new beside those of blocks just stored. -/
theorem newRows_landed (landed : Landed g chain g₁) :
    o.NewRows chunk g₁ ↔ o.NewRows chunk g ∧
      ∀ tx ∈ txsOf chunk, tx.txid ∉ (txsOf chain).map (·.txid) := by
  constructor
  · intro h
    refine ⟨⟨h.outputIds, fun out mem has => h.outputs out mem ((landed.outputs _).mpr (.inl has)),
      h.txids, fun tx mem has => h.transactions tx mem ((landed.transactions _).mpr (.inl has)),
      h.inputIds, fun inp mem has => h.inputs inp mem ((landed.inputs _).mpr (.inl has))⟩, ?_⟩
    exact fun tx mem before => h.transactions tx mem ((landed.transactions _).mpr (.inr before))
  · rintro ⟨h, apart⟩
    refine ⟨h.outputIds, fun out mem has => ?_, h.txids, fun tx mem has => ?_, h.inputIds,
      fun inp mem has => ?_⟩
    · rcases (landed.outputs _).mp has with stored | ⟨t, earlier, same, _⟩
      · exact h.outputs out mem stored
      · obtain ⟨tx, here, inTx⟩ := List.mem_flatMap.mp mem
        obtain ⟨_, _, rfl⟩ := List.mem_map.mp inTx
        exact apart tx here (List.mem_map.mpr ⟨t, earlier, same⟩)
    · rcases (landed.transactions _).mp has with stored | earlier
      · exact h.transactions tx mem stored
      · exact apart tx mem earlier
    · rcases (landed.inputs _).mp has with stored | earlier
      · exact h.inputs inp mem stored
      · rw [ids_inputRows] at earlier
        obtain ⟨t, ht, inTx⟩ := List.mem_flatMap.mp earlier
        obtain ⟨i, _, same⟩ := List.mem_map.mp inTx
        obtain ⟨tx, here, txid⟩ := txid_of_mem_inputRows mem
        obtain ⟨b, hb, inBlock⟩ := List.mem_flatMap.mp mem
        obtain ⟨tx', htx', inTx'⟩ := List.mem_flatMap.mp inBlock
        obtain ⟨_, _, rfl⟩ := List.mem_map.mp inTx'
        refine apart tx' (List.mem_flatMap.mpr ⟨b, hb, htx'⟩) (List.mem_map.mpr ⟨t, ht, ?_⟩)
        exact congrArg OutPoint.txid same

/-- A batch accepts chunks iff it accepts the first, and the others over what is then stored. -/
theorem admits_cons (landed : Landed g chunk g₁) (new : g.NewBlocks (blockRows chunk))
    (adjacent : (chunk :: chunks).flatten.IsChain Adjacent)
    (filled : ∀ c ∈ chunk :: chunks, c ≠ []) :
    o.Admits g (chunk :: chunks) ↔
      (FirstParentOk g chunk ∧ (¬ hasBip30 chunk → o.NewRows chunk g)) ∧ o.Admits g₁ chunks := by
  have some : chunk ≠ [] := filled chunk List.mem_cons_self
  obtain ⟨a, last⟩ := Option.isSome_iff_exists.mp (List.getLast?_isSome.mpr some)
  have first : FirstParentOk g (chunk :: chunks).flatten ↔ FirstParentOk g chunk := by
    unfold FirstParentOk
    rw [List.flatten_cons, List.head?_append_of_ne_nil _ some]
  have second : FirstParentOk g₁ chunks.flatten ↔ ∀ next ∈ chunks.head?, Adjoins chunk next := by
    rw [List.flatten_cons] at adjacent
    rw [firstParentOk_iff landed new last adjacent]
    cases chunks with
    | nil => simp
    | cons next chunks =>
      have more : next ≠ [] := filled next (by simp)
      rw [List.flatten_cons, List.head?_append_of_ne_nil _ more]
      unfold Adjoins
      rw [last]
      simp
  constructor
  · rintro ⟨parent, joined, rows⟩
    obtain ⟨join, joined⟩ := List.isChain_cons.mp joined
    refine ⟨⟨first.mp parent, fun fast => (rows [] chunk chunks rfl fast).1⟩, second.mpr join,
      joined, fun before later after split fast => ?_⟩
    obtain ⟨rows', apart⟩ := rows (chunk :: before) later after (by rw [split]; rfl) fast
    rw [List.flatten_cons, txsOf_append, List.map_append] at apart
    refine ⟨(newRows_landed landed).mpr ⟨rows', fun tx mem here => ?_⟩, fun tx mem here => ?_⟩
    · exact apart tx mem (List.mem_append_left _ here)
    · exact apart tx mem (List.mem_append_right _ here)
  · rintro ⟨⟨parent, rows⟩, parent', joined, rows'⟩
    refine ⟨first.mpr parent, List.isChain_cons.mpr ⟨second.mp parent', joined⟩,
      fun before later after split fast => ?_⟩
    cases before with
    | nil =>
      obtain ⟨rfl, rfl⟩ := List.cons_eq_cons.mp split
      exact ⟨rows fast, by simp [txsOf]⟩
    | cons d before =>
      obtain ⟨rfl, rfl⟩ := List.cons_eq_cons.mp split
      obtain ⟨later', apart⟩ := rows' before later after rfl fast
      obtain ⟨rows'', apart'⟩ := (newRows_landed landed).mp later'
      refine ⟨rows'', fun tx mem here => ?_⟩
      rw [List.flatten_cons, txsOf_append, List.map_append] at here
      exact (List.mem_append.mp here).elim (apart' tx mem) (apart tx mem)

/-- What is lost of later transactions is the same before and after blocks. -/
theorem lost_landed (landed : Landed g chain g₁)
    (apart : ∀ tx ∈ txsOf chunk, tx.txid ∉ (txsOf chain).map (·.txid)) (k : UtxoKey) :
    o.Lost g₁ cap chunk k ↔ o.Lost g cap chunk k := by
  unfold Lost
  rw [landed.outputs]
  refine ⟨fun ⟨absent, rest⟩ => ⟨fun has => absent (.inl has), rest⟩,
    fun ⟨absent, created, rest⟩ => ⟨?_, created, rest⟩⟩
  rintro (has | ⟨t, earlier, same, _⟩)
  · exact absent has
  · obtain ⟨tx, here, txid, _⟩ := created
    exact apart tx here (List.mem_map.mpr ⟨t, earlier, same.trans txid.symm⟩)

theorem keptOf_landed (landed : Landed g chain g₁)
    (apart : ∀ tx ∈ txsOf chunk, tx.txid ∉ (txsOf chain).map (·.txid)) :
    o.keptOf U g₁ cap chunk = o.keptOf U g cap chunk :=
  funext fun k => if_congr (lost_landed landed apart k) rfl rfl

theorem immaterial_landed (landed : Landed g chain g₁)
    (apart : ∀ tx ∈ txsOf chunk, tx.txid ∉ (txsOf chain).map (·.txid)) :
    o.Immaterial g₁ cap chunk tx ↔ o.Immaterial g cap chunk tx := by
  have same : o.lostRows g₁ cap chunk tx = o.lostRows g cap chunk tx := by
    unfold lostRows
    congr 1
    exact List.filter_congr fun k _ => decide_eq_decide.mpr (lost_landed landed apart k)
  constructor <;> rintro ⟨unlocked, worthless⟩
  · exact ⟨same ▸ unlocked, same ▸ worthless⟩
  · exact ⟨same.symm ▸ unlocked, same.symm ▸ worthless⟩

/-! ## Chunk after chunk -/

/-- What a batch did whose chunks were all committed. -/
structure Batched (o : IngestionOrchestrator) (U : Denotation) (w : World neo4j UtxoCache)
    (chunks : List (List LocatedBlock)) (w' : World neo4j UtxoCache) : Prop where
  hasOutput : w'.store.committed.hasOutput =
    w.store.committed.hasOutput + ↑(o.ownedOutputs chunks.flatten)
  checkpoint : w'.store.committed.checkpoint =
    (lastCheckpoint chunks.flatten).or w.store.committed.checkpoint
  away : Unseen chunks.flatten w.store.committed →
    Funded w.store.committed.outputs.Has chunks.flatten → ∀ res tx,
      tx.txid ∉ (txsOf chunks.flatten).map (·.txid) →
        (Priced res tx w'.store.committed ↔ Priced res tx w.store.committed)
  priced : Unseen chunks.flatten w.store.committed →
    Funded w.store.committed.outputs.Has chunks.flatten → ∀ chunk ∈ chunks, ∀ tx ∈ txsOf chunk,
      Priced (o.keptOf U w.store.committed w.memory.cap chunk) tx w'.store.committed
  merged : Unseen chunks.flatten w.store.committed →
    Funded w.store.committed.outputs.Has chunks.flatten →
      (∀ chunk ∈ chunks, ∀ tx ∈ txsOf chunk,
        o.Immaterial w.store.committed w.memory.cap chunk tx) →
          o.Merged (o.valueOf U) w.store.committed chunks.flatten w'.store.committed

theorem Batched.refl (o : IngestionOrchestrator) (U : Denotation) (w : World neo4j UtxoCache) :
    o.Batched U w [] w where
  hasOutput := (add_zero _).symm
  checkpoint := rfl
  away _ _ _ _ _ := Iff.rfl
  priced _ _ chunk mem := by cases mem
  merged _ _ _ := .refl ..

theorem Batched.cons (resting : o.Resting U w) (denoted : Denotes U (txsOf chunk))
    (h : o.Dealt U w chunk w₁) (h' : o.Batched U w₁ chunks w')
    (new : w.store.committed.NewBlocks (blockRows (chunk ++ chunks.flatten)))
    (below : ∀ a ∈ chunk, ∀ b ∈ chunks.flatten, a.height < b.height) :
    o.Batched U w (chunk :: chunks) w' := by
  have apart : Unseen (chunk ++ chunks.flatten) w.store.committed → ∀ later ∈ chunks,
      ∀ tx ∈ txsOf later, tx.txid ∉ (txsOf chunk).map (·.txid) := fun unseen later mem tx inLater =>
    unseen.apart tx (mem_txsOf_flatten mem inLater)
  have supply : Funded w.store.committed.outputs.Has (chunk ++ chunks.flatten) →
      Funded w₁.store.committed.outputs.Has chunks.flatten := fun funded =>
    (funded_append.mp funded).2.congr fun k => (h.landed.outputs k).mpr
  have first : Unseen (chunk ++ chunks.flatten) w.store.committed →
      Funded w.store.committed.outputs.Has (chunk ++ chunks.flatten) →
        o.Merged (o.keptOf U w.store.committed w.memory.cap chunk) w.store.committed chunk
          w₁.store.committed := fun unseen funded =>
    h.merged unseen.left fun k mem => (funded_append.mp funded).1.spent mem
  refine ⟨?_, ?_, ?_, ?_, ?_⟩ <;> rw [List.flatten_cons]
  · rw [h'.hasOutput, h.hasOutput, ownedOutputs_append, ← Multiset.coe_add, add_assoc]
  · rw [h'.checkpoint, h.checkpoint, lastCheckpoint_append, Option.or_assoc]
  · intro unseen funded res tx absent
    rw [txsOf_append, List.map_append, List.mem_append, not_or] at absent
    exact (h'.away (unseen.after h.landed) (supply funded) res tx absent.2).trans
      ((first unseen funded).priced_away absent.1)
  · intro unseen funded later mem tx inLater
    rcases List.mem_cons.mp mem with rfl | mem
    · refine (h'.away (unseen.after h.landed) (supply funded) _ tx fun after => ?_).mpr
        ((first unseen funded).priced resting.sound unseen.left inLater)
      obtain ⟨t, inRest, same⟩ := List.mem_map.mp after
      exact unseen.apart t inRest (List.mem_map.mpr ⟨tx, inLater, same.symm⟩)
    · have priced := h'.priced (unseen.after h.landed) (supply funded) later mem tx inLater
      rwa [keptOf_landed h.landed (apart unseen later mem), h.cap] at priced
  · intro unseen funded immaterial
    obtain ⟨transactions, performs⟩ := rows_of_immaterial denoted
      fun tx mem => immaterial chunk List.mem_cons_self tx mem
    refine ((first unseen funded).congr_rows transactions performs).append
      (h'.merged (unseen.after h.landed) (supply funded) fun later mem tx inLater => ?_)
      (h.landed.newBlocks new) below
    rw [h.cap]
    exact (immaterial_landed h.landed (apart unseen later mem)).mpr
      (immaterial later (List.mem_cons_of_mem _ mem) tx inLater)

/-- **Chunk after chunk.** A batch succeeds iff it accepts its chunks. -/
theorem Resting.ingestChunks (h : o.Resting U w) (denoted : Denotes U (txsOf chunks.flatten))
    (new : w.store.committed.NewBlocks (blockRows chunks.flatten))
    (adjacent : chunks.flatten.IsChain Adjacent) (filled : ∀ c ∈ chunks, c ≠ [])
    (stats : BatchStats) :
    let ran := (o.ingestChunks stats chunks).run World.handle w
    (ran.1.isOk ↔ o.Admits w.store.committed chunks) ∧
      (ran.1.isOk → o.Batched U w chunks ran.2) := by
  induction chunks generalizing stats w with
  | nil =>
    refine ⟨iff_of_true rfl ⟨fun b head => (by cases head), List.isChain_nil, ?_⟩,
      fun _ => .refl ..⟩
    intro before chunk after split
    simp at split
  | cons chunk chunks ih =>
    rw [List.flatten_cons] at denoted new adjacent
    obtain ⟨denotedFirst, denotedRest⟩ := denotes_append.mp denoted
    have newFirst : w.store.committed.NewBlocks (blockRows chunk) := by
      rw [blockRows_append] at new
      exact new.left
    obtain ⟨accepted, dealt⟩ := h.ingestChunk denotedFirst newFirst
      (List.isChain_append.mp adjacent).1
    have split : (o.ingestChunks stats (chunk :: chunks)).run World.handle w = _ :=
      Prog.run_bind ..
    intro ran
    have ran_eq : ran = _ := split
    cases first : (o.ingestChunk chunk).run World.handle w with
    | mk outcome w₁ =>
      rw [first] at accepted dealt ran_eq
      cases outcome with
      | error e =>
        rw [ran_eq]
        refine ⟨iff_of_false Bool.false_ne_true fun admits => ?_, fun ok => by cases ok⟩
        exact Bool.false_ne_true (accepted.mpr (admits.first (filled chunk List.mem_cons_self)))
      | ok counts =>
        have dealt := dealt rfl
        obtain ⟨admits, batched⟩ := ih dealt.resting denotedRest (dealt.landed.newBlocks new)
          (List.isChain_append.mp adjacent).2.1
          (fun c mem => filled c (List.mem_cons_of_mem _ mem)) { stats with
            transactions := stats.transactions + counts.1
            outputs := stats.outputs + counts.2.1
            inputs := stats.inputs + counts.2.2 }
        have rest : ran = (o.ingestChunks { stats with
            transactions := stats.transactions + counts.1
            outputs := stats.outputs + counts.2.1
            inputs := stats.inputs + counts.2.2 } chunks).run World.handle w₁ := ran_eq
        rw [rest, admits_cons dealt.landed newFirst adjacent filled,
          and_iff_right (accepted.mp rfl)]
        refine ⟨admits, fun ok => .cons h denotedFirst dealt (batched ok) new ?_⟩
        exact (List.pairwise_append.mp (rising_of_adjacent adjacent)).2.2

/-! ## Where both paths succeed -/

/-- If no output comes twice, no transaction does, unless one without outputs. -/
theorem nodup_txids (denoted : Denotes U (txsOf chain)) (outputs : (o.ownedOutputs chain).Nodup)
    (once : ∀ tx ∈ txsOf chain, tx.output = [] →
      ((txsOf chain).map (·.txid)).count tx.txid = 1) :
    ((txsOf chain).map (·.txid)).Nodup := by
  have rows : o.ownedOutputs chain = (txsOf chain).flatMap fun tx =>
      (o.outputsOf tx).map fun out => (out.txid, out.outputId) := List.map_flatMap
  rw [List.nodup_iff_count_le_one]
  intro txid
  by_cases mem : txid ∈ (txsOf chain).map (·.txid)
  · obtain ⟨tx, inChain, rfl⟩ := List.mem_map.mp mem
    by_cases bare : tx.output = []
    · exact (once tx inChain bare).le
    · have first : 0 < (o.outputsOf tx).length := by
        rw [outputsOf, List.length_map, List.length_zipIdx]
        exact List.length_pos_of_ne_nil bare
      rw [rows, List.nodup_iff_count_le_one] at outputs
      refine (count_map_le_flatMap fun t ht same => ?_).trans
        (outputs ((o.outputsOf tx)[0].txid, (o.outputsOf tx)[0].outputId))
      have equal : o.outputsOf t = o.outputsOf tx := by
        unfold outputsOf
        rw [same, ← denoted t ht, ← denoted tx inChain, same]
      rw [equal]
      exact List.mem_map_of_mem (f := fun out : OutputData => (out.txid, out.outputId))
        (List.getElem_mem first)
  · rw [List.count_eq_zero_of_not_mem mem]
    exact Nat.zero_le 1

theorem Priced.congr (h : Priced res tx g) (transactions : g.transactions = g'.transactions)
    (performs : g.performs = g'.performs) : Priced res tx g' :=
  ⟨transactions ▸ h.node, performs ▸ h.performs⟩

/-- **Both succeed.** Then they agree if no transaction comes twice and what the chunks lose is
immaterial, -/
theorem Batched.level (batched : o.Batched U w chunks w')
    (stepped : o.Stepped U offset w chunks.flatten w'')
    (funded : Funded w.store.committed.outputs.Has chunks.flatten)
    (unseen : Unseen chunks.flatten w.store.committed)
    (immaterial : ∀ chunk ∈ chunks, ∀ tx ∈ txsOf chunk,
      o.Immaterial w.store.committed w.memory.cap chunk tx) :
    w'.store.committed.Level w''.store.committed where
  graph := (batched.merged unseen funded immaterial).unique (stepped.merged unseen)
  checkpoint := by
    rw [batched.checkpoint, stepped.checkpoint]
    unfold lastCheckpoint tipCheckpoint
    cases chunks.flatten.getLast? <;> rfl

/-- and else they do not, where a transaction without outputs comes once. -/
theorem Batched.level_only (resting : o.Resting U w) (batched : o.Batched U w chunks w')
    (stepped : o.Stepped U offset w chunks.flatten w'')
    (denoted : Denotes U (txsOf chunks.flatten))
    (funded : Funded w.store.committed.outputs.Has chunks.flatten)
    (unstored : ∀ tx ∈ txsOf chunks.flatten, ¬ w.store.committed.transactions.Has tx.txid)
    (once : ∀ tx ∈ txsOf chunks.flatten, tx.output = [] →
      ((txsOf chunks.flatten).map (·.txid)).count tx.txid = 1)
    (level : w'.store.committed.Level w''.store.committed) :
    ((txsOf chunks.flatten).map (·.txid)).Nodup ∧ ∀ chunk ∈ chunks, ∀ tx ∈ txsOf chunk,
      o.Immaterial w.store.committed w.memory.cap chunk tx := by
  have hasOutput : w'.store.committed.hasOutput = w''.store.committed.hasOutput :=
    (congrArg Graph.hasOutput level.graph :)
  rw [batched.hasOutput, stepped.hasOutput] at hasOutput
  have outputs : (o.ownedOutputs chunks.flatten).Nodup :=
    nodup_of_foldl_mergeLink (fun e mem old => by
      obtain ⟨out, hout, rfl⟩ := List.mem_map.mp mem
      obtain ⟨tx, inChain, same⟩ := txid_of_mem_outputRows hout
      exact unstored tx inChain (same ▸ (resting.sound.hasOutput _ old).1)) hasOutput.symm
  have txids := nodup_txids denoted outputs once
  have unseen : Unseen chunks.flatten w.store.committed := ⟨txids, unstored⟩
  refine ⟨txids, fun chunk mem tx inChunk => ?_⟩
  have whole := (stepped.merged unseen).priced resting.sound unseen
    (mem_txsOf_flatten mem inChunk)
  exact immaterial_of_priced (fun t ht => denoted t (mem_txsOf_flatten mem ht))
    (batched.priced unseen funded chunk mem tx inChunk)
    (whole.congr (congrArg Graph.transactions level.graph :).symm
      (congrArg Graph.performs level.graph :).symm)

/-! ## The two paths -/

/-- Both paths take the blocks, no transaction comes twice, and what the chunks lose is immaterial;
or neither path takes them. -/
def Concordant (o : IngestionOrchestrator) (g : Graph) (cap : Fin numShards → ℕ)
    (blocks : List LocatedBlock) : Prop :=
  Continues g blocks ∧ o.Admits g (o.adaptiveChunks blocks) ∧
      ((txsOf blocks).map (·.txid)).Nodup ∧
      (∀ chunk ∈ o.adaptiveChunks blocks, ∀ tx ∈ txsOf chunk, o.Immaterial g cap chunk tx) ∨
    ¬ Continues g blocks ∧ ¬ o.Admits g (o.adaptiveChunks blocks)

/-- **One by one or as a batch.** A list of new blocks leaves the same whether its blocks are
ingested one by one or as a batch if both paths take it and nothing material is lost in a chunk, or
neither takes it; and only then, where a transaction without outputs comes once. -/
theorem batch_agrees_iff (reached : Reachable o U g) (coherent : Coherent g c)
    (denoted : Denotes U (txsOf blocks)) (new : g.NewBlocks (blockRows blocks))
    (unstored : ∀ tx ∈ txsOf blocks, ¬ g.transactions.Has tx.txid)
    (adjacent : blocks.IsChain Adjacent) (offset : LocatedBlock → Option ℕ) :
    let start : World neo4j UtxoCache := ⟨⟨g, none⟩, c⟩
    let batch := (o.ingestBlocksBatch blocks).run World.handle start
    let each := (o.ingestAll offset blocks).run World.handle start
    (o.Concordant g c.cap blocks → Concur batch each) ∧
      ((∀ tx ∈ txsOf blocks, tx.output = [] →
          ((txsOf blocks).map (·.txid)).count tx.txid = 1) →
        Concur batch each → o.Concordant g c.cap blocks) := by
  intro start batch each
  have resting : o.Resting U start :=
    ⟨rfl, faithful_reachable reached, sound_reachable reached, coherent⟩
  have flat := o.flatten_adaptiveChunks blocks
  have filled : ∀ chunk ∈ o.adaptiveChunks blocks, chunk ≠ [] := fun _ =>
    ne_nil_of_mem_adaptiveChunks blocks
  unfold Concordant
  have ran : batch = (o.ingestChunks ⟨0, 0, 0, (o.adaptiveChunks blocks).length⟩
    (o.adaptiveChunks blocks)).run World.handle start := rfl
  rw [ran]
  generalize o.adaptiveChunks blocks = chunks at flat filled ⊢
  subst flat
  obtain ⟨continues, stepped⟩ := resting.ingestAll denoted new adjacent offset
  obtain ⟨admits, batched⟩ := resting.ingestChunks denoted new adjacent filled
    ⟨0, 0, 0, chunks.length⟩
  constructor
  · rintro (⟨f, a, txids, immaterial⟩ | ⟨f, a⟩)
    · exact ⟨iff_of_true (admits.mpr a) (continues.mpr f), fun ok ok' =>
        (batched ok).level (stepped ok') f.funded ⟨txids, unstored⟩ immaterial⟩
    · exact ⟨iff_of_false (mt admits.mp a) (mt continues.mp f), fun ok => absurd (admits.mp ok) a⟩
  · intro once agree
    by_cases f : Continues start.store.committed chunks.flatten
    · have ok' := continues.mpr f
      have ok := agree.success.mpr ok'
      exact Or.inl ⟨f, admits.mp ok, (batched ok).level_only resting (stepped ok') denoted f.funded
        unstored once (agree.level ok ok')⟩
    · exact Or.inr ⟨f, fun a => f (continues.mp (agree.success.mp (admits.mpr a)))⟩

end IngestionOrchestrator

/-- A block that spends an output that no block creates. -/
def Sample.unfunded : LocatedBlock := block 1 101 100
  [coinbase 2 50 burnScript, spend 3 ⟨9, 0⟩ 40 eaterScript]

/-- Both paths over an empty database, with a cache of a capacity. -/
def Sample.Agrees (capacity : ℕ) (blocks : List LocatedBlock) : Prop :=
  let start : World neo4j UtxoCache := ⟨⟨.empty, none⟩, .new capacity⟩
  Concur ((orchestrator 1000000).ingestBlocksBatch blocks |>.run World.handle start)
    ((orchestrator 1000000).ingestAll (fun _ => none) blocks |>.run World.handle start)

/-- The small chain in one chunk, with room for an output in each shard, and one by one. -/
theorem batch_agrees_sample : Sample.Agrees 1 [Sample.first, Sample.second] ∧
    (Sample.orchestrator 1000000).Concordant .empty (UtxoCache.new 1).cap
      [Sample.first, Sample.second] := by
  have single : (Sample.orchestrator 1000000).adaptiveChunks [Sample.first, Sample.second] =
      [[Sample.first, Sample.second]] := by decide +kernel
  have parent : IngestionOrchestrator.FirstParentOk .empty [Sample.first, Sample.second] :=
    fun b head => by
      cases head
      exact Or.inl rfl
  have denotes : Denotes Sample.denotation (txsOf [Sample.first, Sample.second]) := by
    show ∀ tx ∈ txsOf [Sample.first, Sample.second], _
    decide
  have valid := fromGenesis_sample
  have concordant : (Sample.orchestrator 1000000).Concordant .empty (UtxoCache.new 1).cap
      [Sample.first, Sample.second] := by
    refine Or.inl ⟨⟨parent, valid.linked, ?_⟩, ?_, valid.txids, ?_⟩
    · exact funded_cons.mpr ⟨funded_singleton.mpr (by decide), funded_singleton.mpr (by decide)⟩
    · rw [single]
      exact IngestionOrchestrator.admits_single parent fun _ =>
        IngestionOrchestrator.newRows_empty valid.txids
    · rw [single]
      decide +kernel
  obtain ⟨agrees, only⟩ := IngestionOrchestrator.batch_agrees_iff (o := Sample.orchestrator 1000000)
    (U := Sample.denotation) .refl (coherent_new .empty 1) denotes
    ⟨by decide, by decide, by decide, by decide⟩ (by decide) valid.adjacent fun _ => none
  exact ⟨agrees concordant, only (by decide) (agrees concordant)⟩

/-- A batch takes a block that does not name its predecessor, and one that spends what no block
creates; block by block, both are refused. What is pushed out of its shard is missing from the
batch only. -/
theorem batch_disagrees :
    ¬ Sample.Agrees 1000 [Sample.first, Sample.stray] ∧
      ¬ Sample.Agrees 1000 [Sample.first, Sample.unfunded] ∧
      ¬ Sample.Agrees 1 [Sample.first, Sample.crowded] := by
  refine ⟨fun agree => ?_, fun agree => ?_, fun agree => ?_⟩
  · exact absurd (agree.success.mp (by decide +kernel)) (by decide +kernel)
  · exact absurd (agree.success.mp (by decide +kernel)) (by decide +kernel)
  · have level := agree.level (by decide +kernel) (by decide +kernel)
    have tables := congrArg (fun g : Graph => (g.transactions.get? 19).map (·.totalInput))
      level.graph
    revert tables
    decide +kernel

end ChainGraph

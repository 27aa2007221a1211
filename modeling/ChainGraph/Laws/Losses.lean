import ChainGraph.Laws.OneByOne

/-!
# What a chunk loses

A chunk reads what its inputs are worth after it has put all its outputs into the cache. Those that
later outputs push out of their shard are lost, unless the database knows them already. A loss shows
in the total of the transaction that spends the output and in what it performs for an address, or it
is immaterial.
-/

namespace ChainGraph

open Foundation Foundation.Store

/-! ## Outputs that a chunk loses -/

/-- Whether the shards still hold the record that was put into them last under a key. -/
theorem exists_retained_iff {cap : Fin numShards → ℕ} {rows : List OutputData} {k : UtxoKey} :
    (∃ row, Retained cap rows k row) ↔
      ∃ i ∈ List.range rows.length, ((rows.drop i).head?.map (·.outputId) = some k) ∧
        (∀ r ∈ rows.drop (i + 1), r.outputId ≠ k) ∧
          ((sameShard k (rows.drop (i + 1))).map (·.outputId)).toFinset.card <
            cap (UtxoCache.shardIndex k) := by
  constructor
  · rintro ⟨row, pre, post, rfl, rfl, others, few⟩
    have tail : (pre ++ row :: post).drop (pre.length + 1) = post := by
      rw [List.append_cons, List.drop_left' (by simp)]
    exact ⟨pre.length, by simp, by simp, by rwa [tail], by rwa [tail]⟩
  · rintro ⟨i, inside, here, others, few⟩
    have lt : i < rows.length := List.mem_range.mp inside
    have split := List.take_append_drop i rows
    rw [List.drop_eq_getElem_cons lt] at split here
    exact ⟨rows[i], rows.take i, rows.drop (i + 1), split.symm, Option.some.inj here, others, few⟩

instance {cap : Fin numShards → ℕ} {rows : List OutputData} {k : UtxoKey} :
    Decidable (∃ row, Retained cap rows k row) := decidable_of_iff' _ exists_retained_iff

instance (chain : List LocatedBlock) (k : UtxoKey) : Decidable (Creates chain k) :=
  inferInstanceAs (Decidable (∃ tx ∈ _, _))

namespace IngestionOrchestrator

variable {o : IngestionOrchestrator} {U : Denotation} {g g' : Graph} {w : World neo4j UtxoCache}
  {chunk : List LocatedBlock}

/-- An output that the chunk creates, that is not left in the database, and that later outputs of
the chunk push out of its shard. -/
def Lost (o : IngestionOrchestrator) (g : Graph) (cap : Fin numShards → ℕ)
    (chunk : List LocatedBlock) (k : UtxoKey) : Prop :=
  ¬ g.outputs.Has k ∧ Creates chunk k ∧ ¬ ∃ row, Retained cap (o.outputRows chunk) k row

instance (o : IngestionOrchestrator) (g : Graph) (cap : Fin numShards → ℕ)
    (chunk : List LocatedBlock) (k : UtxoKey) : Decidable (o.Lost g cap chunk k) :=
  inferInstanceAs (Decidable (_ ∧ _))

/-- What a chunk's inputs resolve to, if they spend what is stored or what the chunk creates. -/
def keptOf (o : IngestionOrchestrator) (U : Denotation) (g : Graph) (cap : Fin numShards → ℕ)
    (chunk : List LocatedBlock) : Found :=
  fun k => if o.Lost g cap chunk k then none else o.valueOf U k

/-- What a chunk did that was committed. -/
structure Dealt (o : IngestionOrchestrator) (U : Denotation) (w : World neo4j UtxoCache)
    (chunk : List LocatedBlock) (w' : World neo4j UtxoCache) : Prop where
  resting : o.Resting U w'
  cap : w'.memory.cap = w.memory.cap
  landed : Landed w.store.committed chunk w'.store.committed
  hasOutput : w'.store.committed.hasOutput =
    w.store.committed.hasOutput + ↑(o.ownedOutputs chunk)
  checkpoint : w'.store.committed.checkpoint =
    (lastCheckpoint chunk).or w.store.committed.checkpoint
  merged : Unseen chunk w.store.committed →
    (∀ k ∈ spentKeys chunk, w.store.committed.outputs.Has k ∨ Creates chunk k) →
      o.Merged (o.keptOf U w.store.committed w.memory.cap chunk) w.store.committed chunk
        w'.store.committed

/-- What the inputs of a chunk resolve to. -/
theorem resolvedChunk_eq_keptOf {c c₁ : UtxoCache} {found : Found} (faithful : o.Faithful U g)
    (denoted : Denotes U (txsOf chunk))
    (answered : Answered (fun k v => g.resolve k = some v) g c (spentKeys chunk) found c₁)
    (funded : ∀ k ∈ spentKeys chunk, g.outputs.Has k ∨ Creates chunk k) :
    ∀ k ∈ spentKeys chunk,
      (resolvedChunk o chunk found c₁).2 k = o.keptOf U g c.cap chunk k := fun k mem => by
  have only : ∀ k v, g.resolve k = some v → g.outputs.Has k := fun k v found =>
    resolve_isSome.mp (by rw [found, Option.isSome_some])
  obtain ⟨values, isSome⟩ := resolvedChunk_spec (o := o) only answered mem
  unfold keptOf
  split
  · rename_i lost
    refine Option.not_isSome_iff_eq_none.mp fun some => ?_
    exact (isSome.mp some).elim lost.1 lost.2.2
  · rename_i there
    have resolves : ((resolvedChunk o chunk found c₁).2 k).isSome := isSome.mpr <| by
      by_contra neither
      rw [not_or] at neither
      exact there ⟨neither.1, (funded k mem).resolve_left neither.1, neither.2⟩
    obtain ⟨v, hit⟩ := Option.isSome_iff_exists.mp resolves
    rw [hit]
    rcases values v hit with stored | ⟨_, row, ⟨pre, post, split, same, _⟩, rfl⟩
    · exact (faithful.resolve_eq_some stored).symm
    · rw [valueOf, ← same, rowOf_outputId denoted (split ▸ by simp)]
      rfl

/-- What the queries of a chunk leave, once they are accepted. -/
theorem Resting.committed {c c₁ : UtxoCache} {found : Found} (h : o.Resting U ⟨⟨g, none⟩, c⟩)
    (denoted : Denotes U (txsOf chunk)) (new : g.NewBlocks (blockRows chunk))
    (adjacent : chunk.IsChain Adjacent)
    (answered : Answered (fun k v => g.resolve k = some v) g c (spentKeys chunk) found c₁)
    (sent : execAll neo4j (o.chunkQueries (resolvedChunk o chunk found c₁).2 chunk) g = .ok g')
    (sound' : Sound g') :
    (¬ hasBip30 chunk → o.NewRows chunk g) ∧ o.Dealt U ⟨⟨g, none⟩, c⟩ chunk
      ⟨⟨g', none⟩, (resolvedChunk o chunk found c₁).1.removeMany (spentKeys chunk)⟩ := by
  have faithful' : o.Faithful U g' := h.faithful.chunkQueries denoted sent
  have agree := resolvedChunk_eq_keptOf h.faithful denoted answered
  have quiet := supplemented_supplement (spentKeys chunk) found
    (populateCache (o.outputRows chunk) c₁)
  rw [show supplement (spentKeys chunk) found (populateCache (o.outputRows chunk) c₁) =
    resolvedChunk o chunk found c₁ from rfl] at quiet
  generalize resolvedChunk o chunk found c₁ = resolved at sent agree quiet ⊢
  obtain ⟨c₂, res⟩ := resolved
  obtain ⟨g₁, created, rows, rfl⟩ := execAll_chunkQueries.mp sent
  obtain ⟨outputs, locks⟩ := coins_createBlocksFast created
  obtain ⟨performs, benefits⟩ := chunkParts_perm o res chunk
  obtain ⟨outputs', locks'⟩ := coins_phases o res chunk (hasBip30 chunk) false performs benefits
    (lastCheckpoint chunk) g₁
  have filled := coherent_populateCache (h.faithful.congr outputs locks)
    (Coherent.congr answered.cache outputs locks)
    (fun row mem => rowOf_outputId denoted mem) (adds_linkBy (hasBip30 chunk))
  obtain ⟨-, hu, next, rfl, links⟩ := Graph.execAll_createBlocksFast created
  have apart : ¬ hasBip30 chunk → o.NewRows chunk g := fun fast => (rows fast).congr rfl rfl rfl
  refine ⟨apart, ⟨rfl, faithful', sound', ?_⟩, ?_, landed_phases o res chunk _ false performs
    benefits _, (hasOutput_phases o res chunk _ false performs benefits _ _).trans (foldl_link ..),
    ?_, fun unseen funded => ?_⟩
  · refine (filled.congr outputs' locks').of_peek fun k v present => ?_
    rw [UtxoCache.peek_removeMany] at present
    split at present
    · cases present
    · exact Or.inl ((quiet.peek k).symm.trans present)
  · funext s
    show (c₂.removeMany _).cap s = c.cap s
    rw [UtxoCache.cap_removeMany]
    exact (quiet.cap s).trans ((cap_populateCache s).trans (answered.cap s))
  · show (o.phases res chunk _ false _ (lastCheckpoint chunk) _).checkpoint = _
    rw [phases_eq o res chunk _ _ performs benefits]
    rfl
  · have known : o.Known chunk g := fun k mem => by
      rw [has_putOutputNodes, exists_outputRow]
      exact (funded k mem).symm
    refine (Merged.phases h.sound new unseen known hu (links (ascending_blockRows adjacent)) _ _
      apart performs benefits _).congr (agree funded)

/-- **One chunk.** It is committed iff its first block names the stored one below it and, at
ordinary heights, its rows are new. -/
theorem Resting.ingestChunk (h : o.Resting U w) (denoted : Denotes U (txsOf chunk))
    (new : w.store.committed.NewBlocks (blockRows chunk)) (adjacent : chunk.IsChain Adjacent) :
    let ran := (o.ingestChunk chunk).run World.handle w
    (ran.1.isOk ↔ FirstParentOk w.store.committed chunk ∧
        (¬ hasBip30 chunk → o.NewRows chunk w.store.committed)) ∧
      (ran.1.isOk → o.Dealt U w chunk ran.2) := by
  intro ran
  obtain ⟨⟨g, active⟩, c⟩ := w
  obtain rfl : active = none := h.free
  dsimp only at new ⊢
  obtain ⟨found, c₁, answered, fetched⟩ := run_prefetchUtxos none
    (spentKeys chunk) h.coherent fun _ _ found => found
  have outcome : ChunkOutcome o chunk g found c₁ c ran := run_ingestChunk_outcome fetched
  have sound' : Sound ran.2.store.committed := h.sound.run (o.ingestChunk chunk) c
  have accepted : FirstParentOk g chunk ∧ (¬ hasBip30 chunk → o.NewRows chunk g) → ran.1.isOk := by
    rintro ⟨parent, rows⟩
    obtain ⟨g₁, created⟩ := execAll_createBlocksFast_ok o.writer new
    have apart : ¬ hasBip30 chunk → o.NewRows chunk g₁ := fun fast => by
      obtain ⟨-, hu, next, rfl, -⟩ := Graph.execAll_createBlocksFast created
      exact (rows fast).congr rfl rfl rfl
    have sent : execAll neo4j (o.chunkQueries (resolvedChunk o chunk found c₁).2 chunk) g =
        .ok _ := execAll_chunkQueries.mpr ⟨g₁, created, apart, rfl⟩
    have done : ran = _ := run_ingestChunk_ok parent fetched sent
    rw [done]
    rfl
  generalize ran = result at outcome sound' accepted ⊢
  cases outcome with
  | orphan err unlinked =>
    exact ⟨iff_of_false Bool.false_ne_true fun both => unlinked both.1, fun ok => by cases ok⟩
  | refused err g' c' parent outside =>
    exact ⟨⟨fun ok => (by cases ok), accepted⟩, fun ok => by cases ok⟩
  | committed g' parent sent =>
    obtain ⟨rows, dealt⟩ := h.committed denoted new adjacent answered sent sound'
    exact ⟨iff_of_true rfl ⟨parent, rows⟩, fun _ => dealt⟩

end IngestionOrchestrator

/-! ## What is missing from a price -/

section Missing

variable {res res' : Found} {keys : List UtxoKey} {lost : UtxoKey → Prop} [DecidablePred lost]

theorem sumAmounts_cons (a : UInt64) (amounts : List UInt64) :
    sumAmounts (a :: amounts) = a + sumAmounts amounts := by
  rw [sumAmounts_eq, sumAmounts_eq, List.map_cons, List.sum_cons, UInt64.ofNat_add,
    UInt64.ofNat_toNat]

/-- A sum without some keys, and what is missing from it. -/
theorem sum_without (without : ∀ k ∈ keys, res' k = if lost k then none else res k) :
    sumAmounts ((keys.filterMap res).map (·.amount)) =
      sumAmounts ((keys.filterMap res').map (·.amount)) +
        sumAmounts ((((keys.filter lost).filterMap res)).map (·.amount)) := by
  induction keys with
  | nil => rfl
  | cons k keys ih =>
    have rest := ih fun k' mem => without k' (List.mem_cons_of_mem k mem)
    have here := without k List.mem_cons_self
    by_cases gone : lost k
    · rw [if_pos gone] at here
      rw [List.filter_cons_of_pos (by simpa using gone), List.filterMap_cons_none here]
      cases hit : res k with
      | none => rw [List.filterMap_cons_none hit, List.filterMap_cons_none hit, rest]
      | some v =>
        rw [List.filterMap_cons_some hit, List.filterMap_cons_some hit, List.map_cons,
          List.map_cons, sumAmounts_cons, sumAmounts_cons, rest]
        rw [← UInt64.add_assoc, UInt64.add_comm v.amount, UInt64.add_assoc]
    · rw [if_neg gone] at here
      rw [List.filter_cons_of_neg (by simpa using gone)]
      cases hit : res k with
      | none =>
        rw [List.filterMap_cons_none hit, List.filterMap_cons_none (here.trans hit), rest]
      | some v =>
        rw [List.filterMap_cons_some hit, List.filterMap_cons_some (here.trans hit), List.map_cons,
          List.map_cons, sumAmounts_cons, sumAmounts_cons, rest]
        exact (UInt64.add_assoc ..).symm

/-- Nothing with an address is missing. -/
theorem addressed_without (without : ∀ k ∈ keys, res' k = if lost k then none else res k)
    (bare : ∀ k ∈ keys, lost k → ∀ v, res k = some v → v.address = none) :
    addressed res' keys = addressed res keys := by
  unfold addressed
  induction keys with
  | nil => rfl
  | cons k keys ih =>
    have rest := ih (fun k' mem => without k' (List.mem_cons_of_mem k mem))
      fun k' mem => bare k' (List.mem_cons_of_mem k mem)
    have here := without k List.mem_cons_self
    by_cases gone : lost k
    · rw [if_pos gone] at here
      rw [List.filterMap_cons_none here, rest]
      cases hit : res k with
      | none => rw [List.filterMap_cons_none hit]
      | some v =>
        rw [List.filterMap_cons_some hit, List.filterMap_cons_none]
        rw [bare k List.mem_cons_self gone v hit]
        rfl
    · rw [if_neg gone] at here
      cases hit : res k with
      | none => rw [List.filterMap_cons_none hit, List.filterMap_cons_none (here.trans hit), rest]
      | some v =>
        rw [List.filterMap_cons_some hit, List.filterMap_cons_some (here.trans hit),
          List.filterMap_cons, List.filterMap_cons, rest]

/-- If something with an address is missing, its entry counts less. -/
theorem bare_of_entries (short : keys.length < 2 ^ 32)
    (without : ∀ k ∈ keys, res' k = if lost k then none else res k)
    (same : ∀ a n s, Entry res keys a n s → Entry res' keys a n s) :
    ∀ k ∈ keys, lost k → ∀ v, res k = some v → v.address = none := by
  intro k mem gone v hit
  by_contra locked
  obtain ⟨a, address⟩ := Option.ne_none_iff_exists'.mp locked
  have fewer : lockedKeys res' a keys = (lockedKeys res a keys).filter fun k => ¬ lost k := by
    unfold lockedKeys
    rw [List.filter_filter]
    refine List.filter_congr fun k' mem' => ?_
    rw [without k' mem']
    by_cases gone' : lost k' <;> simp [gone']
  have inside : k ∈ lockedKeys res a keys :=
    List.mem_filter.mpr ⟨mem, by simp [hit, address]⟩
  have less : (lockedKeys res' a keys).length < (lockedKeys res a keys).length := by
    rw [fewer]
    exact List.length_filter_lt_length_iff_exists.mpr ⟨k, inside, by simpa using gone⟩
  have entry : Entry res keys a _ _ := ⟨List.ne_nil_of_mem inside, rfl, rfl⟩
  have count := (same a _ _ entry).count
  have small : (lockedKeys res a keys).length < UInt32.size :=
    Nat.lt_of_le_of_lt (List.length_filter_le ..) short
  rw [← UInt32.toNat_inj, UInt32.toNat_ofNat_of_lt' small,
    UInt32.toNat_ofNat_of_lt' (Nat.lt_trans less small)] at count
  omega

end Missing

namespace IngestionOrchestrator

variable {o : IngestionOrchestrator} {U : Denotation} {res res' : Found} {g g' : Graph}
  {chunk chain : List LocatedBlock} {cap : Fin numShards → ℕ} {tx : Transaction}

/-! ## What a graph says of a transaction -/

/-- A transaction is stored with the inputs that a lookup resolves. -/
structure Priced (res : Found) (tx : Transaction) (g : Graph) : Prop where
  node : ∃ n ∈ g.transactions, n.txid = tx.txid ∧
    n.totalInput = sumAmounts ((resolvedInputs res tx).map (·.amount))
  performs : ∀ p : PerformsData, p.toTxid = tx.txid → (p ∈ g.performs ↔ p ∈ performsOf res tx)

theorem toTxid_performsOf {p : PerformsData} (mem : p ∈ performsOf res tx) :
    p.toTxid = tx.txid := by
  obtain ⟨_, _, rfl⟩ := List.mem_map.mp mem
  rfl

theorem Merged.priced (h : o.Merged res g chain g') (sound : Sound g) (unseen : Unseen chain g)
    (mem : tx ∈ txsOf chain) : Priced res tx g' where
  node := by
    obtain ⟨before, after, split⟩ := List.append_of_mem mem
    have txids := unseen.txids
    rw [split, List.map_append, List.map_cons, List.nodup_append, List.nodup_cons] at txids
    have standing : Standing chain tx := ⟨before, after, split, fun t ht same =>
      txids.2.1.1 (List.mem_map.mpr ⟨t, ht, same⟩)⟩
    obtain ⟨b, node⟩ := mem_putTransactions res standing g.transactions
    have table : g'.transactions = putTransactions res chain g.transactions :=
      h.apart.transactions
    rw [← table] at node
    exact ⟨_, node, rfl, rfl⟩
  performs p same := by
    have table : g'.performs = (performsRows res chain).foldl Table.upsert g.performs :=
      h.apart.performs
    rw [table, Table.mem_foldl_upsert_new (nodup_performsRows res unseen.txids) fun q hq has => ?_]
    swap
    · obtain ⟨t, ht, toTx⟩ := txid_of_mem_performsRows hq
      obtain ⟨old, stored, ends⟩ := has
      refine unseen.transactions t ht ?_
      rw [toTx, ← show old.toTxid = q.toTxid from congrArg Prod.snd ends]
      exact (sound.performs old stored).2
    constructor
    · rintro (row | old)
      · obtain ⟨t, ht, inTx⟩ := List.mem_flatMap.mp row
        have one : t = tx := List.inj_on_of_nodup_map unseen.txids ht mem
          ((toTxid_performsOf inTx).symm.trans same)
        exact one ▸ inTx
      · exact absurd (same ▸ (sound.performs p old).2) (unseen.transactions tx mem)
    · exact fun row => Or.inl (List.mem_flatMap.mpr ⟨tx, mem, row⟩)

/-- Blocks leave what is said of other transactions. -/
theorem Merged.priced_away (h : o.Merged res g chain g')
    (away : tx.txid ∉ (txsOf chain).map (·.txid)) : Priced res' tx g' ↔ Priced res' tx g := by
  have transactions : g'.transactions = putTransactions res chain g.transactions :=
    h.apart.transactions
  have performs : g'.performs = (performsRows res chain).foldl Table.upsert g.performs :=
    h.apart.performs
  have nodes : ∀ n : TransactionNode, n.txid = tx.txid →
      (n ∈ g'.transactions ↔ n ∈ g.transactions) := fun n same => by
    rw [transactions]
    refine Table.mem_foldl_upsert_away fun row hrow eq => away ?_
    obtain ⟨r, hr, rfl⟩ := List.mem_map.mp hrow
    rw [← map_txid_transactionRows res chain, ← same, eq]
    exact List.mem_map_of_mem hr
  have edges : ∀ p : PerformsData, p.toTxid = tx.txid → (p ∈ g'.performs ↔ p ∈ g.performs) :=
    fun p same => by
      rw [performs]
      refine Table.mem_foldl_upsert_away fun row hrow eq => away ?_
      obtain ⟨t, ht, toTx⟩ := txid_of_mem_performsRows hrow
      refine List.mem_map.mpr ⟨t, ht, toTx.trans ?_⟩
      rw [← same, show p.toTxid = row.toTxid from congrArg Prod.snd eq]
  constructor
  · rintro ⟨⟨n, mem, same, total⟩, entries⟩
    exact ⟨⟨n, (nodes n same).mp mem, same, total⟩, fun p hp =>
      (edges p hp).symm.trans (entries p hp)⟩
  · rintro ⟨⟨n, mem, same, total⟩, entries⟩
    exact ⟨⟨n, (nodes n same).mpr mem, same, total⟩, fun p hp =>
      (edges p hp).trans (entries p hp)⟩

/-! ## Immaterial losses -/

/-- The record of an output that a chunk creates. -/
def createdRow (o : IngestionOrchestrator) (chunk : List LocatedBlock) (k : UtxoKey) :
    Option OutputData :=
  ((o.outputRows chunk).filter (·.outputId = k)).getLast?

/-- The records of what a transaction spends and its chunk loses. -/
def lostRows (o : IngestionOrchestrator) (g : Graph) (cap : Fin numShards → ℕ)
    (chunk : List LocatedBlock) (tx : Transaction) : List OutputData :=
  (tx.inputKeys.filter fun k => o.Lost g cap chunk k).filterMap (o.createdRow chunk)

/-- What a transaction loses has no address, and its amounts add up to nothing. -/
structure Immaterial (o : IngestionOrchestrator) (g : Graph) (cap : Fin numShards → ℕ)
    (chunk : List LocatedBlock) (tx : Transaction) : Prop where
  unlocked : ∀ row ∈ o.lostRows g cap chunk tx, row.address = none
  worthless : sumAmounts ((o.lostRows g cap chunk tx).map (·.amount)) = 0

instance (o : IngestionOrchestrator) (g : Graph) (cap : Fin numShards → ℕ)
    (chunk : List LocatedBlock) (tx : Transaction) : Decidable (o.Immaterial g cap chunk tx) :=
  decidable_of_iff ((∀ row ∈ o.lostRows g cap chunk tx, row.address = none) ∧
    sumAmounts ((o.lostRows g cap chunk tx).map (·.amount)) = 0)
    ⟨fun ⟨unlocked, worthless⟩ => ⟨unlocked, worthless⟩, fun h => ⟨h.unlocked, h.worthless⟩⟩

/-- A created output is worth what its record says. -/
theorem valueOf_created (denoted : Denotes U (txsOf chunk)) {k : UtxoKey}
    (created : Creates chunk k) :
    ∃ row, o.createdRow chunk k = some row ∧ o.valueOf U k = some (.ofOutput row) := by
  obtain ⟨out, mem, same⟩ := exists_outputRow (o := o).mpr created
  have some : (o.outputRows chunk).filter (·.outputId = k) ≠ [] :=
    List.ne_nil_of_mem (List.mem_filter.mpr ⟨mem, by simpa using same⟩)
  obtain ⟨row, found⟩ := Option.isSome_iff_exists.mp (List.getLast?_isSome.mpr some)
  obtain ⟨inRows, key⟩ := List.mem_filter.mp (List.mem_of_getLast? found)
  have key : row.outputId = k := by simpa using key
  refine ⟨row, found, ?_⟩
  rw [valueOf, ← key, rowOf_outputId denoted inRows]
  rfl

/-- The lost records are what the lost keys are worth. -/
theorem filterMap_lost (denoted : Denotes U (txsOf chunk)) :
    (tx.inputKeys.filter fun k => o.Lost g cap chunk k).filterMap (o.valueOf U) =
      (o.lostRows g cap chunk tx).map .ofOutput := by
  unfold lostRows
  rw [List.map_filterMap]
  refine List.filterMap_congr fun k mem => ?_
  have lost : o.Lost g cap chunk k := by simpa using (List.mem_filter.mp mem).2
  obtain ⟨row, created, worth⟩ := valueOf_created (o := o) denoted lost.2.1
  rw [created, worth]
  rfl

theorem keptOf_of_mem (o : IngestionOrchestrator) (U : Denotation) (g : Graph)
    (cap : Fin numShards → ℕ) (chunk : List LocatedBlock) (keys : List UtxoKey) :
    ∀ k ∈ keys, o.keptOf U g cap chunk k =
      if o.Lost g cap chunk k then none else o.valueOf U k := fun _ _ => rfl

/-- What is lost has no address iff no lost key is worth something with one. -/
theorem unlocked_iff (denoted : Denotes U (txsOf chunk)) :
    (∀ row ∈ o.lostRows g cap chunk tx, row.address = none) ↔
      ∀ k ∈ tx.inputKeys, o.Lost g cap chunk k → ∀ v, o.valueOf U k = some v →
        v.address = none := by
  have worth : (tx.inputKeys.filter fun k => o.Lost g cap chunk k).filterMap (o.valueOf U) = _ :=
    filterMap_lost denoted
  constructor
  · intro bare k mem lost v hit
    have there : v ∈ (o.lostRows g cap chunk tx).map CachedOutput.ofOutput := worth ▸
      List.mem_filterMap.mpr ⟨k, List.mem_filter.mpr ⟨mem, by simpa using lost⟩, hit⟩
    obtain ⟨row, inRows, rfl⟩ := List.mem_map.mp there
    exact bare row inRows
  · intro bare row mem
    have there := List.mem_map_of_mem (f := CachedOutput.ofOutput) mem
    rw [← worth] at there
    obtain ⟨k, inKeys, hit⟩ := List.mem_filterMap.mp there
    obtain ⟨mem', lost⟩ := List.mem_filter.mp inKeys
    exact bare k mem' (by simpa using lost) _ hit

/-- The total is right iff what is lost is worthless. -/
theorem worthless_iff (denoted : Denotes U (txsOf chunk)) :
    sumAmounts ((resolvedInputs (o.keptOf U g cap chunk) tx).map (·.amount)) =
        sumAmounts ((resolvedInputs (o.valueOf U) tx).map (·.amount)) ↔
      sumAmounts ((o.lostRows g cap chunk tx).map (·.amount)) = 0 := by
  have total := sum_without (o.keptOf_of_mem U g cap chunk tx.inputKeys)
  rw [filterMap_lost denoted, List.map_map] at total
  unfold resolvedInputs
  rw [total, eq_comm]
  exact UInt64.add_eq_left

theorem mem_performsOf (res : Found) {d : Address} {n : UInt32} {s : UInt64} :
    (⟨d, tx.txid, n, s⟩ : PerformsData) ∈ performsOf res tx ↔ Entry res tx.inputKeys d n s := by
  rw [← mem_tally_addressed]
  unfold performsOf
  rw [List.mem_map]
  constructor
  · rintro ⟨⟨a', n', s'⟩, mem, same⟩
    cases same
    exact mem
  · exact fun mem => ⟨_, mem, rfl⟩

theorem length_inputKeys (tx : Transaction) : tx.inputKeys.length < 2 ^ 32 := by
  refine Nat.lt_of_le_of_lt ?_ tx.inputs_lt
  unfold Transaction.inputKeys
  split <;> simp

/-- **Immaterial losses** do not show in what is written of the transaction, -/
theorem Immaterial.written (h : o.Immaterial g cap chunk tx) (denoted : Denotes U (txsOf chunk)) :
    sumAmounts ((resolvedInputs (o.keptOf U g cap chunk) tx).map (·.amount)) =
        sumAmounts ((resolvedInputs (o.valueOf U) tx).map (·.amount)) ∧
      performsOf (o.keptOf U g cap chunk) tx = performsOf (o.valueOf U) tx := by
  refine ⟨(worthless_iff denoted).mpr h.worthless, ?_⟩
  have same := addressed_without (o.keptOf_of_mem U g cap chunk tx.inputKeys)
    ((unlocked_iff denoted).mp h.unlocked)
  exact congrArg (fun l => (tally l).map fun e : Address × UInt32 × UInt64 =>
    (⟨e.1, tx.txid, e.2.1, e.2.2⟩ : PerformsData)) same

/-- and others do. -/
theorem immaterial_of_priced (denoted : Denotes U (txsOf chunk))
    (lossy : Priced (o.keptOf U g cap chunk) tx g') (whole : Priced (o.valueOf U) tx g') :
    o.Immaterial g cap chunk tx where
  unlocked := by
    refine (unlocked_iff denoted).mpr (bare_of_entries (length_inputKeys tx)
      (o.keptOf_of_mem U g cap chunk tx.inputKeys) fun a n s entry => ?_)
    have stored := (whole.performs _ rfl).mpr ((mem_performsOf _).mpr entry)
    exact (mem_performsOf _).mp ((lossy.performs _ rfl).mp stored)
  worthless := by
    refine (worthless_iff denoted).mp ?_
    obtain ⟨n, mem, same, total⟩ := lossy.node
    obtain ⟨n', mem', same', total'⟩ := whole.node
    obtain rfl := Table.unique _ n mem n' mem' (same.trans same'.symm)
    exact total.symm.trans total'

/-- Where all losses of a chunk are immaterial, its rows are those without losses. -/
theorem rows_of_immaterial (denoted : Denotes U (txsOf chunk))
    (immaterial : ∀ tx ∈ txsOf chunk, o.Immaterial g cap chunk tx) :
    transactionRows (o.keptOf U g cap chunk) chunk = transactionRows (o.valueOf U) chunk ∧
      performsRows (o.keptOf U g cap chunk) chunk = performsRows (o.valueOf U) chunk := by
  refine ⟨?_, List.flatMap_congr fun tx mem => ((immaterial tx mem).written denoted).2⟩
  refine List.flatMap_congr fun b hb => List.map_congr_left fun tx htx => ?_
  unfold priceTransaction
  rw [((immaterial tx (List.mem_flatMap.mpr ⟨b, hb, htx⟩)).written denoted).1]

end IngestionOrchestrator

end ChainGraph

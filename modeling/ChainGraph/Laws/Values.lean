import ChainGraph.Laws.Batch
import ChainGraph.Laws.Coins
import ChainGraph.Laws.Tally

/-!
# Input values in a batch

The amount of an input comes from the prefetch or, for an output of the same chunk, from the cache
the outputs have just been put into. The cache is bounded: an output that is pushed out of its shard
before the amounts are read is passed over, and its amount is missing from the transaction.
-/

namespace ChainGraph

open Foundation Foundation.Store

/-! ## Quiet lookups -/

section Supplement

variable {found : Found} {c : UtxoCache} {done : List UtxoKey} {acc : UtxoCache × Found}

/-- The state of the supplementing loop after the keys `done`: the cache answers as before, and a
key that was not found has what the cache has. -/
structure Supplemented (found : Found) (c : UtxoCache) (done : List UtxoKey)
    (acc : UtxoCache × Found) : Prop where
  cap : ∀ s, acc.1.cap s = c.cap s
  peek : ∀ k, acc.1.peek k = c.peek k
  found : ∀ k, acc.2 k = (found k).or (if k ∈ done then c.peek k else none)

theorem Supplemented.step (h : Supplemented found c done acc) (key : UtxoKey) :
    Supplemented found c (done ++ [key]) (supplementStep acc key) := by
  have other : ∀ k, k ≠ key → (k ∈ done ++ [key] ↔ k ∈ done) := fun k ne => by simp [ne]
  have here : key ∈ done ++ [key] := by simp
  unfold supplementStep
  split
  · rename_i known
    refine ⟨h.cap, h.peek, fun k => ?_⟩
    by_cases same : k = key
    · subst same
      rw [h.found k] at known ⊢
      rw [if_pos here]
      by_cases before : k ∈ done
      · rw [if_pos before]
      · rw [if_neg before, Option.or_none] at known ⊢
        obtain ⟨v, hit⟩ := Option.isSome_iff_exists.mp known
        rw [hit, Option.some_or]
    · simp only [h.found k, other k same]
  · rename_i unknown
    have nothing : acc.2 key = none := by simpa using unknown
    have prior : found key = none := by
      rw [h.found key] at nothing
      exact (Option.or_eq_none_iff.mp nothing).1
    unfold UtxoCache.getQuiet
    cases hit : acc.1.peek key with
    | some output =>
      refine ⟨fun s => (UtxoCache.cap_setShard (Lru.cap_touch ..) s).trans (h.cap s),
        fun k => UtxoCache.peek_touched.trans (h.peek k), fun k => ?_⟩
      dsimp only
      by_cases same : k = key
      · subst same
        rw [Function.update_self, prior, if_pos here, ← h.peek, hit, Option.none_or]
      · rw [Function.update_of_ne same, h.found k]
        simp only [other k same]
    | none =>
      refine ⟨h.cap, h.peek, fun k => ?_⟩
      by_cases same : k = key
      · subst same
        dsimp only
        rw [nothing, prior, if_pos here, ← h.peek, hit, Option.none_or]
      · simp only [h.found k, other k same]

theorem supplemented_supplement (keys : List UtxoKey) (found : Found) (c : UtxoCache) :
    Supplemented found c keys (supplement keys found c) := by
  have walk : ∀ (keys done : List UtxoKey) (acc : UtxoCache × Found),
      Supplemented found c done acc →
        Supplemented found c (done ++ keys) (keys.foldl supplementStep acc) := by
    intro keys
    induction keys with
    | nil => exact fun done acc h => by simpa using h
    | cons key keys ih =>
      exact fun done acc h => by simpa using ih _ _ (h.step key)
  exact walk keys [] _ ⟨fun _ => rfl, fun _ => rfl, fun k => by simp⟩

end Supplement

/-! ## The cache after the outputs of a chunk -/

section Populate

variable {rows : List OutputData} {c : UtxoCache} {k : UtxoKey} {v : CachedOutput}

/-- Records whose id is made of their txid and index, as `output_to_data` makes it. -/
def Keyed (rows : List OutputData) : Prop :=
  ∀ row ∈ rows, (⟨row.txid, row.outputIndex⟩ : OutputId) = row.outputId

/-- The records that go to the shard of a key. -/
def sameShard (k : UtxoKey) (rows : List OutputData) : List OutputData :=
  rows.filter fun row => UtxoCache.shardIndex row.outputId = UtxoCache.shardIndex k

/-- The shard of a key receives the records that go there, in order. -/
theorem shard_populateCache (keyed : Keyed rows) :
    (populateCache rows c).shard k =
      (c.shard k).puts ((sameShard k rows).map fun row => (row.outputId, .ofOutput row)) := by
  induction rows generalizing c with
  | nil => rfl
  | cons row rows ih =>
    have key := keyed row List.mem_cons_self
    have step : populateCache (row :: rows) c =
        populateCache rows (c.insert row.outputId (.ofOutput row)) := by
      rw [← key]
      rfl
    rw [step, ih (fun r hr => keyed r (List.mem_cons_of_mem row hr))]
    unfold sameShard
    by_cases home : UtxoCache.shardIndex row.outputId = UtxoCache.shardIndex k
    · have kept : (c.insert row.outputId (.ofOutput row)).shard k =
          (c.shard k).put row.outputId (.ofOutput row) := by
        show Function.update c.shards (UtxoCache.shardIndex row.outputId)
          ((c.shard row.outputId).put row.outputId (.ofOutput row)) (UtxoCache.shardIndex k) = _
        unfold UtxoCache.shard
        rw [home, Function.update_self]
      rw [kept, List.filter_cons_of_pos (by simpa using home), List.map_cons, Lru.puts_cons]
    · have kept : (c.insert row.outputId (.ofOutput row)).shard k = c.shard k :=
        Function.update_of_ne (Ne.symm home) _ _
      rw [kept, List.filter_cons_of_neg (by simpa using home)]

/-- A record that is still cached once all of them have been put into shards with these
capacities: it is the last under its id, and fewer other ids than the shard has room for came to
its shard since. -/
def Retained (cap : Fin numShards → ℕ) (rows : List OutputData) (k : UtxoKey)
    (row : OutputData) : Prop :=
  ∃ pre post, rows = pre ++ row :: post ∧ row.outputId = k ∧ (∀ r ∈ post, r.outputId ≠ k) ∧
    ((sameShard k post).map (·.outputId)).toFinset.card < cap (UtxoCache.shardIndex k)

/-- What the cache answers for a key it did not have. -/
theorem peek_populateCache (keyed : Keyed rows) (absent : c.peek k = none) :
    (populateCache rows c).peek k = some v ↔
      ∃ row, Retained c.cap rows k row ∧ v = .ofOutput row := by
  unfold UtxoCache.peek
  rw [shard_populateCache keyed, Lru.peek_puts (Lru.peek_eq_none.mp absent)]
  have ids : ∀ post : List OutputData,
      (((sameShard k post).map fun row => (row.outputId, CachedOutput.ofOutput row)).map
        Prod.fst) = (sameShard k post).map (·.outputId) := fun post => by
    rw [List.map_map]
    rfl
  have inside : ∀ {post : List OutputData} {r : OutputData}, r ∈ post → r.outputId = k →
      r ∈ sameShard k post := fun mem same =>
    List.mem_filter.mpr ⟨mem, by simp [same]⟩
  constructor
  · rintro ⟨pre, post, split, others, few⟩
    obtain ⟨pre', rest, shards, rfl, tail⟩ := List.map_eq_append_iff.mp split
    obtain ⟨row, post', rfl, made, rfl⟩ := List.map_eq_cons_iff.mp tail
    obtain ⟨same, rfl⟩ := Prod.mk.injEq .. ▸ made
    obtain ⟨pre'', rest', rfl, kept, kept'⟩ := List.filter_eq_append_iff.mp shards
    obtain ⟨pre₃, post₃, rfl, elsewhere, _, kept₃⟩ := List.filter_eq_cons_iff.mp kept'
    change sameShard k post₃ = post' at kept₃
    subst kept₃
    rw [ids] at others few
    exact ⟨row, ⟨pre'' ++ pre₃, post₃, by simp, same, fun r hr eq =>
      others (List.mem_map.mpr ⟨r, inside hr eq, eq⟩), few⟩, rfl⟩
  · rintro ⟨row, ⟨pre, post, rfl, same, others, few⟩, rfl⟩
    refine ⟨(sameShard k pre).map fun row => (row.outputId, .ofOutput row),
      (sameShard k post).map fun row => (row.outputId, .ofOutput row), ?_, ?_, ?_⟩
    · unfold sameShard
      rw [List.filter_append, List.filter_cons_of_pos (by simp [same]), List.map_append,
        List.map_cons, same]
    · rw [ids]
      intro mem
      obtain ⟨r, hr, eq⟩ := List.mem_map.mp mem
      exact others r (List.mem_filter.mp hr).1 eq
    · rw [ids]
      exact few

end Populate

/-! ## Stored amounts -/

/-- The output with this id is stored, with this amount. -/
def Stored (g : Graph) (k : UtxoKey) (v : CachedOutput) : Prop :=
  ∃ n ∈ g.outputs, n.outputId = k ∧ n.amount = v.amount

theorem stored_of_resolve {g : Graph} {k : UtxoKey} {v : CachedOutput}
    (h : g.resolve k = some v) : Stored g k v := by
  unfold Graph.resolve at h
  obtain ⟨r, last, rfl⟩ := Option.map_eq_some_iff.mp h
  have mem := List.mem_of_getLast? last
  unfold Graph.lookupOutput at mem
  cases found : g.outputs.get? k with
  | none =>
    rw [found] at mem
    cases mem
  | some n =>
    rw [found] at mem
    obtain ⟨_, _, rfl⟩ := List.mem_map.mp mem
    exact ⟨n, (Table.get?_eq_some.mp found).1, (Table.get?_eq_some.mp found).2, rfl⟩

theorem Stored.has {g : Graph} {k : UtxoKey} {v : CachedOutput} (h : Stored g k v) :
    g.outputs.Has k := by
  obtain ⟨n, mem, same, _⟩ := h
  exact ⟨n, mem, same⟩

/-- Every entry has the amount of the stored output. -/
def Amounts (g : Graph) (c : UtxoCache) : Prop := ∀ k v, c.peek k = some v → Stored g k v

theorem Coherent.amounts {g : Graph} {c : UtxoCache} (h : Coherent g c) : Amounts g c :=
  fun k v present => stored_of_resolve (h k v present)

namespace IngestionOrchestrator

variable {o : IngestionOrchestrator} {g g' : Graph} {c c' : UtxoCache}
  {chunk : List LocatedBlock} {found res : Found}

theorem keyed_outputRows (o : IngestionOrchestrator) (chunk : List LocatedBlock) :
    Keyed (o.outputRows chunk) := by
  intro row mem
  obtain ⟨tx, _, inTx⟩ := List.mem_flatMap.mp mem
  obtain ⟨_, _, rfl⟩ := List.mem_map.mp inTx
  rfl

/-- Outputs that are put into cache and database alike. -/
theorem Amounts.populateCache {rows : List OutputData} (keyed : Keyed rows) (h : Amounts g c)
    (stored : g'.outputs = (rows.map OutputNode.ofData).foldl Table.upsert g.outputs) :
    Amounts g' (populateCache rows c) := by
  suffices walk : ∀ (rows : List OutputData), Keyed rows → ∀ (t : Table OutputNode
      OutputNode.outputId) (c : UtxoCache),
      (∀ k v, c.peek k = some v → ∃ n ∈ t, n.outputId = k ∧ n.amount = v.amount) →
      ∀ k v, (ChainGraph.populateCache rows c).peek k = some v →
        ∃ n ∈ (rows.map OutputNode.ofData).foldl Table.upsert t,
          n.outputId = k ∧ n.amount = v.amount by
    intro k v present
    unfold Stored
    rw [stored]
    exact walk rows keyed g.outputs c h k v present
  intro rows
  induction rows with
  | nil => exact fun _ t c h => h
  | cons row rows ih =>
    intro keyed t c h
    refine ih (fun r hr => keyed r (List.mem_cons_of_mem row hr)) (t.upsert (.ofData row)) _ ?_
    intro k v present
    have key : (⟨row.txid, row.outputIndex⟩ : UtxoKey) = row.outputId :=
      keyed row List.mem_cons_self
    rcases UtxoCache.peek_insert present with ⟨rfl, rfl⟩ | ⟨other, old⟩
    · exact ⟨.ofData row, Table.mem_upsert.mpr (Or.inl rfl), key.symm, rfl⟩
    · obtain ⟨n, mem, same, amount⟩ := h k v old
      refine ⟨n, Table.mem_upsert.mpr (Or.inr ⟨mem, fun eq => other ?_⟩), same, amount⟩
      rw [← same, key]
      exact eq

/-- A committed chunk leaves the stored amounts in the cache, and the room in its shards. -/
theorem Amounts.ingestChunk (h : Amounts g c) {counts : ℕ × ℕ × ℕ} {w : World neo4j UtxoCache}
    (ran : (o.ingestChunk chunk).run World.handle ⟨⟨g, none⟩, c⟩ = (.ok counts, w)) :
    w.store.active = none ∧ Amounts w.store.committed w.memory ∧ w.memory.cap = c.cap := by
  obtain ⟨found, c₁, answered, fetched⟩ := run_prefetchUtxos none
    (spentKeys chunk) h fun _ _ => stored_of_resolve
  have outcome := run_ingestChunk_outcome (o := o) fetched
  rw [ran] at outcome
  cases outcome with
  | committed g' parent sent =>
    have quiet := supplemented_supplement (spentKeys chunk) found
      (ChainGraph.populateCache (o.outputRows chunk) c₁)
    obtain ⟨g₁, created, _, rfl⟩ := execAll_chunkQueries.mp sent
    obtain ⟨outputs, _⟩ := coins_createBlocksFast created
    obtain ⟨performs, benefits⟩ := chunkParts_perm o (resolvedChunk o chunk found c₁).2 chunk
    refine ⟨rfl, fun k v present => ?_, funext fun s => ?_⟩
    · rw [UtxoCache.peek_removeMany] at present
      split at present
      · cases present
      rw [show (resolvedChunk o chunk found c₁).1.peek k = _ from quiet.peek k] at present
      refine Amounts.populateCache (g := g) (keyed_outputRows o chunk) answered.cache ?_ k v present
      dsimp only
      rw [afterBlocks, phases_eq o _ chunk _ _ performs benefits, ← outputs]
      rfl
    · rw [UtxoCache.cap_removeMany]
      exact (quiet.cap s).trans ((cap_populateCache s).trans (answered.cap s))

/-! ## What inputs reference -/

/-- The amount of the output under a key: as it is stored, else as the chunk creates it. -/
def referenced (o : IngestionOrchestrator) (g : Graph) (chunk : List LocatedBlock)
    (k : UtxoKey) : Option UInt64 :=
  match g.outputs.get? k with
  | some n => some n.amount
  | none => ((o.outputRows chunk).filter (·.outputId = k)).getLast?.map (·.amount)

/-- The sum of the amounts a transaction's inputs reference, without overflow. -/
def referencedSum (o : IngestionOrchestrator) (g : Graph) (chunk : List LocatedBlock)
    (tx : Transaction) : ℕ :=
  (tx.inputKeys.map fun k => ((o.referenced g chunk k).getD 0).toNat).sum

theorem Retained.getLast? {cap : Fin numShards → ℕ} {rows : List OutputData} {k : UtxoKey}
    {row : OutputData} (h : Retained cap rows k row) :
    (rows.filter (·.outputId = k)).getLast? = some row := by
  obtain ⟨pre, post, rfl, same, others, _⟩ := h
  have none : post.filter (·.outputId = k) = [] :=
    List.filter_eq_nil_iff.mpr fun r hr => by simpa using others r hr
  rw [List.filter_append, List.filter_cons_of_pos (by simpa using same), none,
    List.getLast?_concat]

/-- What a chunk's inputs resolve to: what the prefetch answers from cache and database, or a record
of the chunk itself that is still cached when the outputs of the chunk have been put there. -/
theorem resolvedChunk_cases {R : UtxoKey → CachedOutput → Prop}
    (known : ∀ k v, R k v → (c.peek k).isSome ∨ g.outputs.Has k)
    (answered : Answered R g c (spentKeys chunk) found c') {k : UtxoKey}
    (spent : k ∈ spentKeys chunk) :
    (∀ v, (resolvedChunk o chunk found c').2 k = some v →
      R k v ∨ ¬ ((c.peek k).isSome ∨ g.outputs.Has k) ∧
        ∃ row, Retained c.cap (o.outputRows chunk) k row ∧ v = .ofOutput row) ∧
    (((resolvedChunk o chunk found c').2 k).isSome ↔
      ((c.peek k).isSome ∨ g.outputs.Has k) ∨
        ∃ row, Retained c.cap (o.outputRows chunk) k row) := by
  have quiet := supplemented_supplement (spentKeys chunk) found
    (ChainGraph.populateCache (o.outputRows chunk) c')
  have caps : c'.cap = c.cap := funext answered.cap
  have answer : (resolvedChunk o chunk found c').2 k = _ := quiet.found k
  rw [if_pos spent] at answer
  rw [answer]
  by_cases has : (c.peek k).isSome ∨ g.outputs.Has k
  · obtain ⟨v, hit⟩ := Option.isSome_iff_exists.mp ((answered.isSome k).mpr ⟨spent, has⟩)
    rw [hit, Option.some_or]
    refine ⟨fun v' eq => ?_, iff_of_true rfl (Or.inl has)⟩
    cases eq
    exact Or.inl (answered.values k v hit)
  · have notFound : found k = none :=
      Option.eq_none_iff_forall_ne_some.mpr fun v hit => has (known k v (answered.values k v hit))
    have notCached : c'.peek k = none :=
      Option.eq_none_iff_forall_ne_some.mpr fun v hit => has (known k v (answered.cache k v hit))
    rw [notFound, Option.none_or]
    have retained := fun v => peek_populateCache (v := v) (keyed_outputRows o chunk) notCached
    rw [caps] at retained
    refine ⟨fun v hit => Or.inr ⟨has, (retained v).mp hit⟩, ?_⟩
    rw [Option.isSome_iff_exists]
    constructor
    · rintro ⟨v, hit⟩
      obtain ⟨row, kept, _⟩ := (retained v).mp hit
      exact Or.inr ⟨row, kept⟩
    · rintro (stored | ⟨row, kept⟩)
      · exact absurd stored has
      · exact ⟨_, (retained _).mpr ⟨row, kept, rfl⟩⟩

/-- The same where only stored outputs are answered. -/
theorem resolvedChunk_spec {R : UtxoKey → CachedOutput → Prop}
    (only : ∀ k v, R k v → g.outputs.Has k)
    (answered : Answered R g c (spentKeys chunk) found c') {k : UtxoKey}
    (spent : k ∈ spentKeys chunk) :
    (∀ v, (resolvedChunk o chunk found c').2 k = some v → R k v ∨ ¬ g.outputs.Has k ∧
      ∃ row, Retained c.cap (o.outputRows chunk) k row ∧ v = .ofOutput row) ∧
    (((resolvedChunk o chunk found c').2 k).isSome ↔
      g.outputs.Has k ∨ ∃ row, Retained c.cap (o.outputRows chunk) k row) := by
  have stored : (c.peek k).isSome ∨ g.outputs.Has k ↔ g.outputs.Has k := by
    refine ⟨fun either => ?_, Or.inr⟩
    obtain ⟨v, hit⟩ := Option.isSome_iff_exists.mp ((answered.isSome k).mpr ⟨spent, either⟩)
    exact only k v (answered.values k v hit)
  have cases := resolvedChunk_cases (o := o) (fun k v hit => Or.inr (only k v hit)) answered spent
  rwa [stored] at cases

/-- It has the referenced amount. -/
theorem referenced_of_resolved (answered : Answered (Stored g) g c (spentKeys chunk) found c')
    {k : UtxoKey} (spent : k ∈ spentKeys chunk) {v : CachedOutput}
    (hit : (resolvedChunk o chunk found c').2 k = some v) :
    o.referenced g chunk k = some v.amount := by
  rcases (resolvedChunk_spec (fun _ _ => Stored.has) answered spent).1 v hit with
    ⟨n, mem, same, amount⟩ | ⟨absent, row, kept, rfl⟩
  · rw [referenced, Table.get?_eq_some.mpr ⟨mem, same⟩, ← amount]
  · rw [referenced, Table.get?_eq_none.mpr absent, Retained.getLast? kept]
    rfl

/-! ## Sums -/

/-- Keys that are passed over make a sum smaller, unless there was nothing to add. -/
theorem sum_resolved (res : Found) (keys : List UtxoKey) (amount : UtxoKey → Option UInt64)
    (agree : ∀ k ∈ keys, ∀ v, res k = some v → amount k = some v.amount) :
    (((keys.filterMap res).map (·.amount)).map (·.toNat)).sum ≤
        (keys.map fun k => ((amount k).getD 0).toNat).sum ∧
      ((((keys.filterMap res).map (·.amount)).map (·.toNat)).sum =
          (keys.map fun k => ((amount k).getD 0).toNat).sum ↔
        ∀ k ∈ keys, (res k).isSome ∨ (amount k).getD 0 = 0) := by
  induction keys with
  | nil => simp
  | cons k keys ih =>
    obtain ⟨le, eq⟩ := ih fun k' mem => agree k' (List.mem_cons_of_mem k mem)
    rw [List.map_cons, List.sum_cons, List.forall_mem_cons, ← eq]
    cases hit : res k with
    | some v =>
      rw [List.filterMap_cons_some hit, List.map_cons, List.map_cons, List.sum_cons,
        agree k List.mem_cons_self v hit, Option.getD_some]
      simp only [Option.isSome_some, true_or, true_and]
      omega
    | none =>
      have zero : (amount k).getD 0 = 0 ↔ ((amount k).getD 0).toNat = 0 := by
        rw [← UInt64.toNat_inj, UInt64.toNat_zero]
      rw [List.filterMap_cons_none hit, zero]
      simp only [Option.isSome_none, Bool.false_eq_true, false_or]
      omega

/-! ## Committed chunks -/

/-- A transaction that no later one of its chunk takes the place of: with different txids, all of
them. -/
def Standing (chunk : List LocatedBlock) (tx : Transaction) : Prop :=
  ∃ before after, txsOf chunk = before ++ tx :: after ∧ ∀ t ∈ after, t.txid ≠ tx.txid

/-- No input value is lost: every input references an output that is stored or created in the
chunk, and the transaction is written with the sum of their amounts. -/
structure Paid (o : IngestionOrchestrator) (g : Graph) (chunk : List LocatedBlock) (g' : Graph)
    (tx : Transaction) : Prop where
  known : ∀ k ∈ tx.inputKeys, (o.referenced g chunk k).isSome
  written : ∃ n ∈ g'.transactions, n.txid = tx.txid ∧
    n.totalInput.toNat = o.referencedSum g chunk tx ∧
    n.fee.toNat = n.totalInput.toNat - n.totalOutput.toNat

/-- The inputs of a transaction can be resolved: each references a stored output, or one that the
chunk creates and that is not pushed out of its shard by the chunk's later outputs, or is worth
nothing; and their sum fits. -/
structure Resolvable (o : IngestionOrchestrator) (g : Graph) (cap : Fin numShards → ℕ)
    (chunk : List LocatedBlock) (tx : Transaction) : Prop where
  each : ∀ k ∈ tx.inputKeys, g.outputs.Has k ∨
    (∃ row, Retained cap (o.outputRows chunk) k row) ∨ o.referenced g chunk k = some 0
  fits : o.referencedSum g chunk tx < 2 ^ 64

variable (res) in
/-- The row of a transaction that stands is the one that is stored. -/
theorem mem_putTransactions {tx : Transaction} (standing : Standing chunk tx)
    (t : Table TransactionNode TransactionNode.txid) :
    ∃ b : LocatedBlock, TransactionNode.ofData (priceTransaction res b.block b.height tx) ∈
      putTransactions res chunk t := by
  obtain ⟨before, after, split, last⟩ := standing
  let pairs := chunk.flatMap fun b => b.block.txdata.map fun tx => (b, tx)
  have txs : pairs.map (·.2) = txsOf chunk := by
    simp [pairs, txsOf, List.map_flatMap]
  have rows : transactionRows res chunk =
      pairs.map fun p => priceTransaction res p.1.block p.1.height p.2 := by
    simp only [pairs, transactionRows, List.map_flatMap, List.map_map]
    rfl
  rw [split] at txs
  obtain ⟨pre, rest, split', _, tail⟩ := List.map_eq_append_iff.mp txs
  obtain ⟨⟨b, tx'⟩, post, rfl, same, rfl⟩ := List.map_eq_cons_iff.mp tail
  change tx' = tx at same
  subst same
  refine ⟨b, ?_⟩
  unfold putTransactions
  rw [rows, split', List.map_append, List.map_append, List.map_cons, List.map_cons]
  refine Table.mem_foldl_upsert_last _ _ (fun n hn => ?_) t
  obtain ⟨row, hrow, rfl⟩ := List.mem_map.mp hn
  obtain ⟨p, hp, rfl⟩ := List.mem_map.mp hrow
  exact last p.2 (List.mem_map_of_mem hp)

theorem mem_spentKeys {tx : Transaction} (mem : tx ∈ txsOf chunk) {k : UtxoKey}
    (input : k ∈ tx.inputKeys) : k ∈ spentKeys chunk :=
  List.mem_flatMap.mpr ⟨tx, mem, input⟩

/-- A transaction of a committed chunk has its input value iff its inputs can be resolved. -/
theorem paid_iff (h : Amounts g c) {counts : ℕ × ℕ × ℕ} {w : World neo4j UtxoCache}
    (ran : (o.ingestChunk chunk).run World.handle ⟨⟨g, none⟩, c⟩ = (.ok counts, w))
    {tx : Transaction} (standing : Standing chunk tx) :
    o.Paid g chunk w.store.committed tx ↔ o.Resolvable g c.cap chunk tx := by
  obtain ⟨found, c₁, answered, fetched⟩ := run_prefetchUtxos none
    (spentKeys chunk) h fun _ _ => stored_of_resolve
  have outcome := run_ingestChunk_outcome (o := o) fetched
  rw [ran] at outcome
  cases outcome with
  | committed g' parent sent =>
    generalize made : (resolvedChunk o chunk found c₁).2 = res at sent
    have inChunk : tx ∈ txsOf chunk := by
      obtain ⟨before, after, split, _⟩ := standing
      rw [split]
      simp
    have amount : ∀ k ∈ tx.inputKeys, ∀ v, res k = some v →
        o.referenced g chunk k = some v.amount := fun k input v hit =>
      referenced_of_resolved answered (mem_spentKeys inChunk input) (made ▸ hit)
    have resolves : ∀ k ∈ tx.inputKeys, (res k).isSome ↔
        g.outputs.Has k ∨ ∃ row, Retained c.cap (o.outputRows chunk) k row := fun k input =>
      made ▸ (resolvedChunk_spec (fun _ _ => Stored.has) answered (mem_spentKeys inChunk input)).2
    obtain ⟨g₁, created, _, rfl⟩ := execAll_chunkQueries.mp sent
    obtain ⟨performs, benefits⟩ := chunkParts_perm o res chunk
    have transactions : (o.afterBlocks res chunk g₁).transactions =
        putTransactions res chunk g₁.transactions := by
      rw [afterBlocks, phases_eq o res chunk _ _ performs benefits]
    obtain ⟨b, node⟩ := mem_putTransactions res standing g₁.transactions
    rw [← transactions] at node
    obtain ⟨le, eq⟩ := sum_resolved res tx.inputKeys (o.referenced g chunk) amount
    have total : (TransactionNode.ofData
        (priceTransaction res b.block b.height tx)).totalInput.toNat =
        (((tx.inputKeys.filterMap res).map (·.amount)).map (·.toNat)).sum % 2 ^ 64 :=
      toNat_sumAmounts _
    constructor
    · rintro ⟨known, n, mem, same, sum, _⟩
      have only : n = .ofData (priceTransaction res b.block b.height tx) :=
        Table.unique _ n mem _ node same
      rw [only, total] at sum
      have fits : o.referencedSum g chunk tx < 2 ^ 64 := by
        rw [← sum]
        exact Nat.mod_lt _ (by decide)
      have short : (((tx.inputKeys.filterMap res).map (·.amount)).map (·.toNat)).sum < 2 ^ 64 :=
        Nat.lt_of_le_of_lt le fits
      rw [Nat.mod_eq_of_lt short] at sum
      refine ⟨fun k input => ?_, fits⟩
      rcases eq.mp sum k input with resolved | zero
      · rcases (resolves k input).mp resolved with stored | retained
        · exact Or.inl stored
        · exact Or.inr (Or.inl retained)
      · obtain ⟨a, worth⟩ := Option.isSome_iff_exists.mp (known k input)
        rw [worth, Option.getD_some] at zero
        exact Or.inr (Or.inr (zero ▸ worth))
    · rintro ⟨each, fits⟩
      have resolved : ∀ k ∈ tx.inputKeys, (res k).isSome ∨ o.referenced g chunk k = some 0 := by
        intro k input
        rcases each k input with stored | retained | zero
        · exact Or.inl ((resolves k input).mpr (Or.inl stored))
        · exact Or.inl ((resolves k input).mpr (Or.inr retained))
        · exact Or.inr zero
      have sum := eq.mpr fun k input => (resolved k input).imp_right fun zero => by rw [zero]; rfl
      refine ⟨fun k input => ?_, _, node, rfl, ?_, toNat_saturatingSub ..⟩
      · rcases resolved k input with hit | zero
        · obtain ⟨v, hit⟩ := Option.isSome_iff_exists.mp hit
          rw [amount k input v hit]
          rfl
        · rw [zero]
          rfl
      · rw [total, sum]
        exact Nat.mod_eq_of_lt fits

/-- A chunk that a batch commits: those before it succeed, and so does it. -/
structure Commits (o : IngestionOrchestrator) (blocks : List LocatedBlock)
    (start : World neo4j UtxoCache) (chunk : List LocatedBlock) (w w' : World neo4j UtxoCache) :
    Prop where
  before : ∃ pre rest stats, o.adaptiveChunks blocks = pre ++ chunk :: rest ∧
    (o.ingestChunks ⟨0, 0, 0, (o.adaptiveChunks blocks).length⟩ pre).run World.handle start =
      (.ok stats, w)
  committed : ∃ counts, (o.ingestChunk chunk).run World.handle w = (.ok counts, w')

/-- **Input values.** In every chunk that a batch over a coherent cache commits, a transaction has
its whole input value iff its inputs can be resolved from the database and from what the shards
retain of the chunk. -/
theorem batch_paid_iff {blocks : List LocatedBlock} (coherent : Coherent g c)
    {w w' : World neo4j UtxoCache} (commits : o.Commits blocks ⟨⟨g, none⟩, c⟩ chunk w w')
    {tx : Transaction} (standing : Standing chunk tx) :
    o.Paid w.store.committed chunk w'.store.committed tx ↔
      o.Resolvable w.store.committed c.cap chunk tx := by
  obtain ⟨⟨pre, rest, stats, _, before⟩, counts, committed⟩ := commits
  have start : w.store.active = none ∧ Amounts w.store.committed w.memory ∧
      w.memory.cap = c.cap := by
    refine run_ingestChunks_ok (S := fun w => w.store.active = none ∧
      Amounts w.store.committed w.memory ∧ w.memory.cap = c.cap) (fun chunk _ w counts w' inv ran =>
        ?_) ⟨rfl, coherent.amounts, rfl⟩ before
    obtain ⟨⟨g₁, active⟩, c₁⟩ := w
    obtain ⟨free, amounts, caps⟩ := inv
    dsimp only at free amounts caps
    subst free
    obtain ⟨free, amounts', caps'⟩ := Amounts.ingestChunk amounts ran
    exact ⟨free, amounts', caps'.trans caps⟩
  obtain ⟨⟨g₁, active⟩, c₁⟩ := w
  obtain ⟨free, amounts, caps⟩ := start
  dsimp only at free amounts caps
  subst free
  rw [← caps]
  exact paid_iff amounts committed standing

end IngestionOrchestrator

namespace Sample

/-- A block that spends an output of its own, after another output has come to the same shard. -/
def crowded : LocatedBlock := block 1 101 100
  [coinbase 2 50 burnScript, spend 3 ⟨1, 0⟩ 40 eaterScript, spend 19 ⟨3, 0⟩ 30 burnScript]

end Sample

/-- The only chunk of a batch. -/
theorem commits_single {o : IngestionOrchestrator} {blocks : List LocatedBlock}
    {start : World neo4j UtxoCache} (single : o.adaptiveChunks blocks = [blocks])
    (ok : ((o.ingestChunk blocks).run World.handle start).1.isOk) :
    o.Commits blocks start blocks start ((o.ingestChunk blocks).run World.handle start).2 where
  before := ⟨[], [], _, single, rfl⟩
  committed := Prog.run_eq_ok_of_isOk ok

/-- In shards with room for one output, the second output of a shard pushes the first out, and the
transaction that spends the first is written without its input. -/
theorem batch_not_paid :
    let o := Sample.orchestrator 1000000
    let blocks := [Sample.first, Sample.crowded]
    let tx := Sample.spend 19 ⟨3, 0⟩ 30 Sample.burnScript
    let start : World neo4j UtxoCache := ⟨⟨.empty, none⟩, .new 1⟩
    let r := (o.ingestBlocksBatch blocks).run World.handle start
    r.1.isOk ∧ tx ∈ txsOf blocks ∧ tx.isCoinbase = false ∧
      o.referenced .empty blocks ⟨3, 0⟩ = some 40 ∧
      (r.2.store.committed.transactions.get? 19).map (·.totalInput) = some 0 ∧
      ¬ o.Paid .empty blocks r.2.store.committed tx := by
  intro o blocks tx start r
  have node : (r.2.store.committed.transactions.get? 19).map (·.totalInput) = some 0 := by
    decide +kernel
  have last : tx ∈ txsOf blocks :=
    List.mem_flatMap.mpr ⟨Sample.crowded, .tail _ (.head _), .tail _ (.tail _ (.head _))⟩
  refine ⟨by decide +kernel, last, rfl, by decide +kernel, node, ?_⟩
  generalize r.2.store.committed = g' at node
  rintro ⟨_, n, mem, same, sum, _⟩
  change n.txid = 19 at same
  rw [Table.get?_eq_some.mpr ⟨mem, same⟩] at node
  have zero : n.totalInput = 0 := Option.some.inj node
  rw [zero] at sum
  exact absurd sum (by decide +kernel)

/-- The two blocks in one chunk, with room for an output in each shard. -/
theorem batch_paid_sample :
    let o := Sample.orchestrator 1000000
    let blocks := [Sample.first, Sample.second]
    o.Paid .empty blocks ((o.ingestChunk blocks).run World.handle
      ⟨⟨.empty, none⟩, .new 1⟩).2.store.committed (Sample.spend 4 ⟨3, 0⟩ 30 Sample.burnScript) := by
  intro o blocks
  have standing :
      IngestionOrchestrator.Standing blocks (Sample.spend 4 ⟨3, 0⟩ 30 Sample.burnScript) :=
    ⟨[_, _, _], [], rfl, by simp⟩
  refine (IngestionOrchestrator.batch_paid_iff (coherent_new .empty 1)
    (commits_single (by decide +kernel) (by decide +kernel)) standing).mpr ⟨?_, by decide +kernel⟩
  intro k input
  cases List.mem_singleton.mp input
  refine Or.inr (Or.inl ⟨.fromOutput o.crate ⟨40, Sample.eaterScript⟩ 3 0 o.network, ?_⟩)
  exact ⟨o.outputRows [Sample.first] ++ [.fromOutput o.crate ⟨50, Sample.burnScript⟩ 2 0 o.network],
    [.fromOutput o.crate ⟨30, Sample.burnScript⟩ 4 0 o.network], rfl, rfl, by decide,
    by decide +kernel⟩

end ChainGraph

import ChainGraph.Laws.Writer
import ChainGraph.Domain.Ingestion

/-!
# Looking outputs up in the cache and the database

A cache is coherent with a graph when every entry is the stored data of the output with its id.
Over a coherent cache both lookups of the orchestrator answer what the database alone would: the
prefetch of a chunk finds exactly the stored outputs among its keys, and the lookup with fallback
finds all of them or fails. Neither answer depends on what the cache holds, how large it is or
what it evicts on the way.
-/

namespace ChainGraph

open Foundation Foundation.Store

/-- Every entry is the stored data of the output with its id. -/
def Coherent (g : Graph) (c : UtxoCache) : Prop :=
  ∀ k v, c.peek k = some v → g.resolve k = some v

/-- A new cache is empty. -/
theorem UtxoCache.peek_new (capacity : ℕ) (k : UtxoKey) :
    (UtxoCache.new capacity).peek k = none :=
  Option.eq_none_iff_forall_ne_some.mpr fun _ hit => by
    cases (Lru.peek_eq_some (c := (UtxoCache.new capacity).shard k)).mp hit

theorem coherent_new (g : Graph) (capacity : ℕ) : Coherent g (.new capacity) := by
  intro k v h
  rw [UtxoCache.peek_new] at h
  cases h

/-- A cache that answers no more than a coherent one is coherent. -/
theorem Coherent.of_peek {g : Graph} {c c' : UtxoCache} (h : Coherent g c)
    (sub : ∀ k v, c'.peek k = some v → c.peek k = some v ∨ g.resolve k = some v) :
    Coherent g c' := by
  intro k v found
  rcases sub k v found with old | stored
  · exact h k v old
  · exact stored

/-- Resolution depends on outputs and locks alone. -/
theorem resolve_congr {g g' : Graph} (outputs : g'.outputs = g.outputs)
    (lockedTo : g'.lockedTo = g.lockedTo) : g'.resolve = g.resolve := by
  funext id
  unfold Graph.resolve Graph.lookupOutput Graph.lockedAddresses
  rw [outputs, lockedTo]

theorem Coherent.congr {g g' : Graph} {c : UtxoCache} (coherent : Coherent g c)
    (outputs : g'.outputs = g.outputs) (lockedTo : g'.lockedTo = g.lockedTo) : Coherent g' c := by
  intro k v present
  rw [resolve_congr outputs lockedTo]
  exact coherent k v present

/-- The cache is right about the outputs that are stored. -/
def UpToDate (g : Graph) (c : UtxoCache) : Prop :=
  ∀ k v, c.peek k = some v → g.outputs.Has k → g.resolve k = some v

theorem Coherent.upToDate {g : Graph} {c : UtxoCache} (h : Coherent g c) : UpToDate g c :=
  fun k v present _ => h k v present

theorem UpToDate.congr {g g' : Graph} {c : UtxoCache} (h : UpToDate g c)
    (outputs : g'.outputs = g.outputs) (lockedTo : g'.lockedTo = g.lockedTo) : UpToDate g' c := by
  intro k v present has
  rw [resolve_congr outputs lockedTo]
  exact h k v present (outputs ▸ has)

theorem cap_populateCache {rows : List OutputData} {c : UtxoCache} (s : Fin numShards) :
    (populateCache rows c).cap s = c.cap s := by
  unfold populateCache
  induction rows generalizing c with
  | nil => rfl
  | cons row rows ih => exact (ih (c := c.insert _ _)).trans (UtxoCache.cap_insert s)

/-! ## Rows of the output lookup -/

theorem outputId_of_mem_lookupOutput {g : Graph} {id : OutputId} {r : OutputLookupResult}
    (h : r ∈ g.lookupOutput id) : r.outputId = id := by
  unfold Graph.lookupOutput at h
  cases found : g.outputs.get? id with
  | none =>
    rw [found] at h
    cases h
  | some o =>
    rw [found] at h
    obtain ⟨address, _, rfl⟩ := List.mem_map.mp h
    exact (Table.get?_eq_some.mp found).2

theorem lookupOutput_ne_nil {g : Graph} {id : OutputId} (h : g.outputs.Has id) :
    g.lookupOutput id ≠ [] := by
  unfold Graph.lookupOutput
  cases found : g.outputs.get? id with
  | none => exact absurd h (Table.get?_eq_none.mp found)
  | some o =>
    unfold Graph.lockedAddresses
    cases listing ((g.lockedTo.filter (·.1 = id)).map (·.2)) <;> simp

/-- An output resolves iff it is stored. -/
theorem resolve_isSome {g : Graph} {id : OutputId} :
    (g.resolve id).isSome ↔ g.outputs.Has id := by
  unfold Graph.resolve
  rw [Option.isSome_map, List.getLast?_isSome]
  constructor
  · intro nonempty
    by_contra absent
    apply nonempty
    unfold Graph.lookupOutput
    rw [Table.get?_eq_none.mpr absent]
  · exact lookupOutput_ne_nil

theorem resultMap_append (rows rows' : List OutputLookupResult) (id : OutputId) :
    resultMap (rows ++ rows') id = (resultMap rows' id).or (resultMap rows id) := by
  unfold resultMap
  rw [List.filter_append, List.getLast?_append]

theorem resultMap_lookupOutput (g : Graph) (id id' : OutputId) :
    resultMap (g.lookupOutput id') id =
      if id = id' then (g.lookupOutput id).getLast? else none := by
  unfold resultMap
  split
  · rename_i same
    subst same
    rw [List.filter_eq_self.mpr]
    intro r hr
    simpa using outputId_of_mem_lookupOutput hr
  · rename_i other
    rw [List.filter_eq_nil_iff.mpr, List.getLast?_nil]
    intro r hr
    simpa [outputId_of_mem_lookupOutput hr] using Ne.symm other

/-- The map collected from a lookup has, for each requested id, what the database resolves. -/
theorem resultMap_lookup (g : Graph) (ids : List OutputId) (id : OutputId) :
    (resultMap (g.lookupOutputsBatch ids) id).map CachedOutput.ofLookup =
      if id ∈ ids then g.resolve id else none := by
  have rows : resultMap (g.lookupOutputsBatch ids) id =
      if id ∈ ids then (g.lookupOutput id).getLast? else none := by
    induction ids with
    | nil => rfl
    | cons id' ids ih =>
      unfold Graph.lookupOutputsBatch at ih ⊢
      rw [List.flatMap_cons, resultMap_append, ih, resultMap_lookupOutput]
      by_cases same : id = id'
      · subst same
        by_cases rest : id ∈ ids <;> simp [rest]
      · by_cases rest : id ∈ ids <;> simp [rest, same]
  rw [rows]
  split <;> rfl

/-! ## Absorbing the rows -/

/-- The state of the absorbing loop after the keys `done`, where `hit` is what the rows answer. -/
structure Absorbed (hit : Found) (c : UtxoCache) (found : Found) (done : List UtxoKey)
    (acc : UtxoCache × Found × List UtxoKey) : Prop where
  cap : ∀ s, acc.1.cap s = c.cap s
  peek : ∀ k v, acc.1.peek k = some v → c.peek k = some v ∨ k ∈ done ∧ hit k = some v
  found : ∀ k, acc.2.1 k = if k ∈ done then (hit k).or (found k) else found k
  missing : acc.2.2 = done.filter fun k => (hit k).isNone

section Absorb

variable {results : List OutputLookupResult} {hit found : Found} {c : UtxoCache}
  {done : List UtxoKey} {acc : UtxoCache × Found × List UtxoKey}

theorem Absorbed.step (hits : ∀ k, (resultMap results k).map .ofLookup = hit k)
    (h : Absorbed hit c found done acc) (key : UtxoKey) :
    Absorbed hit c found (done ++ [key]) (absorbStep results acc key) := by
  have answer := hits key
  unfold absorbStep UtxoKey.toOutputId
  cases look : resultMap results key with
  | some row =>
    have found_hit : hit key = some (.ofLookup row) := by rw [← answer, look, Option.map_some]
    refine ⟨fun s => (UtxoCache.cap_insert s).trans (h.cap s), fun k v present => ?_,
      fun k => ?_, ?_⟩
    · rcases UtxoCache.peek_insert present with ⟨rfl, rfl⟩ | ⟨_, old⟩
      · exact Or.inr ⟨by simp, found_hit⟩
      · rcases h.peek k v old with before | ⟨mem, stored⟩
        · exact Or.inl before
        · exact Or.inr ⟨List.mem_append_left _ mem, stored⟩
    · show Function.update acc.2.1 key _ k = _
      by_cases same : k = key
      · subst same
        rw [Function.update_self, if_pos (by simp), found_hit, Option.some_or]
      · rw [Function.update_of_ne same, h.found k]
        simp [same]
    · rw [h.missing, List.filter_append]
      simp [found_hit]
  | none =>
    have no_hit : hit key = none := by rw [← answer, look, Option.map_none]
    refine ⟨h.cap, fun k v present => ?_, fun k => ?_, ?_⟩
    · rcases h.peek k v present with before | ⟨mem, stored⟩
      · exact Or.inl before
      · exact Or.inr ⟨List.mem_append_left _ mem, stored⟩
    · show acc.2.1 k = _
      rw [h.found k]
      by_cases same : k = key
      · subst same
        simp [no_hit]
      · simp [same]
    · rw [h.missing, List.filter_append]
      simp [no_hit]

theorem absorbed_foldl (hits : ∀ k, (resultMap results k).map .ofLookup = hit k)
    (keys : List UtxoKey) (h : Absorbed hit c found done acc) :
    Absorbed hit c found (done ++ keys) (keys.foldl (absorbStep results) acc) := by
  induction keys generalizing done acc with
  | nil => simpa using h
  | cons key keys ih => simpa using ih (h.step hits key)

theorem absorbed_absorbResults (hits : ∀ k, (resultMap results k).map .ofLookup = hit k)
    (misses : List UtxoKey) :
    Absorbed hit c found misses (absorbResults results c found misses) := by
  have start : Absorbed hit c found [] (c, found, []) :=
    ⟨fun _ => rfl, fun _ _ present => Or.inl present, fun k => by simp, rfl⟩
  exact absorbed_foldl hits misses start

end Absorb

/-! ## The two lookups -/

/-- What a lookup of some keys finds in the database. -/
def storedAmong (g : Graph) (keys : List UtxoKey) : Found :=
  fun k => if k ∈ keys then g.resolve k else none

/-- The answer of a lookup over cache and database, when every value either holds is `R` for its
key: so is every value found and every value then cached, and a key is found iff it was asked for
and one of the two has it. -/
structure Answered (R : UtxoKey → CachedOutput → Prop) (g : Graph) (c : UtxoCache)
    (keys : List UtxoKey) (found : Found) (c' : UtxoCache) : Prop where
  cap : ∀ s, c'.cap s = c.cap s
  cache : ∀ k v, c'.peek k = some v → R k v
  values : ∀ k v, found k = some v → R k v
  isSome : ∀ k, (found k).isSome ↔ k ∈ keys ∧ ((c.peek k).isSome ∨ g.outputs.Has k)

section Answered

variable {R : UtxoKey → CachedOutput → Prop} {g : Graph} {c : UtxoCache} {keys : List UtxoKey}
  {looked : UtxoCache × Found × List UtxoKey}

/-- What a lookup over cache and database finds: the cached value of a key, else the stored one. -/
def resolvedAmong (g : Graph) (c : UtxoCache) (keys : List UtxoKey) : Found :=
  fun k => if k ∈ keys then (c.peek k).or (g.resolve k) else none

/-- The misses of a batched lookup. -/
theorem mem_misses (first : UtxoCache.LookedUp c (UtxoCache.byShard keys) looked) {k : UtxoKey} :
    k ∈ looked.2.2 ↔ k ∈ keys ∧ c.peek k = none := by
  rw [first.misses, List.mem_filter, UtxoCache.mem_byShard, Option.isNone_iff_eq_none]

/-- The rows of the missed keys complete the answer, and what the cache gains is stored. -/
theorem resolved_lookup (first : UtxoCache.LookedUp c (UtxoCache.byShard keys) looked) :
    let rows := g.lookupOutputsBatch (looked.2.2.map UtxoKey.toOutputId)
    let absorbed := absorbResults rows looked.1 looked.2.1 looked.2.2
    (∀ s, absorbed.1.cap s = c.cap s) ∧ absorbed.2.1 = resolvedAmong g c keys ∧
      (∀ k v, absorbed.1.peek k = some v → c.peek k = some v ∨ g.resolve k = some v) ∧
      (absorbed.2.2.isEmpty ↔ ∀ k ∈ keys, (c.peek k).isSome ∨ g.outputs.Has k) := by
  intro rows absorbed
  have ids : looked.2.2.map UtxoKey.toOutputId = looked.2.2 := List.map_id _
  have second : Absorbed _ looked.1 looked.2.1 looked.2.2 absorbed :=
    absorbed_absorbResults (resultMap_lookup g _) looked.2.2
  rw [ids] at second
  have missed : ∀ k, k ∈ looked.2.2 ↔ k ∈ keys ∧ c.peek k = none := fun k => mem_misses first
  refine ⟨fun s => (second.cap s).trans (first.cap s), funext fun k => ?_,
    fun k v present => ?_, ?_⟩
  · rw [second.found k, first.found k]
    unfold resolvedAmong
    simp only [UtxoCache.mem_byShard, missed]
    by_cases asked : k ∈ keys
    · cases hit : c.peek k with
      | none => simp [asked]
      | some v => simp [asked]
    · simp [asked]
  · rcases second.peek k v present with before | ⟨mem, hit⟩
    · exact Or.inl ((first.peek k).symm.trans before)
    · rw [if_pos mem] at hit
      exact Or.inr hit
  · rw [List.isEmpty_iff, second.missing, List.filter_eq_nil_iff]
    constructor
    · intro noneMissing k asked
      rw [← resolve_isSome]
      cases hit : c.peek k with
      | none =>
        have mem := (missed k).mpr ⟨asked, hit⟩
        have := noneMissing k mem
        rw [if_pos mem] at this
        exact Or.inr (by simpa [Option.isSome_iff_ne_none] using this)
      | some v => exact Or.inl rfl
    · intro all k mem
      obtain ⟨asked, miss⟩ := (missed k).mp mem
      rw [if_pos mem]
      rcases all k asked with hit | has
      · rw [miss] at hit
        cases hit
      · have some := resolve_isSome.mpr has
        simpa [Option.isSome_iff_ne_none] using some

/-- Looking up what the cache misses completes its answer. -/
theorem answered_lookup (cached : ∀ k v, c.peek k = some v → R k v)
    (stored : ∀ k v, g.resolve k = some v → R k v)
    (first : UtxoCache.LookedUp c (UtxoCache.byShard keys) looked) :
    let rows := g.lookupOutputsBatch (looked.2.2.map UtxoKey.toOutputId)
    let absorbed := absorbResults rows looked.1 looked.2.1 looked.2.2
    Answered R g c keys absorbed.2.1 absorbed.1 ∧
      (absorbed.2.2.isEmpty ↔ ∀ k ∈ keys, (c.peek k).isSome ∨ g.outputs.Has k) := by
  intro rows absorbed
  obtain ⟨cap, found, gained, complete⟩ := resolved_lookup (g := g) first
  refine ⟨⟨cap, fun k v present => ?_, fun k v present => ?_, fun k => ?_⟩, complete⟩
  · rcases gained k v present with before | hit
    · exact cached k v before
    · exact stored k v hit
  · rw [found] at present
    unfold resolvedAmong at present
    split at present
    · rcases Option.or_eq_some_iff.mp present with hit | ⟨_, hit⟩
      · exact cached k v hit
      · exact stored k v hit
    · cases present
  · rw [found, ← resolve_isSome]
    unfold resolvedAmong
    by_cases asked : k ∈ keys <;> simp [asked]

/-- When the cache misses nothing, its answer is complete. -/
theorem answered_of_no_miss (cached : ∀ k v, c.peek k = some v → R k v)
    (first : UtxoCache.LookedUp c (UtxoCache.byShard keys) looked) (none : looked.2.2.isEmpty) :
    Answered R g c keys looked.2.1 looked.1 ∧ ∀ k ∈ keys, (c.peek k).isSome := by
  have hits : ∀ k ∈ keys, (c.peek k).isSome := fun k asked => by
    rw [List.isEmpty_iff, first.misses, List.filter_eq_nil_iff] at none
    have := none k (UtxoCache.mem_byShard.mpr asked)
    simpa [Option.isSome_iff_ne_none] using this
  refine ⟨⟨first.cap, fun k v present => ?_, fun k v present => ?_, fun k => ?_⟩, hits⟩
  · exact cached k v ((first.peek k).symm.trans present)
  · rw [first.found k] at present
    split at present
    · exact cached k v present
    · cases present
  · rw [first.found k]
    simp only [UtxoCache.mem_byShard]
    by_cases asked : k ∈ keys
    · simp [asked, hits k asked]
    · simp [asked]

/-- Over a coherent cache the answer is that of the database. -/
theorem Answered.eq_storedAmong {found : Found} {c' : UtxoCache}
    (h : Answered (fun k v => g.resolve k = some v) g c keys found c') :
    found = storedAmong g keys := by
  funext k
  unfold storedAmong
  cases answer : found k with
  | some v =>
    have asked := ((h.isSome k).mp (by rw [answer, Option.isSome_some])).1
    rw [if_pos asked, h.values k v answer]
  | none =>
    by_cases asked : k ∈ keys
    · rw [if_pos asked]
      cases stored : g.resolve k with
      | none => rfl
      | some v =>
        have has := resolve_isSome.mp (by rw [stored, Option.isSome_some] : (g.resolve k).isSome)
        have some := (h.isSome k).mpr ⟨asked, Or.inr has⟩
        rw [answer] at some
        cases some
    · rw [if_neg asked]

/-- What a coherent cache has is stored. -/
theorem Coherent.has (coherent : Coherent g c) {k : UtxoKey} (hit : (c.peek k).isSome) :
    g.outputs.Has k := by
  obtain ⟨v, present⟩ := Option.isSome_iff_exists.mp hit
  rw [← resolve_isSome, coherent k v present, Option.isSome_some]

end Answered

section Run

variable {w : World neo4j UtxoCache}

/-- A writer method acts on the store and leaves the cache alone. -/
theorem run_io {α : Type} (p : Io α) (w : World neo4j UtxoCache) :
    (io p).run World.handle w =
      ((p.run handle w.store).1, { w with store := (p.run handle w.store).2 }) :=
  World.run_lift p w

theorem run_io_eq {α : Type} {p : Io α} {s s' : Store neo4j} {r : Except WriterError α}
    {c : UtxoCache} (h : p.run handle s = (r, s')) :
    (io p).run World.handle ⟨s, c⟩ = (r, ⟨s', c⟩) := by
  rw [run_io, h]

@[simp] theorem run_getCache (w : World neo4j UtxoCache) :
    getCache.run World.handle w = (.ok w.memory, w) := rfl

@[simp] theorem run_setCache (c : UtxoCache) (w : World neo4j UtxoCache) :
    (setCache c).run World.handle w = (.ok (), { w with memory := c }) := rfl

@[simp] theorem run_modifyCache (f : UtxoCache → UtxoCache) (w : World neo4j UtxoCache) :
    (modifyCache f).run World.handle w = (.ok (), { w with memory := f w.memory }) := rfl

end Run

namespace IngestionOrchestrator

variable {g : Graph} {active : Option Graph} {c : UtxoCache} {keys : List UtxoKey}

/-- Prefetching never fails and leaves the store as it is. -/
theorem run_prefetchUtxos_total (g : Graph) (active : Option Graph) (c : UtxoCache)
    (keys : List UtxoKey) :
    ∃ found c', (prefetchUtxos keys).run World.handle ⟨⟨g, active⟩, c⟩ =
      (.ok found, ⟨⟨g, active⟩, c'⟩) := by
  unfold prefetchUtxos
  split
  · exact ⟨_, _, rfl⟩
  · rw [Prog.run_bind_ok (run_getCache _), Prog.run_bind_ok (run_setCache ..)]
    split
    · exact ⟨_, _, rfl⟩
    · rw [Prog.run_bind, run_io, Neo4jWriter.run_lookupOutputsBatch]
      exact ⟨_, _, rfl⟩

/-- The lookup with fallback leaves the store as it is. -/
theorem run_getManyWithFallback_total (g : Graph) (active : Option Graph) (c : UtxoCache)
    (keys : List UtxoKey) :
    ∃ r c', (getManyWithFallback keys).run World.handle ⟨⟨g, active⟩, c⟩ =
      (r, ⟨⟨g, active⟩, c'⟩) := by
  unfold getManyWithFallback
  rw [Prog.run_bind_ok (run_getCache _), Prog.run_bind_ok (run_setCache ..)]
  split
  · exact ⟨_, _, rfl⟩
  · rw [Prog.run_bind_ok (run_setCache ..), Prog.run_bind, run_io,
      Neo4jWriter.run_lookupOutputsBatch]
    dsimp only
    rw [Prog.run_bind_ok (run_setCache ..)]
    split
    · exact ⟨_, _, rfl⟩
    · exact ⟨_, _, rfl⟩

variable (active keys) in
/-- **Prefetch.** It never fails, and answers from cache and database. -/
theorem run_prefetchUtxos {R : UtxoKey → CachedOutput → Prop}
    (cached : ∀ k v, c.peek k = some v → R k v) (stored : ∀ k v, g.resolve k = some v → R k v) :
    ∃ found c', Answered R g c keys found c' ∧
      (prefetchUtxos keys).run World.handle ⟨⟨g, active⟩, c⟩ =
        (.ok found, ⟨⟨g, active⟩, c'⟩) := by
  have first := UtxoCache.lookedUp_getMany c keys
  unfold prefetchUtxos
  cases empty : keys.isEmpty with
  | true =>
    have nobody : Answered R g c keys (fun _ => none) c := by
      refine ⟨fun _ => rfl, cached, fun k v present => (nomatch present), fun k => ?_⟩
      simp [List.isEmpty_iff.mp empty]
    exact ⟨_, c, nobody, rfl⟩
  | false =>
    simp only [Bool.false_eq_true, if_false]
    rw [Prog.run_bind_ok (run_getCache _), Prog.run_bind_ok (run_setCache ..)]
    cases none : (c.getMany keys).2.2.isEmpty with
    | true =>
      simp only [if_true]
      exact ⟨_, _, (answered_of_no_miss cached first none).1, rfl⟩
    | false =>
      obtain ⟨answered, _⟩ := answered_lookup cached stored first
      simp only [Bool.false_eq_true, if_false]
      rw [Prog.run_bind, run_io, Neo4jWriter.run_lookupOutputsBatch]
      dsimp only
      refine ⟨_, _, ⟨?_, ?_, answered.values, answered.isSome⟩, Prog.run_bind_ok (run_setCache ..)⟩
      · intro s
        split <;> exact answered.cap s
      · intro k v present
        split at present <;> exact answered.cache k v present

variable (active keys) in
/-- **Lookup with fallback.** It succeeds iff every key is cached or stored, and answers from
both. -/
theorem run_getManyWithFallback {R : UtxoKey → CachedOutput → Prop}
    (cached : ∀ k v, c.peek k = some v → R k v) (stored : ∀ k v, g.resolve k = some v → R k v) :
    ∃ r found c', Answered R g c keys found c' ∧
      (getManyWithFallback keys).run World.handle ⟨⟨g, active⟩, c⟩ = (r, ⟨⟨g, active⟩, c'⟩) ∧
      ((∀ k ∈ keys, (c.peek k).isSome ∨ g.outputs.Has k) → r = .ok found) ∧
      ((¬ ∀ k ∈ keys, (c.peek k).isSome ∨ g.outputs.Has k) → ∃ e, r = .error e) := by
  have first := UtxoCache.lookedUp_getMany c keys
  unfold getManyWithFallback
  rw [Prog.run_bind_ok (run_getCache _), Prog.run_bind_ok (run_setCache ..)]
  cases none : (c.getMany keys).2.2.isEmpty with
  | true =>
    obtain ⟨answered, hits⟩ := answered_of_no_miss (g := g) cached first none
    simp only [if_true]
    exact ⟨_, _, _, answered, rfl, fun _ => rfl,
      fun some => absurd (fun k asked => Or.inl (hits k asked)) some⟩
  | false =>
    have counted : UtxoCache.LookedUp c (UtxoCache.byShard keys)
        ((c.getMany keys).1.recordNeo4jFallback, (c.getMany keys).2.1, (c.getMany keys).2.2) :=
      ⟨first.cap, first.peek, first.found, first.misses⟩
    obtain ⟨answered, all⟩ := answered_lookup cached stored counted
    dsimp only at answered all
    simp only [Bool.false_eq_true, if_false]
    rw [Prog.run_bind_ok (run_setCache ..), Prog.run_bind, run_io,
      Neo4jWriter.run_lookupOutputsBatch]
    dsimp only
    rw [Prog.run_bind_ok (run_setCache ..)]
    by_cases complete : ∀ k ∈ keys, (c.peek k).isSome ∨ g.outputs.Has k
    · rw [if_pos (all.mpr complete)]
      exact ⟨_, _, _, answered, rfl, fun _ => rfl, fun some => absurd complete some⟩
    · rw [if_neg fun empty => complete (all.mp empty)]
      exact ⟨_, _, _, answered, rfl, fun all => absurd all complete, fun _ => ⟨_, rfl⟩⟩

variable (g active c keys) in
/-- **Lookup with fallback, over any cache.** It answers iff every key is cached or stored, and then
each key with its cached value, or else its stored one; what the cache gains is stored. -/
theorem getManyWithFallback_exact :
    ∃ r c', (getManyWithFallback keys).run World.handle ⟨⟨g, active⟩, c⟩ =
        (r, ⟨⟨g, active⟩, c'⟩) ∧
      ((∃ found, r = .ok found) ↔ ∀ k ∈ keys, (c.peek k).isSome ∨ g.outputs.Has k) ∧
      (∀ found, r = .ok found → (∀ k, (found k).isSome ↔ k ∈ keys) ∧
        ∀ k ∈ keys, found k = (c.peek k).or (g.resolve k)) ∧
      ∀ k v, c'.peek k = some v → c.peek k = some v ∨ g.resolve k = some v := by
  have first := UtxoCache.lookedUp_getMany c keys
  have exactly : ∀ {found : Found}, found = resolvedAmong g c keys →
      (∀ k ∈ keys, (c.peek k).isSome ∨ g.outputs.Has k) →
        (∀ k, (found k).isSome ↔ k ∈ keys) ∧
          ∀ k ∈ keys, found k = (c.peek k).or (g.resolve k) := by
    rintro _ rfl all
    refine ⟨fun k => ?_, fun k asked => if_pos asked⟩
    unfold resolvedAmong
    by_cases asked : k ∈ keys
    · have some := all k asked
      rw [← resolve_isSome] at some
      rw [if_pos asked, Option.isSome_or, Bool.or_eq_true]
      exact iff_of_true some asked
    · simp [asked]
  unfold getManyWithFallback
  rw [Prog.run_bind_ok (run_getCache _), Prog.run_bind_ok (run_setCache ..)]
  cases none : (c.getMany keys).2.2.isEmpty with
  | true =>
    obtain ⟨_, hits⟩ := answered_of_no_miss (R := fun _ _ => True) (g := g)
      (fun _ _ _ => trivial) first none
    have all : ∀ k ∈ keys, (c.peek k).isSome ∨ g.outputs.Has k := fun k asked =>
      Or.inl (hits k asked)
    have found : (c.getMany keys).2.1 = resolvedAmong g c keys := by
      funext k
      rw [first.found k]
      unfold resolvedAmong
      simp only [UtxoCache.mem_byShard]
      by_cases asked : k ∈ keys
      · obtain ⟨v, hit⟩ := Option.isSome_iff_exists.mp (hits k asked)
        simp [asked, hit]
      · simp [asked]
    simp only [if_true]
    refine ⟨_, _, rfl, iff_of_true ⟨_, rfl⟩ all, fun answer same => ?_, fun k v present => ?_⟩
    · cases same
      exact exactly found all
    · exact Or.inl ((first.peek k).symm.trans present)
  | false =>
    have counted : UtxoCache.LookedUp c (UtxoCache.byShard keys)
        ((c.getMany keys).1.recordNeo4jFallback, (c.getMany keys).2.1, (c.getMany keys).2.2) :=
      ⟨first.cap, first.peek, first.found, first.misses⟩
    obtain ⟨_, found, gained, complete⟩ := resolved_lookup (g := g) counted
    dsimp only at found gained complete
    simp only [Bool.false_eq_true, if_false]
    rw [Prog.run_bind_ok (run_setCache ..), Prog.run_bind, run_io,
      Neo4jWriter.run_lookupOutputsBatch]
    dsimp only
    rw [Prog.run_bind_ok (run_setCache ..)]
    by_cases all : ∀ k ∈ keys, (c.peek k).isSome ∨ g.outputs.Has k
    · rw [if_pos (complete.mpr all)]
      refine ⟨_, _, rfl, iff_of_true ⟨_, rfl⟩ all, fun answer same => ?_, gained⟩
      cases same
      exact exactly found all
    · rw [if_neg fun empty => all (complete.mp empty)]
      refine ⟨_, _, rfl, iff_of_false ?_ all, ?_, gained⟩
      · rintro ⟨answer, same⟩
        cases same
      · intro answer same
        cases same

end IngestionOrchestrator

end ChainGraph

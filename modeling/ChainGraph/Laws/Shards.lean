import Mathlib.Algebra.Order.BigOperators.Group.List
import ChainGraph.Domain.Snapshot
import ChainGraph.Laws.Lookup

/-!
# The shards of the cache

What every operation on the cache does to its shards: their capacities stay, and an entry of a
shard was there before or is a new one, stored under a key of that shard. From it the invariant of
the whole cache, over any sequence of operations: a key is stored at most once, and only in its own
shard, and no shard holds more than it has room for.

The shards hold at least one entry each, so a cache for fewer than sixteen entries holds more than
it was asked for.
-/

namespace ChainGraph

open Foundation

namespace UtxoCache

variable {P Q : Entry → Prop} {c c' c'' : UtxoCache} {key : UtxoKey}

/-- The cache `c'` has the capacities of `c`, and its shards hold entries of `c` and new ones in
`P`, each at home. -/
structure Stems (P : Entry → Prop) (c c' : UtxoCache) : Prop where
  cap : ∀ s, c'.cap s = c.cap s
  entries : ∀ s, ∀ e ∈ (c'.shards s).entries,
    e ∈ (c.shards s).entries ∨ shardIndex e.1 = s ∧ P e

namespace Stems

theorem refl (P : Entry → Prop) (c : UtxoCache) : Stems P c c :=
  ⟨fun _ => rfl, fun _ _ mem => Or.inl mem⟩

theorem trans (first : Stems P c c') (rest : Stems P c' c'') : Stems P c c'' := by
  refine ⟨fun s => (rest.cap s).trans (first.cap s), fun s e mem => ?_⟩
  rcases rest.entries s e mem with old | new
  · exact first.entries s e old
  · exact Or.inr new

theorem withStats (h : Stems P c c') (stats : UtxoCacheStats) :
    Stems P c { c' with stats := stats } :=
  ⟨h.cap, h.entries⟩

/-- Only the shard of a key is replaced. -/
theorem setShard {l : Lru UtxoKey CachedOutput} (same : l.cap = (c.shard key).cap)
    (old : ∀ e ∈ l.entries, e ∈ (c.shard key).entries ∨ shardIndex e.1 = shardIndex key ∧ P e) :
    Stems P c (c.setShard key l) := by
  refine ⟨cap_setShard same, fun s e mem => ?_⟩
  change e ∈ (Function.update c.shards (shardIndex key) l s).entries at mem
  by_cases home : s = shardIndex key
  · subst home
    rw [Function.update_self] at mem
    exact old e mem
  · rw [Function.update_of_ne home] at mem
    exact Or.inl mem

theorem touch (c : UtxoCache) (key : UtxoKey) :
    Stems P c (c.setShard key ((c.shard key).touch key)) :=
  setShard (Lru.cap_touch ..) fun _ mem => Or.inl (Lru.mem_touch.mp mem)

/-- A list of steps, each of which stems. -/
theorem foldl {α : Type} {f : UtxoCache → α → UtxoCache} {l : List α}
    (each : ∀ c, ∀ a ∈ l, Stems P c (f c a)) (c : UtxoCache) : Stems P c (l.foldl f c) := by
  induction l generalizing c with
  | nil => exact refl P c
  | cons a l ih =>
    have first := each c a List.mem_cons_self
    exact first.trans (ih (fun c b mem => each c b (List.mem_cons_of_mem a mem)) (f c a))

end Stems

/-! ## One operation -/

theorem stems_insert (c : UtxoCache) {output : CachedOutput} (new : P (key, output)) :
    Stems P c (c.insert key output) := by
  refine (Stems.setShard (Lru.cap_put ..) fun e mem => ?_).withStats _
  rcases Lru.mem_put mem with rfl | ⟨old, _⟩
  · exact Or.inr ⟨rfl, new⟩
  · exact Or.inl old

theorem stems_get (c : UtxoCache) (key : UtxoKey) : Stems P c (c.get key).2 := by
  unfold UtxoCache.get
  split
  · exact (Stems.touch c key).withStats _
  · exact (Stems.refl P c).withStats _

theorem stems_getQuiet (c : UtxoCache) (key : UtxoKey) : Stems P c (c.getQuiet key).2 := by
  unfold getQuiet
  split
  · exact Stems.touch c key
  · exact Stems.refl P c

theorem stems_remove (c : UtxoCache) (key : UtxoKey) : Stems P c (c.remove key).2 := by
  unfold remove
  split
  · refine (Stems.setShard (Lru.cap_pop ..) fun e mem => Or.inl ?_).withStats _
    exact (Lru.mem_pop.mp mem).1
  · exact Stems.refl P c

theorem stems_lookupStep (acc : UtxoCache × Found × List UtxoKey) (key : UtxoKey) :
    Stems P acc.1 (lookupStep acc key).1 := by
  have after := stems_get (P := P) acc.1 key
  unfold lookupStep
  split
  · rename_i look
    rwa [look] at after
  · rename_i look
    rwa [look] at after

theorem stems_getMany (c : UtxoCache) (keys : List UtxoKey) : Stems P c (c.getMany keys).1 := by
  have steps : ∀ (l : List UtxoKey) (acc : UtxoCache × Found × List UtxoKey),
      Stems P acc.1 (l.foldl lookupStep acc).1 := by
    intro l
    induction l with
    | nil =>
      intro acc
      exact Stems.refl P acc.1
    | cons key l ih =>
      intro acc
      exact (stems_lookupStep acc key).trans (ih (lookupStep acc key))
  exact steps (byShard keys) (c, fun _ => none, [])

theorem stems_removeMany (c : UtxoCache) (keys : List UtxoKey) : Stems P c (c.removeMany keys) :=
  Stems.foldl (fun c key _ => stems_remove c key) c

theorem stems_insertPrewarm (c : UtxoCache) {output : CachedOutput} (new : P (key, output)) :
    Stems P c (c.insertPrewarm key output).2 := by
  unfold insertPrewarm
  split
  · exact Stems.refl P c
  · exact stems_insert c new

theorem mem_perShard {entries : List Entry} {s : Fin numShards} {e : Entry} :
    e ∈ perShard entries s ↔ e ∈ entries ∧ shardIndex e.1 = s := by
  unfold perShard
  rw [List.mem_filter, decide_eq_true_eq]

theorem stems_insertAll (c : UtxoCache) {entries : List Entry} (new : ∀ e ∈ entries, P e) :
    Stems P c (c.insertAll entries) := by
  refine ⟨fun s => Lru.cap_puts .., fun s e mem => ?_⟩
  rcases Lru.mem_puts mem with stored | ⟨old, _⟩
  · obtain ⟨inside, home⟩ := mem_perShard.mp (List.mem_reverse.mp stored)
    exact Or.inr ⟨home, new e inside⟩
  · exact Or.inl old

/-- A load stores what it decoded, or nothing. -/
theorem stems_loadFromFile {crc32 : List UInt8 → UInt32} (c : UtxoCache)
    {file : Option (List UInt8)}
    (new : ∀ bytes entries, decode crc32 bytes = .ok entries → ∀ e ∈ entries, P e) :
    Stems P c (c.loadFromFile crc32 file).2 := by
  unfold loadFromFile
  split
  · exact Stems.refl P c
  · split
    · exact Stems.refl P c
    · rename_i read
      exact stems_insertAll c (new _ _ read)

/-! ## A lookup with fallback -/

theorem stems_absorbResults (results : List OutputLookupResult) (c : UtxoCache) (found : Found)
    (misses : List UtxoKey) : Stems (fun _ => True) c (absorbResults results c found misses).1 := by
  have steps : ∀ (l : List UtxoKey) (acc : UtxoCache × Found × List UtxoKey),
      Stems (fun _ => True) acc.1 (l.foldl (absorbStep results) acc).1 := by
    intro l
    induction l with
    | nil =>
      intro acc
      exact Stems.refl _ acc.1
    | cons key l ih =>
      intro acc
      have first : Stems (fun _ => True) acc.1 (absorbStep results acc key).1 := by
        unfold absorbStep
        split
        · exact stems_insert acc.1 trivial
        · exact Stems.refl _ acc.1
      exact first.trans (ih (absorbStep results acc key))
  exact steps misses (c, found, [])

/-- The cache after a lookup with fallback, when the writer answers the query for the missed keys
with these rows or an error. -/
def afterFallback (c : UtxoCache) (keys : List UtxoKey)
    (answer : Except WriterError (List OutputLookupResult)) : UtxoCache :=
  let (cache, found, misses) := c.getMany keys
  if misses.isEmpty then cache
  else
    match answer with
    | .error _ => cache.recordNeo4jFallback
    | .ok rows => (absorbResults rows cache.recordNeo4jFallback found misses).1

open IngestionOrchestrator in
/-- The orchestrator's lookup leaves this cache, the graph answering. -/
theorem memory_getManyWithFallback (s : Store neo4j) (c : UtxoCache) (keys : List UtxoKey) :
    ((getManyWithFallback keys).run World.handle ⟨s, c⟩).2.memory = c.afterFallback keys
      (.ok (s.committed.lookupOutputsBatch ((c.getMany keys).2.2.map UtxoKey.toOutputId))) := by
  unfold getManyWithFallback afterFallback
  rw [Prog.run_bind_ok (run_getCache _), Prog.run_bind_ok (run_setCache ..)]
  by_cases none : (c.getMany keys).2.2.isEmpty
  · simp only [none, if_true]
    rfl
  · simp only [none, Bool.false_eq_true, if_false]
    rw [Prog.run_bind_ok (run_setCache ..), Prog.run_bind, run_io,
      Neo4jWriter.run_lookupOutputsBatch]
    dsimp only
    rw [Prog.run_bind_ok (run_setCache ..)]
    split <;> rfl

theorem stems_afterFallback (c : UtxoCache) (keys : List UtxoKey)
    (answer : Except WriterError (List OutputLookupResult)) :
    Stems (fun _ => True) c (c.afterFallback keys answer) := by
  have looked := stems_getMany (P := fun _ => True) c keys
  unfold afterFallback
  dsimp only
  split
  · exact looked
  · split
    · exact looked.withStats _
    · exact (looked.withStats _).trans (stems_absorbResults ..)

/-! ## Any sequence of operations -/

/-- An operation on the cache with its arguments: a load has the file, and a lookup with fallback
what the writer answers. -/
inductive Operation where
  | insert (key : UtxoKey) (output : CachedOutput)
  | get (key : UtxoKey)
  | getQuiet (key : UtxoKey)
  | getMany (keys : List UtxoKey)
  | getManyWithFallback (keys : List UtxoKey)
      (answer : Except WriterError (List OutputLookupResult))
  | remove (key : UtxoKey)
  | removeMany (keys : List UtxoKey)
  | insertPrewarm (key : UtxoKey) (output : CachedOutput)
  | loadFromFile (file : Option (List UInt8))

/-- The cache an operation leaves. -/
def Operation.apply (crc32 : List UInt8 → UInt32) (c : UtxoCache) : Operation → UtxoCache
  | insert key output => c.insert key output
  | get key => (c.get key).2
  | getQuiet key => (c.getQuiet key).2
  | getMany keys => (c.getMany keys).1
  | getManyWithFallback keys answer => c.afterFallback keys answer
  | remove key => (c.remove key).2
  | removeMany keys => c.removeMany keys
  | insertPrewarm key output => (c.insertPrewarm key output).2
  | loadFromFile file => (c.loadFromFile crc32 file).2

theorem Operation.stems (crc32 : List UInt8 → UInt32) (c : UtxoCache) (op : Operation) :
    Stems (fun _ => True) c (op.apply crc32 c) := by
  cases op with
  | insert key output => exact stems_insert c trivial
  | get key => exact stems_get c key
  | getQuiet key => exact stems_getQuiet c key
  | getMany keys => exact stems_getMany c keys
  | getManyWithFallback keys answer => exact stems_afterFallback c keys answer
  | remove key => exact stems_remove c key
  | removeMany keys => exact stems_removeMany c keys
  | insertPrewarm key output => exact stems_insertPrewarm c trivial
  | loadFromFile file => exact stems_loadFromFile c fun _ _ _ _ _ => trivial

/-- The cache after a sequence of operations. -/
def after (crc32 : List UInt8 → UInt32) (c : UtxoCache) (ops : List Operation) : UtxoCache :=
  ops.foldl (Operation.apply crc32) c

/-- Every key is stored at most once and in its own shard, and no shard holds more than its part
of the capacity. -/
structure Housed (capacity : ℕ) (c : UtxoCache) : Prop where
  once : ∀ s, (c.shards s).keys.Nodup
  home : ∀ s, ∀ k ∈ (c.shards s).keys, shardIndex k = s
  room : ∀ s, (c.shards s).len ≤ max 1 (capacity / numShards)

theorem housed_after (crc32 : List UInt8 → UInt32) (capacity : ℕ) (ops : List Operation) :
    Housed capacity (after crc32 (.new capacity) ops) := by
  have stems : Stems (fun _ => True) (.new capacity) (after crc32 (.new capacity) ops) :=
    Stems.foldl (fun c op _ => op.stems crc32 c) _
  refine ⟨fun s => Lru.nodup _, fun s k stored => ?_, fun s => ?_⟩
  · obtain ⟨e, mem, rfl⟩ := List.mem_map.mp stored
    rcases stems.entries s e mem with old | ⟨home, _⟩
    · exact absurd old List.not_mem_nil
    · exact home
  · have cap := stems.cap s
    exact (Lru.len_le _).trans (le_of_eq cap)

/-- What a cache for sixteen entries or more holds is at most what it was asked for. -/
theorem Housed.len_le {capacity : ℕ} (h : Housed capacity c) (enough : numShards ≤ capacity) :
    c.len ≤ capacity := by
  have one : 1 ≤ capacity / numShards := (Nat.one_le_div_iff (by decide)).mpr enough
  have each : c.len ≤ ((List.finRange numShards).map fun _ => capacity / numShards).sum := by
    apply List.sum_le_sum
    intro s _
    have room := h.room s
    rwa [max_eq_right one] at room
  rw [List.map_const', List.sum_replicate_nat, List.length_finRange] at each
  exact each.trans (Nat.mul_div_le capacity numShards)

/-- An insert for every shard. -/
def spread : List Operation :=
  (List.finRange numShards).map fun s => .insert ⟨0, s⟩ ⟨0, 0, .Unknown, none⟩

/-- In a cache for fewer than sixteen entries an entry of every shard finds room. -/
theorem len_spread (crc32 : List UInt8 → UInt32) {capacity : ℕ} (few : capacity < numShards) :
    (after crc32 (.new capacity) spread).len = numShards := by
  have small : UtxoCache.new capacity = .new 1 := by
    unfold UtxoCache.new
    simp only [Nat.div_eq_of_lt few]
    rfl
  have inserts : after crc32 (.new 1) spread =
      (List.finRange numShards).foldl
        (fun c s => c.insert ⟨0, s⟩ ⟨0, 0, .Unknown, none⟩) (.new 1) := by
    unfold after spread
    rw [List.foldl_map]
    rfl
  rw [small, inserts]
  decide +kernel

/-- **The capacity of the cache.** The invariant holds of every shard of every cache, and the
total stays within the capacity asked for iff there is room for one entry in every shard. No cache
is made for no entries. -/
theorem len_le_capacity_iff (crc32 : List UInt8 → UInt32) (capacity : ℕ) :
    (∀ c ops, newAsserted capacity = some c → Housed capacity (after crc32 c ops) ∧
      (after crc32 c ops).len ≤ capacity) ↔ capacity = 0 ∨ numShards ≤ capacity := by
  constructor
  · intro all
    by_contra few
    rw [not_or] at few
    have made : newAsserted capacity = some (.new capacity) := if_pos (Nat.pos_of_ne_zero few.1)
    obtain ⟨_, within⟩ := all _ spread made
    rw [len_spread crc32 (Nat.lt_of_not_le few.2)] at within
    exact few.2 within
  · intro enough c ops made
    unfold newAsserted at made
    split at made
    · rename_i pos
      cases made
      have housed := housed_after crc32 capacity ops
      exact ⟨housed, housed.len_le (enough.resolve_left (Nat.ne_of_gt pos))⟩
    · cases made

/-- A cache for ten entries holds sixteen. -/
theorem len_exceeds_capacity :
    ∃ c, newAsserted 10 = some c ∧ ¬ (after (fun _ => 0) c spread).len ≤ 10 := by
  refine ⟨.new 10, rfl, ?_⟩
  rw [len_spread _ (by decide)]
  decide

end UtxoCache

end ChainGraph

import ChainGraph.Foundation.Faults
import ChainGraph.Laws.Locks
import ChainGraph.Laws.Regroup

/-!
# The counters of the cache

A prefetch counts every missed key as a miss and, once the database has answered, takes back those
it has no row for. The database answers with one row for each requested output it has, as long as
an output is locked to one address at most; so the rows never outnumber the misses, and what is
taken back has been counted before.
-/

namespace ChainGraph

open Foundation Foundation.Store

/-! ## What a lookup counts -/

namespace UtxoCache

variable {c : UtxoCache} {keys : List UtxoKey}

/-- How many of the keys are cached, as often as they are asked for. -/
def hitCount (c : UtxoCache) (keys : List UtxoKey) : ℕ :=
  keys.countP fun k => (c.peek k).isSome

/-- How many are not. -/
def missCount (c : UtxoCache) (keys : List UtxoKey) : ℕ :=
  keys.countP fun k => (c.peek k).isNone

/-- How many are not, but are stored. -/
def resolvedCount (c : UtxoCache) (g : Graph) (keys : List UtxoKey) : ℕ :=
  keys.countP fun k => (c.peek k).isNone && decide (g.outputs.Has k.toOutputId)

theorem resolvedCount_le (c : UtxoCache) (g : Graph) (keys : List UtxoKey) :
    c.resolvedCount g keys ≤ c.missCount keys := by
  refine List.countP_mono_left fun k _ both => ?_
  exact (Bool.and_eq_true_iff.mp both).1

/-- A batched lookup over the keys `done` has counted each of them. -/
structure CountedUp (c : UtxoCache) (done : List UtxoKey) (s : UtxoCacheStats) : Prop where
  hits : s.hits = c.stats.hits + UInt64.ofNat (c.hitCount done)
  misses : s.misses = c.stats.misses + UInt64.ofNat (c.missCount done)

theorem CountedUp.step {done : List UtxoKey} {acc : UtxoCache × Found × List UtxoKey}
    (looked : LookedUp c done acc) (h : CountedUp c done acc.1.stats) (key : UtxoKey) :
    CountedUp c (done ++ [key]) (lookupStep acc key).1.stats := by
  have here := looked.peek key
  unfold lookupStep get
  cases found : acc.1.peek key with
  | some output =>
    rw [found] at here
    constructor
    · show acc.1.stats.hits + 1 = _
      simp [h.hits, hitCount, ← here, UInt64.add_assoc]
    · show acc.1.stats.misses = _
      simp [h.misses, missCount, ← here]
  | none =>
    rw [found] at here
    constructor
    · show acc.1.stats.hits = _
      simp [h.hits, hitCount, ← here]
    · show acc.1.stats.misses + 1 = _
      simp [h.misses, missCount, ← here, UInt64.add_assoc]

theorem countedUp_foldl (keys : List UtxoKey) {done : List UtxoKey}
    {acc : UtxoCache × Found × List UtxoKey} (looked : LookedUp c done acc)
    (h : CountedUp c done acc.1.stats) :
    CountedUp c (done ++ keys) (keys.foldl lookupStep acc).1.stats := by
  induction keys generalizing done acc with
  | nil => simpa using h
  | cons key keys ih => simpa using ih (looked.step key) (h.step looked key)

/-- A batched lookup counts every key it is asked for, as a hit or as a miss. -/
theorem countedUp_getMany (c : UtxoCache) (keys : List UtxoKey) :
    CountedUp c keys (c.getMany keys).1.stats := by
  have looked : LookedUp c [] (c, (fun _ => none), []) :=
    ⟨fun _ => rfl, fun _ => rfl, fun _ => by simp, rfl⟩
  have start : CountedUp c [] c.stats := ⟨by simp [hitCount], by simp [missCount]⟩
  have counted := countedUp_foldl (byShard keys) looked start
  have same := byShard_perm keys
  constructor
  · rw [hitCount, ← same.countP_eq]
    exact counted.hits
  · rw [missCount, ← same.countP_eq]
    exact counted.misses

theorem length_misses (c : UtxoCache) (keys : List UtxoKey) :
    (c.getMany keys).2.2.length = c.missCount keys := by
  rw [(lookedUp_getMany c keys).misses, ← List.countP_eq_length_filter,
    (byShard_perm keys).countP_eq, missCount]

/-- The missed keys that are stored, counted among the misses. -/
theorem countP_misses (c : UtxoCache) (g : Graph) (keys : List UtxoKey) :
    (c.getMany keys).2.2.countP (fun k => decide (g.outputs.Has k.toOutputId)) =
      c.resolvedCount g keys := by
  rw [(lookedUp_getMany c keys).misses, List.countP_filter, (byShard_perm keys).countP_eq,
    resolvedCount]
  congr 1
  funext k
  rw [Bool.and_comm]

end UtxoCache

/-- Taking rows into the cache counts no hit and no miss. -/
theorem stats_absorbResults (rows : List OutputLookupResult) (c : UtxoCache) (found : Found)
    (misses : List UtxoKey) :
    (absorbResults rows c found misses).1.stats.hits = c.stats.hits ∧
      (absorbResults rows c found misses).1.stats.misses = c.stats.misses := by
  unfold absorbResults
  refine List.foldlRecOn (motive := fun acc : UtxoCache × Found × List UtxoKey =>
    acc.1.stats.hits = c.stats.hits ∧ acc.1.stats.misses = c.stats.misses) misses
    (absorbStep rows) ⟨rfl, rfl⟩ fun acc h key _ => ?_
  unfold absorbStep
  cases resultMap rows key.toOutputId <;> exact h

namespace IngestionOrchestrator

/-! ## A prefetch -/

/-- The subtractions of a prefetch, each as what is taken from and what is taken: the rows from the
missed keys, and the rest from the miss counter. -/
structure Subtractions where
  deferred : Option (ℕ × ℕ)
  adjusted : Option (ℕ × ℕ)
deriving DecidableEq

/-- `prefetchUtxos` with a record of its subtractions. -/
def prefetchCounted (inputKeys : List UtxoKey) : Ingest (Found × Subtractions) :=
  if inputKeys.isEmpty then pure (fun _ => none, ⟨none, none⟩)
  else do
    let cache ← getCache
    let (cache, found, misses) := cache.getMany inputKeys
    setCache cache
    if misses.isEmpty then pure (found, ⟨none, none⟩)
    else do
      let neo4jResults ← io (Neo4jWriter.lookupOutputsBatch (misses.map UtxoKey.toOutputId))
      let (cache, found, _) := absorbResults neo4jResults cache found misses
      let sameBlockDeferred :=
        UInt64.ofNat misses.length - UInt64.ofNat neo4jResults.length
      setCache (if sameBlockDeferred > 0 then cache.adjustMisses sameBlockDeferred else cache)
      pure (found, ⟨some (misses.length, neo4jResults.length),
        if sameBlockDeferred > 0 then
          some (cache.stats.misses.toNat, sameBlockDeferred.toNat)
        else none⟩)

/-- Without the record it is the prefetch of the code. -/
theorem prefetchUtxos_eq (keys : List UtxoKey) :
    prefetchUtxos keys = prefetchCounted keys >>= fun counted => pure counted.1 := by
  unfold prefetchUtxos prefetchCounted
  split
  · rfl
  · rw [Prog.bind_assoc]
    refine congrArg _ (funext fun cache => ?_)
    obtain ⟨cache, found, misses⟩ := cache.getMany keys
    dsimp only
    rw [Prog.bind_assoc]
    refine congrArg _ (funext fun _ => ?_)
    split
    · rfl
    · rw [Prog.bind_assoc]
      refine congrArg _ (funext fun rows => ?_)
      obtain ⟨cache, found, missing⟩ := absorbResults rows cache found misses
      dsimp only
      rw [Prog.bind_assoc]
      rfl

/-- What a prefetch does to the counters. If it succeeds, neither subtraction is of more than what
it is taken from, unless the miss counter has no room for the missed keys; hits have grown by the
keys that are cached and misses by those that are not, but stored. If the lookup fails, nothing is
taken back. -/
def Counted (fault : DbFault) (w : Faulty (World neo4j UtxoCache)) (keys : List UtxoKey) : Prop :=
  let c := w.state.memory
  match (prefetchCounted keys).run (World.handleFaulty fault) w with
  | (.ok (_, subtractions), w') =>
    (∀ s ∈ subtractions.deferred, s.2 ≤ s.1) ∧
      (c.stats.misses.toNat + c.missCount keys < 2 ^ 64 →
        ∀ s ∈ subtractions.adjusted, s.2 ≤ s.1) ∧
      w'.state.memory.stats.hits = c.stats.hits + UInt64.ofNat (c.hitCount keys) ∧
      w'.state.memory.stats.misses =
        c.stats.misses + UInt64.ofNat (c.resolvedCount w.state.store.committed keys)
  | (.error _, w') =>
    w'.state.memory.stats.hits = c.stats.hits + UInt64.ofNat (c.hitCount keys) ∧
      w'.state.memory.stats.misses = c.stats.misses + UInt64.ofNat (c.missCount keys)

theorem run_getCache_faulty (fault : DbFault) (w : Faulty (World neo4j UtxoCache)) :
    getCache.run (World.handleFaulty fault) w = (.ok w.state.memory, w) := rfl

theorem run_setCache_faulty (fault : DbFault) (c : UtxoCache)
    (w : Faulty (World neo4j UtxoCache)) : (setCache c).run (World.handleFaulty fault) w =
      (.ok (), ⟨{ w.state with memory := c }, w.left⟩) := rfl

/-- The lookup reads the committed graph, or fails. -/
theorem run_lookup_faulty (fault : DbFault) (ids : List OutputId)
    (w : Faulty (World neo4j UtxoCache)) :
    (∃ e left, (io (Neo4jWriter.lookupOutputsBatch ids)).run (World.handleFaulty fault) w =
        (.error e, ⟨w.state, left⟩)) ∨
      ∃ left, (io (Neo4jWriter.lookupOutputsBatch ids)).run (World.handleFaulty fault) w =
        (.ok (w.state.store.committed.lookupOutputsBatch ids), ⟨w.state, left⟩) := by
  obtain ⟨⟨⟨g, active⟩, c⟩, left⟩ := w
  unfold io
  rw [World.run_lift_faulty]
  cases ids with
  | nil => exact Or.inr ⟨_, rfl⟩
  | cons id ids =>
    cases left with
    | none => exact Or.inr ⟨_, rfl⟩
    | some n =>
      cases n with
      | zero => exact Or.inl ⟨_, _, rfl⟩
      | succ n => exact Or.inr ⟨_, rfl⟩

/-- What is taken back has been counted, and what stays is what the rows stand for. -/
theorem adjust_exact {misses counter : UInt64} {missed rows : ℕ} (few : rows ≤ missed)
    (counted : counter = misses + UInt64.ofNat missed) :
    (misses.toNat + missed < 2 ^ 64 →
        (UInt64.ofNat missed - UInt64.ofNat rows).toNat ≤ counter.toNat) ∧
      counter - (UInt64.ofNat missed - UInt64.ofNat rows) = misses + UInt64.ofNat rows := by
  constructor
  · intro room
    rw [counted, UInt64.toNat_add, UInt64.toNat_sub, UInt64.toNat_ofNat', UInt64.toNat_ofNat']
    omega
  · rw [counted]
    grind

/-- **A prefetch** over a graph in which outputs are locked once. -/
theorem counted_prefetch (fault : DbFault) {w : Faulty (World neo4j UtxoCache)}
    (once : w.state.store.committed.LockedOnce) (keys : List UtxoKey) : Counted fault w keys := by
  obtain ⟨⟨⟨g, active⟩, c⟩, left⟩ := w
  have counted := UtxoCache.countedUp_getMany c keys
  have missed := UtxoCache.length_misses c keys
  have resolved := UtxoCache.countP_misses c g keys
  have few := c.resolvedCount_le g keys
  unfold Counted prefetchCounted
  dsimp only at once ⊢
  cases empty : keys.isEmpty with
  | true =>
    rw [List.isEmpty_iff.mp empty, if_pos rfl]
    refine ⟨fun _ no => (nomatch no), fun _ _ no => (nomatch no), ?_, ?_⟩
    · show c.stats.hits = _
      simp [UtxoCache.hitCount]
    · show c.stats.misses = _
      simp [UtxoCache.resolvedCount]
  | false =>
    rw [if_neg Bool.false_ne_true, Prog.run_bind_ok (run_getCache_faulty ..)]
    generalize c.getMany keys = looked at counted missed resolved ⊢
    obtain ⟨c₁, found, misses⟩ := looked
    dsimp only at counted missed resolved ⊢
    rw [Prog.run_bind_ok (run_setCache_faulty ..)]
    cases none : misses.isEmpty with
    | true =>
      rw [List.isEmpty_iff.mp none, List.length_nil] at missed
      have both : c.resolvedCount g keys = c.missCount keys := by omega
      rw [if_pos rfl]
      refine ⟨fun _ no => (nomatch no), fun _ _ no => (nomatch no), counted.hits, ?_⟩
      rw [both]
      exact counted.misses
    | false =>
      rw [if_neg Bool.false_ne_true, Prog.run_bind]
      rcases run_lookup_faulty fault (misses.map UtxoKey.toOutputId) ⟨⟨⟨g, active⟩, c₁⟩, left⟩ with
        ⟨e, left', failed⟩ | ⟨left', read⟩
      · rw [failed]
        exact ⟨counted.hits, counted.misses⟩
      · have rows : (g.lookupOutputsBatch (misses.map UtxoKey.toOutputId)).length =
            c.resolvedCount g keys := by
          rw [Graph.length_lookupOutputsBatch once, List.countP_map, ← resolved]
          rfl
        rw [read]
        dsimp only
        generalize g.lookupOutputsBatch (misses.map UtxoKey.toOutputId) = results at rows ⊢
        obtain ⟨hits, kept⟩ := stats_absorbResults results c₁ found misses
        generalize absorbResults results c₁ found misses = absorbed at hits kept ⊢
        obtain ⟨c₂, found₂, missing⟩ := absorbed
        dsimp only at hits kept ⊢
        obtain ⟨within, left_⟩ := adjust_exact few (kept.trans counted.misses)
        rw [Prog.run_bind_ok (run_setCache_faulty ..), missed, rows, Prog.run_pure]
        dsimp only
        generalize UInt64.ofNat (c.missCount keys) - UInt64.ofNat (c.resolvedCount g keys) =
          deferred at within left_ ⊢
        by_cases some : deferred > 0
        · simp only [if_pos some]
          refine ⟨fun s mem => ?_, fun room s mem => ?_, hits.trans counted.hits, left_⟩
          · cases mem
            exact few
          · cases mem
            exact within room
        · have zero : deferred = 0 := UInt64.le_zero_iff.mp (UInt64.not_lt.mp some)
          rw [zero, UInt64.sub_zero] at left_
          simp only [if_neg some]
          refine ⟨fun s mem => ?_, fun _ _ no => (nomatch no), hits.trans counted.hits, left_⟩
          cases mem
          exact few

end IngestionOrchestrator

namespace IngestionOrchestrator

variable {o : IngestionOrchestrator} {A : OutputId → Option Address}

/-! ## A batch -/

/-- The prefetches of the chunks of a batch in which one call may fail, each with the world it
starts from and the keys it asks for: a chunk prefetches once its first block is validated, and the
next one is started if it succeeds. -/
def prefetchStarts (o : IngestionOrchestrator) (fault : DbFault) : List (List LocatedBlock) →
    Faulty (World neo4j UtxoCache) → List (Faulty (World neo4j UtxoCache) × List UtxoKey)
  | [], _ => []
  | chunk :: rest, w =>
    let validated := (io (o.validateFirst chunk)).run (World.handleFaulty fault) w
    let ingested := (o.ingestChunk chunk).run (World.handleFaulty fault) w
    (if validated.1.isOk then [(validated.2, collectInputKeys chunk)] else []) ++
      if ingested.1.isOk then o.prefetchStarts fault rest ingested.2 else []

/-- Every prefetch of chunks that give outputs the addresses `A` does. -/
theorem lawful_prefetchStarts (fault : DbFault) {chunks : List (List LocatedBlock)}
    (named : ∀ chunk ∈ chunks, ∀ out ∈ o.outputRows chunk, AddressedAs A out)
    {w : Faulty (World neo4j UtxoCache)} (locked : w.state.store.Lawful (LockedAs A)) :
    ∀ s ∈ o.prefetchStarts fault chunks w, s.1.state.store.Lawful (LockedAs A) := by
  have stmt : ∀ (q : Query) (g g' : Graph), q.LocksAs A → LockedAs A g → q.exec g = .ok g' →
      LockedAs A g' := fun _ _ _ names h ok => h.exec names ok
  induction chunks generalizing w with
  | nil => exact fun s mem => absurd mem List.not_mem_nil
  | cons chunk rest ih =>
    intro s mem
    unfold prefetchStarts at mem
    rcases List.mem_append.mp mem with first | later
    · split at first
      · cases List.mem_singleton.mp first
        exact World.lawful_runFaulty (E := neo4j) stmt
          (locksAs_io (sends_validateFirst chunk)) locked
      · exact absurd first List.not_mem_nil
    · split at later
      · refine ih (fun chunk inside => named chunk (List.mem_cons_of_mem _ inside)) ?_ s later
        exact World.lawful_runFaulty (E := neo4j) stmt
          (locksAs_ingestChunk (named chunk List.mem_cons_self)) locked
      · exact absurd later List.not_mem_nil

/-- **The counters of prefetches.** Over a graph in which outputs are locked once, a prefetch takes
no more from the misses than it has counted. In a batch that gives every output one address, the
one it may be locked to already, every prefetch is over such a graph. -/
theorem prefetches_counted (o : IngestionOrchestrator) (fault : DbFault) :
    (∀ keys, prefetchUtxos keys = prefetchCounted keys >>= fun counted => pure counted.1) ∧
      (∀ (w : Faulty (World neo4j UtxoCache)) (chunk : List LocatedBlock),
        w.state.store.committed.LockedOnce → Counted fault w (collectInputKeys chunk)) ∧
      ∀ (A : OutputId → Option Address) (blocks : List LocatedBlock)
        (w : Faulty (World neo4j UtxoCache)), w.state.store.Lawful (LockedAs A) →
        (∀ out ∈ o.outputRows blocks, AddressedAs A out) →
        ∀ s ∈ o.prefetchStarts fault (o.adaptiveChunks blocks) w,
          s.1.state.store.committed.LockedOnce ∧ Counted fault s.1 s.2 := by
  refine ⟨prefetchUtxos_eq, fun w chunk once => counted_prefetch fault once _, ?_⟩
  intro A blocks w locked named s mem
  have lawful := lawful_prefetchStarts fault (fun chunk inside out row =>
    named out (outputRows_of_chunk inside row)) locked s mem
  have once := lawful.committed.lockedOnce
  exact ⟨once, counted_prefetch fault once s.2⟩

/-- So is every prefetch over a graph that ingestion has built. -/
theorem counted_reachable {U : Denotation} {g : Graph} (reached : Reachable o U g)
    (fault : DbFault) (active : Option Graph) (c : UtxoCache) (left : Option ℕ)
    (keys : List UtxoKey) : Counted fault ⟨⟨⟨g, active⟩, c⟩, left⟩ keys :=
  counted_prefetch fault (lockedAs_reachable reached).lockedOnce keys

end IngestionOrchestrator

/-! ## Samples -/

namespace Sample

open IngestionOrchestrator

/-- A block that spends an output twice, over two lines of the same coin. -/
def twice : LocatedBlock := block 1 101 100
  [coinbase 2 50 burnScript, spend 3 ⟨1, 0⟩ 40 eaterScript, spend 4 ⟨1, 0⟩ 30 burnScript]

/-- The addresses two blocks give their outputs. -/
def given (id : OutputId) : Option Address :=
  (((orchestrator 0).outputRows [first, twice]).find? (·.outputId = id)).bind (·.address)

/-- An output is locked to one address, merged at a BIP30 height with another and spent there, and
spent again by the next block. -/
def elsewhere : LocatedBlock := block 91841 100 0 [coinbase 2 50 eaterScript]

def moved : LocatedBlock := block 91842 101 100
  [coinbase 2 50 burnScript, spend 3 ⟨2, 0⟩ 40 burnScript]

def respent : LocatedBlock := block 91843 102 101
  [coinbase 4 50 burnScript, spend 5 ⟨2, 0⟩ 40 burnScript]

/-- The graph with the output at its first address. -/
def placed : Graph :=
  (((orchestrator 0).ingestBlocksBatch [elsewhere]).run World.handle
    ⟨⟨.empty, none⟩, .new 1000⟩).2.store.committed

/-- A cache whose miss counter has room for nothing more. -/
def full : UtxoCache := { UtxoCache.new 16 with stats := ⟨0, 18446744073709551615, 0, 0, 0⟩ }

/-- A prefetch of what a block spends. -/
def counts (b : LocatedBlock) (w : Faulty (World neo4j UtxoCache)) :
    Option Subtractions × UtxoCacheStats :=
  let r := (prefetchCounted (collectInputKeys [b])).run (World.handleFaulty DbFault.elapsed) w
  (r.1.toOption.map (·.2), r.2.state.memory.stats)

end Sample

open IngestionOrchestrator

/-- Two chunks over an empty graph; the second asks for one output twice. -/
theorem prefetches_counted_sample :
    let o := Sample.orchestrator 0
    let starts := o.prefetchStarts .elapsed (o.adaptiveChunks [Sample.first, Sample.twice])
      ⟨⟨⟨.empty, none⟩, .new 1000⟩, none⟩
    starts.length = 2 ∧ ∀ s ∈ starts, s.1.state.store.committed.LockedOnce ∧
      Counted .elapsed s.1 s.2 := by
  intro o starts
  have rows : ∀ out ∈ o.outputRows [Sample.first, Sample.twice],
      Sample.given out.outputId = out.address := by decide +kernel
  refine ⟨by decide +kernel, (prefetches_counted o .elapsed).2.2 Sample.given _ _ ?_ ?_⟩
  · exact .idle .empty
  · intro out mem a address
    rw [rows out mem, address]

/-- A miss counter without room wraps, and taking back underflows it. A failed lookup resolves
nothing, and the misses stay. And a batch that gives an output a second address underflows when it
asks for it. -/
theorem prefetch_underflows :
    (Graph.empty.LockedOnce ∧
      (Sample.counts Sample.twice ⟨⟨⟨.empty, none⟩, Sample.full⟩, none⟩).1.map (·.adjusted) =
        some (some (1, 2))) ∧
    (Sample.counts Sample.twice ⟨⟨⟨.empty, none⟩, .new 16⟩, some 0⟩ =
        (none, { UtxoCacheStats.new with misses := 2 }) ∧
      (UtxoCache.new 16).resolvedCount .empty (collectInputKeys [Sample.twice]) = 0) ∧
    Sample.placed.LockedOnce ∧
      ∃ s ∈ (Sample.orchestrator 0).prefetchStarts .elapsed
          ((Sample.orchestrator 0).adaptiveChunks [Sample.moved, Sample.respent])
          ⟨⟨⟨Sample.placed, none⟩, .new 1000⟩, none⟩,
        s.2 = collectInputKeys [Sample.respent] ∧
          (Sample.counts Sample.respent s.1).1.map (·.deferred) = some (some (1, 2)) := by
  refine ⟨⟨fun id => ?_, by decide +kernel⟩, ⟨by decide +kernel, by decide +kernel⟩, ?_, ?_⟩
  · exact Nat.zero_le 1
  · have one : Sample.placed.lockedTo.card = 1 := by decide +kernel
    exact fun id => (Multiset.card_le_card (Multiset.filter_le _ _)).trans one.le
  · decide +kernel

end ChainGraph

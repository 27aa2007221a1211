import Mathlib.Data.List.FinRange
import ChainGraph.Foundation.Lru
import ChainGraph.Writer.Error

/-!
# The UTXO cache

Sixteen bounded shards, each evicting its least recently used entry, and counters. A shard is an
`LruCache` of the `lru` crate, and does what the documentation of the crate says. A key belongs
to the shard named by a few bytes of its txid and its index. Batched lookups and removals visit
the shards in order and, within a shard, the keys in the order they were asked for.

The map of what a lookup found is the function from keys to values it denotes.
-/

namespace ChainGraph

open Foundation

/-- The 36 bytes of an outpoint. -/
abbrev UtxoKey := OutPoint

namespace UtxoKey

def fromOutpoint (o : OutPoint) : UtxoKey := o

/-- The key of an output, from the hexadecimal text of its txid. The text is always that of a
txid here, so it always parses. -/
def fromHexTxid (txid : Txid) (vout : ℕ) : Option UtxoKey := some ⟨txid, vout⟩

def toOutputId (k : UtxoKey) : OutputId := k

/-- The text of the output identifier. -/
def toOutputIdString (k : UtxoKey) : String := s!"{k.txid.display}:{k.vout}"

end UtxoKey

structure CachedOutput where
  outputIndex : ℕ
  amount : UInt64
  scriptType : ScriptType
  address : Option Address
deriving DecidableEq, Repr

/-- The cache entry made from a row of the output lookup. -/
def CachedOutput.ofLookup (r : OutputLookupResult) : CachedOutput where
  outputIndex := r.outputIndex
  amount := r.amount
  scriptType := r.scriptType
  address := r.address

/-- The cache entry made from an output as it is ingested. -/
def CachedOutput.ofOutput (out : OutputData) : CachedOutput where
  outputIndex := out.outputIndex
  amount := out.amount
  scriptType := out.scriptType
  address := out.address

structure UtxoCacheStats where
  hits : UInt64
  misses : UInt64
  inserts : UInt64
  removals : UInt64
  neo4jFallbacks : UInt64
deriving DecidableEq, Repr

namespace UtxoCacheStats

def new : UtxoCacheStats := ⟨0, 0, 0, 0, 0⟩

def recordHit (s : UtxoCacheStats) : UtxoCacheStats := { s with hits := s.hits + 1 }

def recordMiss (s : UtxoCacheStats) : UtxoCacheStats := { s with misses := s.misses + 1 }

def recordInsert (s : UtxoCacheStats) : UtxoCacheStats := { s with inserts := s.inserts + 1 }

def recordRemoval (s : UtxoCacheStats) : UtxoCacheStats := { s with removals := s.removals + 1 }

def recordNeo4jFallback (s : UtxoCacheStats) : UtxoCacheStats :=
  { s with neo4jFallbacks := s.neo4jFallbacks + 1 }

/-- `fetch_sub` wraps. -/
def adjustMisses (s : UtxoCacheStats) (count : UInt64) : UtxoCacheStats :=
  { s with misses := s.misses - count }

end UtxoCacheStats

/-- The number of independent shards. -/
def numShards : ℕ := 16

/-- Which keys a lookup found, and with what values. -/
abbrev Found := UtxoKey → Option CachedOutput

structure UtxoCache where
  shards : Fin numShards → Lru UtxoKey CachedOutput
  stats : UtxoCacheStats

namespace UtxoCache

/-- Room for about `capacity` entries, split evenly over the shards, at least one in each. -/
def new (capacity : ℕ) : UtxoCache where
  shards _ := Lru.new (max 1 (capacity / numShards))
    (Nat.lt_of_lt_of_le Nat.one_pos (Nat.le_max_left ..))
  stats := .new

/-- `new` with its assertion: there is no cache for no entries. -/
def newAsserted (capacity : ℕ) : Option UtxoCache :=
  if 0 < capacity then some (.new capacity) else none

/-- The shard of a key: a few bytes of the txid and the index, xored, modulo the shard count. -/
def shardIndex (key : UtxoKey) : Fin numShards :=
  ⟨(key.txid.byte 0 ^^^ key.txid.byte 7 ^^^ key.txid.byte 15 ^^^ key.txid.byte 23 ^^^
      key.txid.byte 31 ^^^ key.vout) &&& (numShards - 1),
    Nat.lt_of_le_of_lt Nat.and_le_right (by decide)⟩

/-- The shard a key lives in. -/
def shard (c : UtxoCache) (key : UtxoKey) : Lru UtxoKey CachedOutput := c.shards (shardIndex key)

/-- Replace the shard a key lives in. -/
def setShard (c : UtxoCache) (key : UtxoKey) (l : Lru UtxoKey CachedOutput) : UtxoCache :=
  { c with shards := Function.update c.shards (shardIndex key) l }

/-- The value under a key, the order untouched. -/
def peek (c : UtxoCache) (key : UtxoKey) : Option CachedOutput := (c.shard key).peek key

def insert (c : UtxoCache) (key : UtxoKey) (output : CachedOutput) : UtxoCache :=
  { c.setShard key ((c.shard key).put key output) with stats := c.stats.recordInsert }

def get (c : UtxoCache) (key : UtxoKey) : Except WriterError CachedOutput × UtxoCache :=
  match c.peek key with
  | some output =>
    (.ok output, { c.setShard key ((c.shard key).touch key) with stats := c.stats.recordHit })
  | none =>
    (.error (.QueryFailed (s!"UTXO cache miss for {key.toOutputIdString} — " ++
      "cache is persisted, this should not happen")),
      { c with stats := c.stats.recordMiss })

/-- A lookup that moves a hit to the front and leaves the counters alone. -/
def getQuiet (c : UtxoCache) (key : UtxoKey) : Except WriterError CachedOutput × UtxoCache :=
  match c.peek key with
  | some output => (.ok output, c.setShard key ((c.shard key).touch key))
  | none =>
    (.error (.QueryFailed (s!"UTXO cache miss for {key.toOutputIdString} — " ++
      "same-block output not found after Phase 2")), c)

def remove (c : UtxoCache) (key : UtxoKey) : Bool × UtxoCache :=
  match c.peek key with
  | some _ =>
    (true, { c.setShard key ((c.shard key).pop key) with stats := c.stats.recordRemoval })
  | none => (false, c)

/-- The keys, shard by shard. -/
def byShard (keys : List UtxoKey) : List UtxoKey :=
  (List.finRange numShards).flatMap fun s => keys.filter (shardIndex · = s)

/-- One key of a batched lookup: what it adds to the hits and to the misses. -/
def lookupStep (acc : UtxoCache × Found × List UtxoKey) (key : UtxoKey) :
    UtxoCache × Found × List UtxoKey :=
  match acc.1.get key with
  | (.ok output, c') => (c', Function.update acc.2.1 key (some output), acc.2.2)
  | (.error _, c') => (c', acc.2.1, acc.2.2 ++ [key])

def getMany (c : UtxoCache) (keys : List UtxoKey) : UtxoCache × Found × List UtxoKey :=
  (byShard keys).foldl lookupStep (c, fun _ => none, [])

def removeMany (c : UtxoCache) (keys : List UtxoKey) : UtxoCache :=
  (byShard keys).foldl (fun c key => (c.remove key).2) c

def contains (c : UtxoCache) (key : UtxoKey) : Bool := (c.peek key).isSome

def adjustMisses (c : UtxoCache) (count : UInt64) : UtxoCache :=
  { c with stats := c.stats.adjustMisses count }

def recordNeo4jFallback (c : UtxoCache) : UtxoCache :=
  { c with stats := c.stats.recordNeo4jFallback }

def len (c : UtxoCache) : ℕ := ((List.finRange numShards).map fun s => (c.shards s).len).sum

/-- The capacity of a shard. No operation changes it. -/
def cap (c : UtxoCache) (s : Fin numShards) : ℕ := (c.shards s).cap

/-- Insert during pre-warming, which a full shard refuses. -/
def insertPrewarm (c : UtxoCache) (key : UtxoKey) (output : CachedOutput) : Bool × UtxoCache :=
  if (c.shard key).len ≥ (c.shard key).cap then (false, c) else (true, c.insert key output)

/-- Some shard is not full. -/
def hasCapacity (c : UtxoCache) : Bool :=
  (List.finRange numShards).any fun s => (c.shards s).len < (c.shards s).cap

/-! ## What a lookup answers -/

variable {c : UtxoCache} {key k : UtxoKey} {v output : CachedOutput}

theorem cap_setShard {l : Lru UtxoKey CachedOutput} (same : l.cap = (c.shard key).cap)
    (s : Fin numShards) : (c.setShard key l).cap s = c.cap s := by
  show (Function.update c.shards (shardIndex key) l s).cap = (c.shards s).cap
  by_cases home : s = shardIndex key
  · subst home
    rw [Function.update_self, same]
    rfl
  · rw [Function.update_of_ne home]

@[simp] theorem cap_insert (s : Fin numShards) : (c.insert key output).cap s = c.cap s :=
  cap_setShard (Lru.cap_put ..) s

variable (c key) in
@[simp] theorem cap_get (s : Fin numShards) : (c.get key).2.cap s = c.cap s := by
  unfold get
  split
  · exact cap_setShard (Lru.cap_touch ..) s
  · rfl

@[simp] theorem cap_getQuiet (s : Fin numShards) : (c.getQuiet key).2.cap s = c.cap s := by
  unfold getQuiet
  split
  · exact cap_setShard (Lru.cap_touch ..) s
  · rfl

@[simp] theorem cap_remove (s : Fin numShards) : (c.remove key).2.cap s = c.cap s := by
  unfold remove
  split
  · exact cap_setShard (Lru.cap_pop ..) s
  · rfl

theorem shard_setShard_self (l : Lru UtxoKey CachedOutput) : (c.setShard key l).shard key = l :=
  Function.update_self ..

/-- Replacing the shard of a key by one that agrees on every other key changes no other lookup. -/
theorem peek_setShard {l : Lru UtxoKey CachedOutput}
    (agree : ∀ k', k' ≠ key → l.peek k' = (c.shard key).peek k') (ne : k ≠ key) :
    (c.setShard key l).peek k = c.peek k := by
  show ((Function.update c.shards (shardIndex key) l) (shardIndex k)).peek k =
    (c.shards (shardIndex k)).peek k
  by_cases same : shardIndex k = shardIndex key
  · rw [same, Function.update_self, agree k ne]
    rfl
  · rw [Function.update_of_ne same]

@[simp] theorem peek_insert_self : (c.insert key output).peek key = some output := by
  show ((c.setShard key ((c.shard key).put key output)).shard key).peek key = some output
  rw [shard_setShard_self]
  exact Lru.peek_eq_some.mpr (Lru.mem_put_self ..)

/-- After an insert, any other key answers what it answered before, or nothing. -/
theorem peek_insert (h : (c.insert key output).peek k = some v) :
    k = key ∧ v = output ∨ k ≠ key ∧ c.peek k = some v := by
  by_cases same : k = key
  · subst same
    rw [peek_insert_self] at h
    exact Or.inl ⟨rfl, (Option.some.inj h).symm⟩
  · refine Or.inr ⟨same, ?_⟩
    change ((Function.update c.shards (shardIndex key) ((c.shard key).put key output))
      (shardIndex k)).peek k = some v at h
    unfold peek shard
    by_cases home : shardIndex k = shardIndex key
    · rw [home, Function.update_self] at h
      rw [home]
      rcases Lru.mem_put (Lru.peek_eq_some.mp h) with eq | ⟨old, _⟩
      · exact absurd (congrArg Prod.fst eq) same
      · exact Lru.peek_eq_some.mpr old
    · rw [Function.update_of_ne home] at h
      exact h

theorem peek_touched : (c.setShard key ((c.shard key).touch key)).peek k = c.peek k := by
  by_cases same : k = key
  · subst same
    unfold peek
    rw [shard_setShard_self, Lru.peek_touch]
  · exact peek_setShard (fun k' _ => Lru.peek_touch ..) same

variable (c key) in
@[simp] theorem peek_get : (c.get key).2.peek k = c.peek k := by
  unfold get
  split
  · exact peek_touched
  · rfl

@[simp] theorem peek_getQuiet : (c.getQuiet key).2.peek k = c.peek k := by
  unfold getQuiet
  split
  · exact peek_touched
  · rfl

theorem get_eq_ok {c' : UtxoCache} (h : c.get key = (.ok v, c')) : c.peek key = some v := by
  unfold get at h
  split at h
  · rename_i found
    cases h
    exact found
  · cases h

theorem get_eq_error {c' : UtxoCache} {e : WriterError} (h : c.get key = (.error e, c')) :
    c.peek key = none := by
  unfold get at h
  split at h
  · cases h
  · assumption

@[simp] theorem peek_remove_self : (c.remove key).2.peek key = none := by
  unfold remove
  split
  · show ((c.setShard key ((c.shard key).pop key)).shard key).peek key = none
    rw [shard_setShard_self, Lru.peek_eq_none]
    intro mem
    obtain ⟨e, he, same⟩ := List.mem_map.mp mem
    exact (Lru.mem_pop.mp he).2 same
  · assumption

theorem peek_remove (ne : k ≠ key) : (c.remove key).2.peek k = c.peek k := by
  unfold remove
  split
  · refine peek_setShard (c := c) (fun k' ne' => Option.ext fun v => ?_) ne
    rw [Lru.peek_eq_some, Lru.peek_eq_some, Lru.mem_pop]
    exact ⟨And.left, fun h => ⟨h, ne'⟩⟩
  · rfl

theorem mem_byShard {keys : List UtxoKey} : k ∈ byShard keys ↔ k ∈ keys := by
  unfold byShard
  rw [List.mem_flatMap]
  constructor
  · rintro ⟨s, _, mem⟩
    exact (List.mem_filter.mp mem).1
  · intro mem
    exact ⟨shardIndex k, List.mem_finRange _, List.mem_filter.mpr ⟨mem, by simp⟩⟩

/-- Removing keys answers nothing for them and leaves every other lookup as it was. -/
theorem peek_removeAll (keys : List UtxoKey) :
    (keys.foldl (fun c key => (c.remove key).2) c).peek k =
      if k ∈ keys then none else c.peek k := by
  induction keys generalizing c with
  | nil => simp
  | cons key keys ih =>
    rw [List.foldl_cons, ih]
    by_cases rest : k ∈ keys
    · rw [if_pos rest, if_pos (List.mem_cons_of_mem key rest)]
    · rw [if_neg rest]
      by_cases same : k = key
      · subst same
        rw [peek_remove_self, if_pos List.mem_cons_self]
      · rw [peek_remove same, if_neg]
        simp [same, rest]

theorem peek_removeMany (keys : List UtxoKey) :
    (c.removeMany keys).peek k = if k ∈ keys then none else c.peek k := by
  unfold removeMany
  rw [peek_removeAll]
  simp only [mem_byShard]

theorem cap_removeMany (keys : List UtxoKey) (s : Fin numShards) :
    (c.removeMany keys).cap s = c.cap s := by
  unfold removeMany
  induction byShard keys generalizing c with
  | nil => rfl
  | cons key keys ih => rw [List.foldl_cons, ih, cap_remove]

/-! ## Batched lookup -/

/-- The state of a batched lookup over the keys `done`: the cache answers as before, the map holds
the cached values of those keys, and the misses are the keys without one, as often as asked. -/
structure LookedUp (c : UtxoCache) (done : List UtxoKey)
    (acc : UtxoCache × Found × List UtxoKey) : Prop where
  cap : ∀ s, acc.1.cap s = c.cap s
  peek : ∀ k, acc.1.peek k = c.peek k
  found : ∀ k, acc.2.1 k = if k ∈ done then c.peek k else none
  misses : acc.2.2 = done.filter fun k => (c.peek k).isNone

theorem lookupStep_ok {acc : UtxoCache × Found × List UtxoKey} {c' : UtxoCache}
    (h : acc.1.get key = (.ok output, c')) :
    lookupStep acc key = (c', Function.update acc.2.1 key (some output), acc.2.2) := by
  unfold lookupStep
  rw [h]

theorem lookupStep_error {acc : UtxoCache × Found × List UtxoKey} {c' : UtxoCache}
    {e : WriterError} (h : acc.1.get key = (.error e, c')) :
    lookupStep acc key = (c', acc.2.1, acc.2.2 ++ [key]) := by
  unfold lookupStep
  rw [h]

theorem LookedUp.step {done : List UtxoKey} {acc : UtxoCache × Found × List UtxoKey}
    (h : LookedUp c done acc) (key : UtxoKey) :
    LookedUp c (done ++ [key]) (lookupStep acc key) := by
  cases look : acc.1.get key with
  | mk answer c' =>
    have caps : ∀ s, c'.cap s = c.cap s := fun s => by
      rw [← h.cap s, ← cap_get acc.1 key, look]
    have after : ∀ k, c'.peek k = c.peek k := fun k => by
      rw [← h.peek k, ← peek_get acc.1 key, look]
    cases answer with
    | ok output =>
      have hit : c.peek key = some output := by rw [← h.peek key, get_eq_ok look]
      rw [lookupStep_ok look]
      refine ⟨caps, after, fun k => ?_, ?_⟩
      · show Function.update acc.2.1 key (some output) k = _
        by_cases same : k = key
        · subst same
          rw [Function.update_self, if_pos (by simp), hit]
        · rw [Function.update_of_ne same, h.found k]
          simp [same]
      · show acc.2.2 = _
        rw [h.misses, List.filter_append]
        simp [hit]
    | error e =>
      have miss : c.peek key = none := by rw [← h.peek key, get_eq_error look]
      rw [lookupStep_error look]
      refine ⟨caps, after, fun k => ?_, ?_⟩
      · show acc.2.1 k = _
        rw [h.found k]
        by_cases same : k = key
        · subst same
          rw [miss, ite_self, ite_self]
        · simp [same]
      · show acc.2.2 ++ [key] = _
        rw [h.misses, List.filter_append]
        simp [miss]

theorem lookedUp_foldl (keys : List UtxoKey) {done : List UtxoKey}
    {acc : UtxoCache × Found × List UtxoKey} (h : LookedUp c done acc) :
    LookedUp c (done ++ keys) (keys.foldl lookupStep acc) := by
  induction keys generalizing done acc with
  | nil => simpa using h
  | cons key keys ih => simpa using ih (h.step key)

/-- A batched lookup reads the cache as it is and changes none of its answers. -/
theorem lookedUp_getMany (c : UtxoCache) (keys : List UtxoKey) :
    LookedUp c (byShard keys) (c.getMany keys) := by
  have start : LookedUp c [] (c, (fun _ => none), []) :=
    ⟨fun _ => rfl, fun _ => rfl, fun _ => by simp, rfl⟩
  exact lookedUp_foldl (byShard keys) start

end UtxoCache

end ChainGraph

import ChainGraph.Domain.Utxo
import ChainGraph.Foundation.History

/-!
# The cache is a map that forgets the least recently used

Every shard of a cache has a history, the uses of its keys among those of the whole cache. So over
any sequence of operations a lookup answers the value stored last or nothing, and it answers as
long as fewer other keys of the shard were used since than a shard has room for.
-/

namespace ChainGraph

open Foundation

namespace UtxoCache

open Lru (Use History lastStored usedSince)

/-- An operation on the cache as a map, with its arguments. -/
inductive MapOperation where
  | insert (key : UtxoKey) (output : CachedOutput)
  | get (key : UtxoKey)
  | getQuiet (key : UtxoKey)
  | getMany (keys : List UtxoKey)
  | contains (key : UtxoKey)
  | remove (key : UtxoKey)
  | removeMany (keys : List UtxoKey)
  | insertPrewarm (key : UtxoKey) (output : CachedOutput)
deriving DecidableEq, Repr

namespace MapOperation

/-- The cache an operation leaves. -/
def apply (c : UtxoCache) : MapOperation → UtxoCache
  | insert key output => c.insert key output
  | get key => (c.get key).2
  | getQuiet key => (c.getQuiet key).2
  | getMany keys => (c.getMany keys).1
  | contains _ => c
  | remove key => (c.remove key).2
  | removeMany keys => c.removeMany keys
  | insertPrewarm key output => (c.insertPrewarm key output).2

/-- What an operation uses, the latest first: a lookup the keys it hits, an insert during
pre-warming its key unless it is refused. -/
def uses (c : UtxoCache) : MapOperation → List (Use UtxoKey CachedOutput)
  | insert key output => [.store key output]
  | get key => if c.contains key then [.hit key] else []
  | getQuiet key => if c.contains key then [.hit key] else []
  | getMany keys => (((byShard keys).filter c.contains).map .hit).reverse
  | contains _ => []
  | remove key => [.remove key]
  | removeMany keys => ((byShard keys).map .remove).reverse
  | insertPrewarm key output =>
    if (c.insertPrewarm key output).1 then [.store key output] else []

end MapOperation

/-- The cache after a sequence of operations. -/
def afterMap (c : UtxoCache) (ops : List MapOperation) : UtxoCache := ops.foldl MapOperation.apply c

/-- What a sequence of operations used, the latest first. -/
def history (c : UtxoCache) : List MapOperation → List (Use UtxoKey CachedOutput)
  | [] => []
  | op :: ops => history (op.apply c) ops ++ op.uses c

/-- The uses of the keys of a shard. -/
def ofShard (s : Fin numShards) (us : List (Use UtxoKey CachedOutput)) :
    List (Use UtxoKey CachedOutput) :=
  us.filter (shardIndex ·.key = s)

/-- Each shard has the history of its keys. -/
def Histories (cap : ℕ) (us : List (Use UtxoKey CachedOutput)) (c : UtxoCache) : Prop :=
  ∀ s, History cap (ofShard s us) (c.shards s)

variable {cap : ℕ} {us : List (Use UtxoKey CachedOutput)} {c : UtxoCache} {key k : UtxoKey}
  {v : CachedOutput}

/-! ## One key -/

theorem histories_new (capacity : ℕ) :
    Histories (max 1 (capacity / numShards)) [] (.new capacity) :=
  fun _ => .new _

/-- A use of a key changes its shard alone. -/
theorem Histories.cons {u : Use UtxoKey CachedOutput} {l : Lru UtxoKey CachedOutput}
    (h : Histories cap us c) (home : u.key = key)
    (used : History cap (u :: ofShard (shardIndex key) us) l) :
    Histories cap (u :: us) (c.setShard key l) := by
  intro s
  show History cap _ (Function.update c.shards (shardIndex key) l s)
  unfold ofShard
  rw [List.filter_cons, home]
  by_cases here : s = shardIndex key
  · subst here
    rw [Function.update_self, if_pos (decide_eq_true rfl)]
    exact used
  · rw [Function.update_of_ne here, if_neg]
    · exact h s
    · simpa using Ne.symm here

theorem Histories.withStats (h : Histories cap us c) (stats : UtxoCacheStats) :
    Histories cap us { c with stats := stats } := h

theorem Histories.insert (h : Histories cap us c) (key : UtxoKey) (output : CachedOutput) :
    Histories cap (.store key output :: us) (c.insert key output) := by
  have stored : History cap (.store key output :: ofShard (shardIndex key) us)
      ((c.shard key).put key output) := (h (shardIndex key)).store key output
  exact (h.cons rfl stored).withStats _

theorem mem_keys_shard : key ∈ (c.shard key).keys ↔ c.contains key = true := by
  unfold contains peek
  rw [← not_iff_not, ← Lru.peek_eq_none, Option.not_isSome_iff_eq_none]

theorem contains_of_some (found : c.peek key = some v) : c.contains key = true := by
  unfold contains
  rw [found]
  rfl

theorem contains_of_none (found : c.peek key = none) : c.contains key = false := by
  unfold contains
  rw [found]
  rfl

theorem Histories.touch (h : Histories cap us c) (present : c.contains key = true) :
    Histories cap (.hit key :: us) (c.setShard key ((c.shard key).touch key)) :=
  h.cons rfl ((h (shardIndex key)).hit (mem_keys_shard.mpr present))

/-- A lookup uses its key if it hits. -/
theorem Histories.get (h : Histories cap us c) (key : UtxoKey) :
    Histories cap ((if c.contains key then [.hit key] else []) ++ us) (c.get key).2 := by
  unfold UtxoCache.get
  cases found : c.peek key with
  | none =>
    rw [contains_of_none found]
    exact h.withStats _
  | some v =>
    rw [contains_of_some found]
    exact (h.touch (contains_of_some found)).withStats _

theorem Histories.getQuiet (h : Histories cap us c) (key : UtxoKey) :
    Histories cap ((if c.contains key then [.hit key] else []) ++ us) (c.getQuiet key).2 := by
  unfold UtxoCache.getQuiet
  cases found : c.peek key with
  | none =>
    rw [contains_of_none found]
    exact h
  | some v =>
    rw [contains_of_some found]
    exact h.touch (contains_of_some found)

theorem Histories.remove (h : Histories cap us c) (key : UtxoKey) :
    Histories cap (.remove key :: us) (c.remove key).2 := by
  have popped : Histories cap (.remove key :: us) (c.setShard key ((c.shard key).pop key)) :=
    h.cons rfl ((h (shardIndex key)).remove key)
  unfold UtxoCache.remove
  cases found : c.peek key with
  | none =>
    -- removing a key that is not there changes nothing
    have same : (c.shard key).pop key = c.shard key := Lru.pop_of_absent (Lru.peek_eq_none.mp found)
    rw [same] at popped
    unfold setShard shard at popped
    rw [Function.update_eq_self] at popped
    exact popped
  | some v => exact popped.withStats _

/-! ## Many keys -/

theorem contains_get (k : UtxoKey) : (c.get key).2.contains k = c.contains k := by
  unfold contains
  rw [peek_get]

theorem Histories.foldl_get (h : Histories cap us c) (keys : List UtxoKey) :
    Histories cap (((keys.filter c.contains).map .hit).reverse ++ us)
      (keys.foldl (fun c key => (c.get key).2) c) := by
  induction keys generalizing us c with
  | nil => exact h
  | cons key keys ih =>
    have rest := ih (h.get key)
    have same : (c.get key).2.contains = c.contains := funext fun k => contains_get k
    rw [same] at rest
    rw [List.foldl_cons, List.filter_cons]
    by_cases present : c.contains key
    · rw [if_pos present] at rest ⊢
      rw [List.map_cons, List.reverse_cons, List.append_assoc]
      exact rest
    · rw [if_neg present] at rest ⊢
      exact rest

theorem Histories.foldl_remove (h : Histories cap us c) (keys : List UtxoKey) :
    Histories cap ((keys.map .remove).reverse ++ us)
      (keys.foldl (fun c key => (c.remove key).2) c) := by
  induction keys generalizing us c with
  | nil => exact h
  | cons key keys ih =>
    have rest := ih (h.remove key)
    rw [List.foldl_cons, List.map_cons, List.reverse_cons, List.append_assoc]
    exact rest

theorem lookupStep_fst (acc : UtxoCache × Found × List UtxoKey) (key : UtxoKey) :
    (lookupStep acc key).1 = (acc.1.get key).2 := by
  cases look : acc.1.get key with
  | mk answer c' =>
    cases answer with
    | ok output => rw [lookupStep_ok look]
    | error e => rw [lookupStep_error look]

theorem foldl_lookupStep_fst (keys : List UtxoKey) (acc : UtxoCache × Found × List UtxoKey) :
    (keys.foldl lookupStep acc).1 = keys.foldl (fun c key => (c.get key).2) acc.1 := by
  induction keys generalizing acc with
  | nil => rfl
  | cons key keys ih => rw [List.foldl_cons, List.foldl_cons, ih, lookupStep_fst]

/-! ## Any sequence of operations -/

/-- One operation. -/
theorem Histories.apply (h : Histories cap us c) (op : MapOperation) :
    Histories cap (op.uses c ++ us) (op.apply c) := by
  cases op with
  | insert key output => exact h.insert key output
  | get key => exact h.get key
  | getQuiet key => exact h.getQuiet key
  | getMany keys =>
    have looked := h.foldl_get (byShard keys)
    rw [← foldl_lookupStep_fst (byShard keys) (c, fun _ => none, [])] at looked
    exact looked
  | contains key => exact h
  | remove key => exact h.remove key
  | removeMany keys => exact h.foldl_remove (byShard keys)
  | insertPrewarm key output =>
    show Histories cap ((if (c.insertPrewarm key output).1 then _ else _) ++ us)
      (c.insertPrewarm key output).2
    unfold UtxoCache.insertPrewarm
    split
    · exact h
    · exact h.insert key output

/-- A run. -/
theorem Histories.after (h : Histories cap us c) (ops : List MapOperation) :
    Histories cap (history c ops ++ us) (afterMap c ops) := by
  induction ops generalizing us c with
  | nil => exact h
  | cons op ops ih =>
    have rest := ih (h.apply op)
    show Histories cap ((history (op.apply c) ops ++ op.uses c) ++ us) _
    rw [List.append_assoc]
    exact rest

theorem histories_after (capacity : ℕ) (ops : List MapOperation) :
    Histories (max 1 (capacity / numShards)) (history (.new capacity) ops)
      (afterMap (.new capacity) ops) := by
  have run := (histories_new capacity).after ops
  rw [List.append_nil] at run
  exact run

/-- The value stored last for a key is that among the uses of its shard. -/
theorem lastStored_ofShard (k : UtxoKey) (us : List (Use UtxoKey CachedOutput)) :
    lastStored k (ofShard (shardIndex k) us) = lastStored k us := by
  induction us with
  | nil => rfl
  | cons u us ih =>
    unfold ofShard at ih ⊢
    rw [List.filter_cons]
    by_cases home : shardIndex u.key = shardIndex k
    · rw [if_pos (decide_eq_true home)]
      cases u <;> simp only [lastStored, ih]
    · rw [if_neg (by simpa using home), ih]
      have other : u.key ≠ k := fun same => home (congrArg shardIndex same)
      cases u with
      | store k' v => exact (if_neg other).symm
      | hit k' => rfl
      | remove k' => exact (if_neg other).symm

/-! ## Lookups -/

/-- The ways to look a key up; of a batch, the keys asked for before it and after it. -/
inductive Lookup where
  | get
  | getQuiet
  | getMany (before after : List UtxoKey)

/-- What a lookup of a key answers. -/
def Lookup.answer (c : UtxoCache) (k : UtxoKey) : Lookup → Option CachedOutput
  | get => (c.get k).1.toOption
  | getQuiet => (c.getQuiet k).1.toOption
  | getMany before after => (c.getMany (before ++ k :: after)).2.1 k

theorem Lookup.answer_eq (look : Lookup) (c : UtxoCache) (k : UtxoKey) :
    look.answer c k = c.peek k := by
  cases look with
  | get =>
    show (c.get k).1.toOption = c.peek k
    unfold UtxoCache.get
    cases c.peek k <;> rfl
  | getQuiet =>
    show (c.getQuiet k).1.toOption = c.peek k
    unfold UtxoCache.getQuiet
    cases c.peek k <;> rfl
  | getMany before after =>
    have asked : k ∈ byShard (before ++ k :: after) := by
      apply mem_byShard.mpr
      simp
    show (c.getMany (before ++ k :: after)).2.1 k = c.peek k
    rw [(lookedUp_getMany c _).found k, if_pos asked]

/-- **The cache as a map.** After any operations on a new cache a lookup answers nothing or the
value stored last and not removed since, and it answers this value if fewer other keys of the shard
were stored or hit since the key was than a shard has room for. -/
theorem lookup_retained (capacity : ℕ) (ops : List MapOperation) (k : UtxoKey) (look : Lookup) :
    (look.answer (afterMap (.new capacity) ops) k = none ∨
      look.answer (afterMap (.new capacity) ops) k = lastStored k (history (.new capacity) ops)) ∧
    (∀ v, lastStored k (history (.new capacity) ops) = some v →
      (usedSince k (ofShard (shardIndex k) (history (.new capacity) ops))).card <
        max 1 (capacity / numShards) →
      look.answer (afterMap (.new capacity) ops) k = some v) ∧
    (afterMap (.new capacity) ops).contains k =
      (look.answer (afterMap (.new capacity) ops) k).isSome := by
  have run := histories_after capacity ops (shardIndex k)
  rw [look.answer_eq]
  refine ⟨?_, fun v stored few => ?_, rfl⟩
  · cases found : (afterMap (.new capacity) ops).peek k with
    | none => exact Or.inl rfl
    | some v =>
      right
      rw [← lastStored_ofShard]
      exact (run.lastStored_of_peek found).symm
  · rw [← lastStored_ofShard] at stored
    exact run.peek_of_few stored few

end UtxoCache

end ChainGraph

import Mathlib.Data.Multiset.Basic
import ChainGraph.Laws.Retention

/-!
# Batches shard by shard

A batched operation visits its keys shard by shard, so keys of different shards trade places and
keys of one shard keep theirs. Steps on keys of different shards commute, which makes the batch
agree with the operation on one key after the other.
-/

namespace ChainGraph

open Foundation

namespace UtxoCache

variable {c : UtxoCache} {key k k' : UtxoKey} {keys : List UtxoKey}

/-! ## Trading places -/

section Commuting

variable {β : Type} {f : β → UtxoKey → β}

/-- A step moves past steps on other shards. -/
theorem foldl_past (comm : ∀ b x y, shardIndex x ≠ shardIndex y → f (f b x) y = f (f b y) x)
    {l : List UtxoKey} (apart : ∀ x ∈ l, shardIndex x ≠ shardIndex key) (b : β) :
    l.foldl f (f b key) = f (l.foldl f b) key := by
  induction l generalizing b with
  | nil => rfl
  | cons x l ih =>
    rw [List.foldl_cons, List.foldl_cons, ← comm b x key (apart x List.mem_cons_self)]
    exact ih (fun y mem => apart y (List.mem_cons_of_mem x mem)) (f b x)

/-- Steps that commute across shards come to the same in either order. -/
theorem foldl_byShard (comm : ∀ b x y, shardIndex x ≠ shardIndex y → f (f b x) y = f (f b y) x)
    (keys : List UtxoKey) (b : β) : (byShard keys).foldl f b = keys.foldl f b := by
  induction keys generalizing b with
  | nil =>
    have none : byShard [] = [] := List.flatMap_eq_nil_iff.mpr fun _ _ => rfl
    rw [none]
  | cons key keys ih =>
    obtain ⟨l, r, split⟩ := List.append_of_mem (List.mem_finRange (shardIndex key))
    have distinct := List.nodup_finRange numShards
    rw [split] at distinct
    have before : shardIndex key ∉ l := fun mem =>
      (List.nodup_append.mp distinct).2.2 _ mem _ List.mem_cons_self rfl
    have after : shardIndex key ∉ r :=
      (List.nodup_cons.mp (List.nodup_append.mp distinct).2.1).1
    -- in the shards of the other keys the new one is not seen
    have others : ∀ {ts : List (Fin numShards)}, shardIndex key ∉ ts →
        (ts.flatMap fun s => (key :: keys).filter (shardIndex · = s)) =
          ts.flatMap fun s => keys.filter (shardIndex · = s) := by
      intro ts absent
      refine List.flatMap_congr fun s mem => List.filter_cons_of_neg ?_
      rw [decide_eq_true_eq]
      rintro rfl
      exact absent mem
    have here : (key :: keys).filter (shardIndex · = shardIndex key) =
        key :: keys.filter (shardIndex · = shardIndex key) :=
      List.filter_cons_of_pos (decide_eq_true rfl)
    have rest := ih (f b key)
    unfold byShard at rest ⊢
    rw [split, List.flatMap_append, List.flatMap_cons] at rest ⊢
    rw [others before, others after, here]
    rw [List.foldl_append, foldl_past comm] at rest
    · rw [List.foldl_append, List.cons_append, List.foldl_cons]
      exact rest
    · intro x mem same
      obtain ⟨s, inside, home⟩ := List.mem_flatMap.mp mem
      rw [List.mem_filter, decide_eq_true_eq] at home
      rw [home.2] at same
      exact before (same ▸ inside)

end Commuting

/-- Shard by shard the same keys are visited, as often. -/
theorem byShard_perm (keys : List UtxoKey) : (byShard keys).Perm keys := by
  have collect : ∀ (l : List UtxoKey) (m : Multiset UtxoKey),
      l.foldl (fun m key => key ::ₘ m) m = ↑l + m := by
    intro l
    induction l with
    | nil => simp
    | cons key l ih =>
      intro m
      rw [List.foldl_cons, ih, ← Multiset.cons_coe, Multiset.cons_add, Multiset.add_cons]
  have same := foldl_byShard (f := fun m key => key ::ₘ m)
    (fun m x y _ => Multiset.cons_swap y x m) keys 0
  rw [collect, collect, Multiset.add_zero, Multiset.add_zero] at same
  exact Multiset.coe_eq_coe.mp same

/-! ## One step -/

/-- A cache whose shard of a key is changed, with its counters. -/
def withShard (c : UtxoCache) (key : UtxoKey)
    (g : Lru UtxoKey CachedOutput → Lru UtxoKey CachedOutput) (stats : UtxoCacheStats) :
    UtxoCache :=
  { c.setShard key (g (c.shard key)) with stats := stats }

/-- Changes to different shards commute. -/
theorem withShard_comm {g g' : Lru UtxoKey CachedOutput → Lru UtxoKey CachedOutput}
    {first first' last last' : UtxoCacheStats} (apart : shardIndex k ≠ shardIndex k')
    (stats : last = last') : (c.withShard k g first).withShard k' g' last =
      (c.withShard k' g' first').withShard k g last' := by
  have shard : (c.withShard k g first).shard k' = c.shard k' :=
    Function.update_of_ne (Ne.symm apart) ..
  have shard' : (c.withShard k' g' first').shard k = c.shard k := Function.update_of_ne apart ..
  unfold withShard at shard shard' ⊢
  rw [shard, shard', stats]
  unfold setShard
  simp only [Function.update_comm apart]

theorem contains_withShard {g : Lru UtxoKey CachedOutput → Lru UtxoKey CachedOutput}
    {stats : UtxoCacheStats} (apart : shardIndex k ≠ shardIndex k') :
    (c.withShard k g stats).contains k' = c.contains k' := by
  have shard : (c.withShard k g stats).shard k' = c.shard k' :=
    Function.update_of_ne (Ne.symm apart) ..
  unfold contains peek
  rw [shard]

theorem withShard_of_same {g : Lru UtxoKey CachedOutput → Lru UtxoKey CachedOutput}
    {stats : UtxoCacheStats} (same : g (c.shard key) = c.shard key) :
    c.withShard key g stats = { c with stats := stats } := by
  have shards : Function.update c.shards (shardIndex key) (c.shard key) = c.shards :=
    Function.update_eq_self ..
  unfold withShard setShard
  rw [same, shards]

/-- A lookup moves its key to the front, if it is there, and counts. -/
theorem get_snd (c : UtxoCache) (key : UtxoKey) : (c.get key).2 = c.withShard key (·.touch key)
    (if c.contains key then c.stats.recordHit else c.stats.recordMiss) := by
  unfold UtxoCache.get
  cases found : c.peek key with
  | none =>
    have same : (c.shard key).touch key = c.shard key :=
      Lru.touch_of_absent (Lru.peek_eq_none.mp found)
    rw [contains_of_none found, withShard_of_same same]
    rfl
  | some v =>
    rw [contains_of_some found]
    rfl

theorem remove_snd (c : UtxoCache) (key : UtxoKey) : (c.remove key).2 = c.withShard key (·.pop key)
    (if c.contains key then c.stats.recordRemoval else c.stats) := by
  unfold UtxoCache.remove
  cases found : c.peek key with
  | none =>
    have same : (c.shard key).pop key = c.shard key := Lru.pop_of_absent (Lru.peek_eq_none.mp found)
    rw [contains_of_none found, withShard_of_same same]
    rfl
  | some v =>
    rw [contains_of_some found]
    rfl

theorem get_comm (c : UtxoCache) (apart : shardIndex k ≠ shardIndex k') :
    ((c.get k).2.get k').2 = ((c.get k').2.get k).2 := by
  rw [get_snd, get_snd, get_snd, get_snd, contains_withShard apart,
    contains_withShard (Ne.symm apart)]
  apply withShard_comm apart
  show (if c.contains k' then UtxoCacheStats.recordHit _ else UtxoCacheStats.recordMiss _) =
    if c.contains k then UtxoCacheStats.recordHit _ else UtxoCacheStats.recordMiss _
  unfold withShard
  cases c.contains k <;> cases c.contains k' <;> rfl

theorem remove_comm (c : UtxoCache) (apart : shardIndex k ≠ shardIndex k') :
    ((c.remove k).2.remove k').2 = ((c.remove k').2.remove k).2 := by
  rw [remove_snd, remove_snd, remove_snd, remove_snd, contains_withShard apart,
    contains_withShard (Ne.symm apart)]
  apply withShard_comm apart
  unfold withShard
  cases c.contains k <;> cases c.contains k' <;> rfl

/-! ## Batches -/

/-- `get` on one key after the other. -/
def getEach (c : UtxoCache) (keys : List UtxoKey) : UtxoCache × Found × List UtxoKey :=
  keys.foldl lookupStep (c, fun _ => none, [])

/-- `remove` on one key after the other. -/
def removeEach (c : UtxoCache) (keys : List UtxoKey) : UtxoCache :=
  keys.foldl (fun c key => (c.remove key).2) c

theorem lookedUp_getEach (c : UtxoCache) (keys : List UtxoKey) :
    LookedUp c keys (c.getEach keys) := by
  have start : LookedUp c [] (c, (fun _ => none), []) :=
    ⟨fun _ => rfl, fun _ => rfl, fun _ => by simp, rfl⟩
  exact lookedUp_foldl keys start

/-- **Batches agree with single operations**: what is found, how often it is missed, the order of
every shard and the counters. -/
theorem batches_eq_each (c : UtxoCache) (keys : List UtxoKey) :
    (c.getMany keys).1 = (c.getEach keys).1 ∧
      (c.getMany keys).2.1 = (c.getEach keys).2.1 ∧
      (c.getMany keys).2.2.Perm (c.getEach keys).2.2 ∧
      c.removeMany keys = c.removeEach keys := by
  have batch := lookedUp_getMany c keys
  have each := lookedUp_getEach c keys
  refine ⟨?_, ?_, ?_, ?_⟩
  · unfold getMany getEach
    rw [foldl_lookupStep_fst, foldl_lookupStep_fst]
    exact foldl_byShard (fun c _ _ apart => get_comm c apart) keys c
  · funext k
    rw [batch.found, each.found]
    simp only [mem_byShard]
  · rw [batch.misses, each.misses]
    exact (byShard_perm keys).filter _
  · exact foldl_byShard (fun c _ _ apart => remove_comm c apart) keys c

end UtxoCache

end ChainGraph

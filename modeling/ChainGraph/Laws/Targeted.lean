import ChainGraph.Laws.Batch
import ChainGraph.Laws.Prewarm

/-!
# What a targeted walk finds

A walk for needed keys takes every needed key it comes by off its list and counts it as found. The
cache takes the output only if the shard of the key is not full. So the count and the list are right
iff no needed output comes by a full shard, and that is known beforehand: the walk goes on while
some shard has room, and the outputs that come by fill their shards one by one.

`Fits` is that condition, on the loads of the shards, the needed keys and the blocks of the range.
-/

namespace ChainGraph

open Foundation UtxoCache

/-! ## One insertion -/

namespace UtxoCache

variable {c : UtxoCache} {key : UtxoKey} {output : CachedOutput}

/-- The number of entries of a shard. -/
def load (c : UtxoCache) (s : Fin numShards) : ℕ := (c.shards s).len

theorem load_le (c : UtxoCache) (s : Fin numShards) : c.load s ≤ c.cap s := (c.shards s).len_le

theorem insertPrewarm_of_room (room : c.load (shardIndex key) < c.cap (shardIndex key)) :
    c.insertPrewarm key output = (true, c.insert key output) :=
  if_neg (Nat.not_le_of_lt room)

theorem insertPrewarm_of_full (full : ¬ c.load (shardIndex key) < c.cap (shardIndex key)) :
    c.insertPrewarm key output = (false, c) :=
  if_pos (Nat.le_of_not_lt full)

/-- A new entry goes in front of the others. -/
theorem entries_put_of_room {l : Lru UtxoKey CachedOutput} (output : CachedOutput)
    (absent : l.peek key = none) (room : l.len < l.cap) :
    (l.put key output).entries = (key, output) :: l.entries := by
  have others : without key l.entries = l.entries := by
    apply Lru.without_of_forall_ne
    intro e among same
    exact Lru.peek_eq_none.mp absent (same ▸ List.mem_map_of_mem among)
  show ((key, output) :: without key l.entries).take l.cap = _
  rw [others, List.take_of_length_le]
  exact room

theorem shards_insert_self :
    (c.insert key output).shards (shardIndex key) = (c.shard key).put key output :=
  Function.update_self ..

theorem shards_insert_of_ne {s : Fin numShards} (other : s ≠ shardIndex key) :
    (c.insert key output).shards s = c.shards s := Function.update_of_ne other ..

theorem load_insert_of_room (absent : c.peek key = none)
    (room : c.load (shardIndex key) < c.cap (shardIndex key)) (s : Fin numShards) :
    (c.insert key output).load s = c.load s + if s = shardIndex key then 1 else 0 := by
  unfold load Lru.len
  by_cases home : s = shardIndex key
  · subst home
    rw [shards_insert_self, entries_put_of_room output absent room, if_pos rfl]
    rfl
  · rw [shards_insert_of_ne home, if_neg home]
    rfl

theorem peek_insert_of_room (absent : c.peek key = none)
    (room : c.load (shardIndex key) < c.cap (shardIndex key)) (k : UtxoKey) :
    (c.insert key output).peek k = if k = key then some output else c.peek k := by
  have entries := entries_put_of_room output absent room
  by_cases same : k = key
  · subst same
    rw [if_pos rfl]
    unfold peek shard
    rw [shards_insert_self, Lru.peek_eq_some, entries]
    exact List.mem_cons_self
  · rw [if_neg same]
    by_cases home : shardIndex k = shardIndex key
    · unfold peek shard
      rw [home, shards_insert_self]
      show ((((c.shard key).put key output).entries.find? (·.1 = k)).map Prod.snd) = _
      rw [entries, List.find?_cons_of_neg (by simpa using Ne.symm same)]
      rfl
    · unfold peek shard
      rw [shards_insert_of_ne home]

end UtxoCache

/-! ## Keys that are taken off the list -/

/-- The number of keys that belong to a shard. -/
def crowd (taken : Finset UtxoKey) (s : Fin numShards) : ℕ :=
  (taken.filter fun k => shardIndex k = s).card

theorem crowd_empty (s : Fin numShards) : crowd ∅ s = 0 := rfl

theorem crowd_singleton (k : UtxoKey) (s : Fin numShards) :
    crowd {k} s = if s = shardIndex k then 1 else 0 := by
  unfold crowd
  rw [Finset.filter_singleton]
  by_cases home : s = shardIndex k
  · rw [if_pos home.symm, if_pos home]
    rfl
  · rw [if_neg (Ne.symm home), if_neg home]
    rfl

/-- Keys taken in two steps. -/
theorem crowd_sdiff {needed mid left : Finset UtxoKey} (first : mid ⊆ needed) (second : left ⊆ mid)
    (s : Fin numShards) :
    crowd (needed \ left) s = crowd (needed \ mid) s + crowd (mid \ left) s := by
  unfold crowd
  rw [← Finset.card_union_of_disjoint, ← Finset.filter_union]
  · congr 2
    ext k
    simp only [Finset.mem_union, Finset.mem_sdiff]
    constructor
    · rintro ⟨inside, out⟩
      by_cases half : k ∈ mid
      · exact Or.inr ⟨half, out⟩
      · exact Or.inl ⟨inside, half⟩
    · rintro (⟨inside, out⟩ | ⟨half, out⟩)
      · exact ⟨inside, fun still => out (second still)⟩
      · exact ⟨first half, out⟩
  · apply Finset.disjoint_filter_filter
    rw [Finset.disjoint_left]
    intro k left right
    exact (Finset.mem_sdiff.mp left).2 (Finset.mem_sdiff.mp right).1

theorem card_sdiff_trans {needed mid left : Finset UtxoKey} (first : mid ⊆ needed)
    (second : left ⊆ mid) : (needed \ mid).card + (mid \ left).card = (needed \ left).card := by
  have early := Finset.card_sdiff_add_card_eq_card first
  have late := Finset.card_sdiff_add_card_eq_card second
  have whole := Finset.card_sdiff_add_card_eq_card (second.trans first)
  omega

/-- None of the needed keys is in the cache. -/
def Missing (needed : Finset UtxoKey) (cache : UtxoCache) : Prop :=
  ∀ k ∈ needed, cache.peek k = none

/-- All keys taken off the list are in the cache. -/
def AllIn (needed left : Finset UtxoKey) (cache : UtxoCache) : Prop :=
  ∀ k ∈ needed \ left, cache.peek k ≠ none

/-- A part of a walk: some keys are taken off the list, and the cache has become another one. It
keeps what it had and has nothing new but taken keys. If all of them are in, the shards have grown
by them; and all of them are in if there was room for them. -/
structure Takes (needed left : Finset UtxoKey) (c c' : UtxoCache) : Prop where
  fewer : left ⊆ needed
  cap : ∀ s, c'.cap s = c.cap s
  keeps : ∀ k v, c.peek k = some v → c'.peek k = some v
  origin : ∀ k v, c'.peek k = some v → c.peek k = some v ∨ k ∈ needed \ left
  grown : AllIn needed left c' → ∀ s, c'.load s = c.load s + crowd (needed \ left) s
  fits : (∀ s, c.load s + crowd (needed \ left) s ≤ c.cap s) → AllIn needed left c'

namespace Takes

variable {needed mid left : Finset UtxoKey} {c c' c'' : UtxoCache}

theorem refl (needed : Finset UtxoKey) (c : UtxoCache) : Takes needed needed c c := by
  refine ⟨fun _ => id, fun _ => rfl, fun _ _ => id, fun _ _ => Or.inl, ?_, ?_⟩
  · intro _ s
    rw [Finset.sdiff_self, crowd_empty, Nat.add_zero]
  · intro _ k taken
    rw [Finset.sdiff_self] at taken
    exact absurd taken (Finset.notMem_empty k)

/-- What is still on the list is still missing. -/
theorem missing (takes : Takes needed left c c') (missing : Missing needed c) :
    Missing left c' := by
  intro k still
  cases held : c'.peek k with
  | none => rfl
  | some v =>
    rcases takes.origin k v held with old | taken
    · rw [missing k (takes.fewer still)] at old
      cases old
    · exact absurd still (Finset.mem_sdiff.mp taken).2

/-- All are in after two parts iff they are after each: what the first refuses the second does not
bring. -/
theorem allIn_iff (first : Takes needed mid c c') (second : Takes mid left c' c'') :
    AllIn needed left c'' ↔ AllIn needed mid c' ∧ AllIn mid left c'' := by
  constructor
  · intro all
    constructor
    · intro k taken absent
      obtain ⟨inside, out⟩ := Finset.mem_sdiff.mp taken
      have held := all k (Finset.mem_sdiff.mpr ⟨inside, fun still => out (second.fewer still)⟩)
      obtain ⟨v, held⟩ := Option.ne_none_iff_exists'.mp held
      rcases second.origin k v held with before | later
      · rw [absent] at before
        cases before
      · exact out (Finset.mem_sdiff.mp later).1
    · intro k taken
      obtain ⟨inside, out⟩ := Finset.mem_sdiff.mp taken
      exact all k (Finset.mem_sdiff.mpr ⟨first.fewer inside, out⟩)
  · rintro ⟨early, late⟩ k taken
    obtain ⟨inside, out⟩ := Finset.mem_sdiff.mp taken
    by_cases half : k ∈ mid
    · exact late k (Finset.mem_sdiff.mpr ⟨half, out⟩)
    · obtain ⟨v, held⟩ := Option.ne_none_iff_exists'.mp
        (early k (Finset.mem_sdiff.mpr ⟨inside, half⟩))
      rw [second.keeps k v held]
      exact Option.some_ne_none v

theorem trans (first : Takes needed mid c c') (second : Takes mid left c' c'') :
    Takes needed left c c'' := by
  have sum := crowd_sdiff first.fewer second.fewer
  refine ⟨second.fewer.trans first.fewer, fun s => (second.cap s).trans (first.cap s),
    fun k v held => second.keeps k v (first.keeps k v held), ?_, ?_, ?_⟩
  · intro k v held
    rcases second.origin k v held with before | later
    · rcases first.origin k v before with old | early
      · exact Or.inl old
      · obtain ⟨inside, out⟩ := Finset.mem_sdiff.mp early
        exact Or.inr (Finset.mem_sdiff.mpr ⟨inside, fun still => out (second.fewer still)⟩)
    · obtain ⟨inside, out⟩ := Finset.mem_sdiff.mp later
      exact Or.inr (Finset.mem_sdiff.mpr ⟨first.fewer inside, out⟩)
  · intro all s
    obtain ⟨early, late⟩ := (first.allIn_iff second).mp all
    rw [second.grown late s, first.grown early s, sum s, Nat.add_assoc]
  · intro room
    have early := first.fits fun s => by
      have := room s
      rw [sum s] at this
      omega
    refine (first.allIn_iff second).mpr ⟨early, second.fits fun s => ?_⟩
    have := room s
    rw [sum s] at this
    rw [first.grown early s, first.cap s]
    omega

/-- All are in iff there was room for them. -/
theorem allIn_iff_room (takes : Takes needed left c c') :
    AllIn needed left c' ↔ ∀ s, c.load s + crowd (needed \ left) s ≤ c.cap s := by
  constructor
  · intro all s
    rw [← takes.grown all s, ← takes.cap s]
    exact c'.load_le s
  · exact takes.fits

/-- One key that comes by. -/
theorem insertPrewarm {e : UtxoCache.Entry} (inside : e.1 ∈ needed) (missing : Missing needed c) :
    Takes needed (needed.erase e.1) c (c.insertPrewarm e.1 e.2).2 := by
  have taken : needed \ needed.erase e.1 = {e.1} := by
    rw [Finset.sdiff_erase_self inside]
  have absent := missing e.1 inside
  by_cases room : c.load (shardIndex e.1) < c.cap (shardIndex e.1)
  · rw [insertPrewarm_of_room room]
    refine ⟨Finset.erase_subset _ _, fun s => cap_insert s, ?_, ?_, ?_, ?_⟩
    · intro k v held
      rw [peek_insert_of_room absent room, if_neg]
      · exact held
      · rintro rfl
        rw [absent] at held
        cases held
    · intro k v held
      rw [taken, Finset.mem_singleton]
      rw [peek_insert_of_room absent room] at held
      by_cases same : k = e.1
      · exact Or.inr same
      · rw [if_neg same] at held
        exact Or.inl held
    · intro _ s
      rw [load_insert_of_room absent room, taken, crowd_singleton]
    · intro _ k among
      rw [taken, Finset.mem_singleton] at among
      rw [peek_insert_of_room absent room, if_pos among]
      exact Option.some_ne_none _
  · rw [insertPrewarm_of_full room]
    refine ⟨Finset.erase_subset _ _, fun _ => rfl, fun _ _ => id, fun _ _ => Or.inl, ?_, ?_⟩
    · intro all
      have held := all e.1 (by rw [taken]; exact Finset.mem_singleton_self _)
      exact absurd absent held
    · intro fits
      have own := fits (shardIndex e.1)
      rw [taken, crowd_singleton, if_pos rfl] at own
      exact absurd own room

end Takes

/-! ## A block -/

section Blocks

variable {needed : Finset UtxoKey} {found : ℕ} {c : UtxoCache}

/-- The keys of entries. -/
def keysOf (entries : List UtxoCache.Entry) : Finset UtxoKey := (entries.map Prod.fst).toFinset

theorem prewarmNeeded_of_mem {e : UtxoCache.Entry} (inside : e.1 ∈ needed)
    (entries : List UtxoCache.Entry) :
    prewarmNeeded (e :: entries) needed found c =
      prewarmNeeded entries (needed.erase e.1) (found + 1) (c.insertPrewarm e.1 e.2).2 := by
  unfold prewarmNeeded
  rw [List.foldl_cons]
  simp only [inside, if_true]

theorem prewarmNeeded_of_notMem {e : UtxoCache.Entry} (outside : e.1 ∉ needed)
    (entries : List UtxoCache.Entry) :
    prewarmNeeded (e :: entries) needed found c = prewarmNeeded entries needed found c := by
  unfold prewarmNeeded
  rw [List.foldl_cons]
  simp only [outside, if_false]

theorem keysOf_cons (e : UtxoCache.Entry) (entries : List UtxoCache.Entry) :
    keysOf (e :: entries) = insert e.1 (keysOf entries) := by
  unfold keysOf
  rw [List.map_cons, List.toFinset_cons]

/-- The keys that come by are taken off the list, and counted. -/
theorem prewarmNeeded_list (entries : List UtxoCache.Entry) (needed : Finset UtxoKey) (found : ℕ)
    (c : UtxoCache) :
    (prewarmNeeded entries needed found c).1 = needed \ keysOf entries ∧
      (prewarmNeeded entries needed found c).2.1 =
        found + (needed ∩ keysOf entries).card := by
  induction entries generalizing needed found c with
  | nil => simp [prewarmNeeded, keysOf]
  | cons e entries ih =>
    rw [keysOf_cons]
    by_cases inside : e.1 ∈ needed
    · obtain ⟨list, count⟩ := ih (needed.erase e.1) (found + 1) (c.insertPrewarm e.1 e.2).2
      have taken : needed ∩ insert e.1 (keysOf entries) =
          insert e.1 (needed.erase e.1 ∩ keysOf entries) := by
        rw [Finset.inter_insert_of_mem inside, Finset.insert_inter_distrib,
          Finset.insert_inter_distrib, Finset.insert_erase inside, Finset.insert_eq_self.mpr inside]
      have apart : e.1 ∉ needed.erase e.1 ∩ keysOf entries := fun both =>
        Finset.notMem_erase e.1 needed (Finset.mem_inter.mp both).1
      rw [prewarmNeeded_of_mem inside, list, count, taken, Finset.card_insert_of_notMem apart,
        Finset.sdiff_insert, Finset.erase_sdiff_comm]
      exact ⟨rfl, by omega⟩
    · rw [prewarmNeeded_of_notMem inside, Finset.sdiff_insert_of_notMem inside,
        Finset.inter_insert_of_notMem inside]
      exact ih needed found c

theorem takes_prewarmNeeded (entries : List UtxoCache.Entry) (found : ℕ)
    (missing : Missing needed c) :
    Takes needed (needed \ keysOf entries) c (prewarmNeeded entries needed found c).2.2 := by
  induction entries generalizing needed found c with
  | nil =>
    have none : needed \ keysOf [] = needed := by simp [keysOf]
    rw [none]
    exact .refl needed c
  | cons e entries ih =>
    by_cases inside : e.1 ∈ needed
    · rw [prewarmNeeded_of_mem inside, keysOf_cons]
      have first := Takes.insertPrewarm inside missing
      have same : needed \ insert e.1 (keysOf entries) = needed.erase e.1 \ keysOf entries := by
        rw [Finset.sdiff_insert, Finset.erase_sdiff_comm]
      rw [same]
      exact first.trans (ih (found + 1) (first.missing missing))
    · rw [prewarmNeeded_of_notMem inside, keysOf_cons]
      have same : needed \ insert e.1 (keysOf entries) = needed \ keysOf entries :=
        Finset.sdiff_insert_of_notMem inside _
      rw [same]
      exact ih found missing

end Blocks

/-! ## A walk over blocks -/

/-- The walk over the blocks of a range, each given by its entries: the keys that are left, the
number of those found, and the cache. -/
def walk : List (List UtxoCache.Entry) → Finset UtxoKey → ℕ → UtxoCache →
    Finset UtxoKey × ℕ × UtxoCache
  | [], needed, found, c => (needed, found, c)
  | entries :: rest, needed, found, c =>
    if needed = ∅ then (needed, found, c)
    else if ! c.hasCapacity then (needed, found, c)
    else
      let (needed, found, c) := prewarmNeeded entries needed found c
      walk rest needed found c

/-- The needed outputs of a range fit: as long as a shard has room, those of the next block fit in
their shards. -/
def Fits (cap : Fin numShards → ℕ) : (Fin numShards → ℕ) → Finset UtxoKey →
    List (List UtxoCache.Entry) → Prop
  | _, _, [] => True
  | load, needed, entries :: rest =>
    (∃ s, load s < cap s) →
      (∀ s, load s + crowd (needed ∩ keysOf entries) s ≤ cap s) ∧
        Fits cap (fun s => load s + crowd (needed ∩ keysOf entries) s)
          (needed \ keysOf entries) rest

instance (cap : Fin numShards → ℕ) : (load : Fin numShards → ℕ) → (needed : Finset UtxoKey) →
    (blocks : List (List UtxoCache.Entry)) → Decidable (Fits cap load needed blocks)
  | _, _, [] => inferInstanceAs (Decidable True)
  | load, needed, entries :: rest =>
    have := instDecidableFits cap (fun s => load s + crowd (needed ∩ keysOf entries) s)
      (needed \ keysOf entries) rest
    inferInstanceAs (Decidable (_ → _ ∧ _))

section Walk

variable {needed : Finset UtxoKey} {found : ℕ} {c : UtxoCache}

theorem hasCapacity_iff : c.hasCapacity = true ↔ ∃ s, c.load s < c.cap s := by
  unfold hasCapacity
  rw [List.any_eq_true]
  constructor
  · rintro ⟨s, _, room⟩
    exact ⟨s, of_decide_eq_true room⟩
  · rintro ⟨s, room⟩
    exact ⟨s, List.mem_finRange s, decide_eq_true room⟩

/-- Nothing needed always fits. -/
theorem fits_empty {cap load : Fin numShards → ℕ} (le : ∀ s, load s ≤ cap s)
    (blocks : List (List UtxoCache.Entry)) : Fits cap load ∅ blocks := by
  induction blocks with
  | nil => trivial
  | cons entries rest ih =>
    intro _
    simp only [Finset.empty_inter, Finset.empty_sdiff, crowd_empty, Nat.add_zero]
    exact ⟨le, ih⟩

theorem walk_empty (blocks : List (List UtxoCache.Entry)) :
    walk blocks ∅ found c = (∅, found, c) := by
  cases blocks with
  | nil => rfl
  | cons => exact if_pos rfl

theorem walk_full (full : c.hasCapacity = false) (blocks : List (List UtxoCache.Entry)) :
    walk blocks needed found c = (needed, found, c) := by
  cases blocks with
  | nil => rfl
  | cons =>
    unfold walk
    rw [full]
    exact ite_self _

theorem takes_walk (blocks : List (List UtxoCache.Entry)) (found : ℕ)
    (missing : Missing needed c) :
    Takes needed (walk blocks needed found c).1 c (walk blocks needed found c).2.2 := by
  induction blocks generalizing needed found c with
  | nil => exact .refl needed c
  | cons entries rest ih =>
    unfold walk
    split
    · exact .refl needed c
    split
    · exact .refl needed c
    · have block := takes_prewarmNeeded entries found missing
      rw [← (prewarmNeeded_list entries needed found c).1] at block
      exact block.trans (ih _ (block.missing missing))

/-- Every key taken off the list is counted. -/
theorem found_walk (blocks : List (List UtxoCache.Entry)) (found : ℕ)
    (missing : Missing needed c) :
    (walk blocks needed found c).2.1 =
      found + (needed \ (walk blocks needed found c).1).card := by
  induction blocks generalizing needed found c with
  | nil =>
    show found = found + (needed \ needed).card
    rw [Finset.sdiff_self, Finset.card_empty, Nat.add_zero]
  | cons entries rest ih =>
    unfold walk
    split
    · rw [Finset.sdiff_self, Finset.card_empty, Nat.add_zero]
    split
    · rw [Finset.sdiff_self, Finset.card_empty, Nat.add_zero]
    · obtain ⟨list, count⟩ := prewarmNeeded_list entries needed found c
      have block := takes_prewarmNeeded entries found missing
      rw [← list] at block
      have later := block.missing missing
      have tail := ih (prewarmNeeded entries needed found c).2.1 later
      have least := (takes_walk rest (prewarmNeeded entries needed found c).2.1 later).fewer
      have taken : (needed ∩ keysOf entries).card =
          (needed \ (prewarmNeeded entries needed found c).1).card := by
        rw [list, Finset.sdiff_sdiff_self_left]
      simp only
      rw [tail, ← card_sdiff_trans block.fewer least, ← taken, ← Nat.add_assoc, ← count]

theorem allIn_walk_iff (blocks : List (List UtxoCache.Entry)) (found : ℕ)
    (missing : Missing needed c) :
    AllIn needed (walk blocks needed found c).1 (walk blocks needed found c).2.2 ↔
      Fits c.cap c.load needed blocks := by
  induction blocks generalizing needed found c with
  | nil =>
    have all := (Takes.refl needed c).fits fun s => by
      rw [Finset.sdiff_self, crowd_empty, Nat.add_zero]
      exact c.load_le s
    exact iff_of_true all trivial
  | cons entries rest ih =>
    unfold walk
    have stops : AllIn needed needed c := by
      intro k taken
      rw [Finset.sdiff_self] at taken
      exact absurd taken (Finset.notMem_empty k)
    split
    case isTrue none =>
      subst none
      exact iff_of_true stops (fits_empty c.load_le _)
    case isFalse =>
    split
    case isTrue full =>
      apply iff_of_true stops
      intro room
      rw [hasCapacity_iff.mpr room] at full
      cases full
    case isFalse some =>
      obtain ⟨list, count⟩ := prewarmNeeded_list entries needed found c
      have block := takes_prewarmNeeded entries found missing
      rw [← list] at block
      have later := block.missing missing
      have rest := takes_walk rest (prewarmNeeded entries needed found c).2.1 later
      have taken : needed \ (prewarmNeeded entries needed found c).1 = needed ∩ keysOf entries := by
        rw [list, Finset.sdiff_sdiff_self_left]
      simp only
      rw [block.allIn_iff rest, ih _ later]
      have room := block.allIn_iff_room
      rw [taken] at room
      have capacity := hasCapacity_iff.mp (by simpa using some)
      have caps := funext block.cap
      constructor
      · rintro ⟨early, late⟩ _
        have loads := funext (block.grown early)
        rw [taken] at loads
        rw [caps, loads, list] at late
        exact ⟨room.mp early, late⟩
      · intro fits
        obtain ⟨early, late⟩ := fits capacity
        have all := room.mpr early
        have loads := funext (block.grown all)
        rw [taken] at loads
        refine ⟨all, ?_⟩
        rw [caps, loads, list]
        exact late

end Walk

/-! ## The accounts of a walk -/

/-- The accounts are right: the cache keeps its entries, the count is that of the needed keys newly
in the cache, and a needed key is off the list only if the cache has it. -/
structure Accounts (needed left : Finset UtxoKey) (found : ℕ) (cache cache' : UtxoCache) :
    Prop where
  keeps : ∀ k v, cache.peek k = some v → cache'.peek k = some v
  counts : found = (needed.filter fun k => cache'.contains k ∧ ¬ cache.contains k).card
  satisfied : ∀ k ∈ needed \ left, cache'.contains k

section Accounts

variable {needed left : Finset UtxoKey} {cache cache' : UtxoCache}

theorem contains_iff {k : UtxoKey} : cache.contains k ↔ cache.peek k ≠ none := by
  unfold contains
  rw [← Option.isSome_iff_ne_none]

/-- What is newly in the cache of the needed keys has been taken off the list. -/
theorem new_subset (missing : Missing needed cache) (takes : Takes needed left cache cache') :
    (needed.filter fun k => cache'.contains k ∧ ¬ cache.contains k) ⊆ needed \ left := by
  intro k new
  obtain ⟨inside, held, _⟩ := Finset.mem_filter.mp new
  refine Finset.mem_sdiff.mpr ⟨inside, fun still => ?_⟩
  exact contains_iff.mp held (takes.missing missing k still)

/-- The accounts are right iff all keys taken off the list are in. -/
theorem accounts_iff_allIn (missing : Missing needed cache)
    (takes : Takes needed left cache cache') :
    Accounts needed left (needed \ left).card cache cache' ↔ AllIn needed left cache' := by
  constructor
  · intro accounts k taken
    exact contains_iff.mp (accounts.satisfied k taken)
  · intro all
    refine ⟨takes.keeps, ?_, fun k taken => contains_iff.mpr (all k taken)⟩
    congr 1
    apply Finset.Subset.antisymm ?_ (new_subset missing takes)
    intro k taken
    have inside := (Finset.mem_sdiff.mp taken).1
    refine Finset.mem_filter.mpr ⟨inside, contains_iff.mpr (all k taken), fun held => ?_⟩
    exact contains_iff.mp held (missing k inside)

end Accounts

/-! ## The walk of the loader -/

namespace SingleBlockLoader

variable (crate : AddressCrate) (network : Network)

/-- The blocks the loader has on the way down from a height, at most so many. -/
def blocksBack : ℕ → ℕ → SingleBlockLoader → List Block
  | 0, _, _ => []
  | remaining + 1, height, l =>
    if height = 0 then []
    else
      match l.loadBlock height with
      | .ok (some located, l) => located.block :: blocksBack remaining (height - 1) l
      | _ => []

/-- The keys a targeted walk looks for, and the entries of the blocks on its way. -/
def targets (l : SingleBlockLoader) (cache : UtxoCache)
    (startHeight scanAhead maxBackward endHeight : ℕ) :
    Checked LoaderError (Finset UtxoKey × List (List UtxoCache.Entry)) :=
  if startHeight = 0 then pure (∅, [])
  else do
    let scanEnd := scanEnd startHeight scanAhead endHeight
    let l ← l.preloadFullRange startHeight scanEnd
    let (needed, _, l) ←
      scanForward cache (List.range' startHeight (scanEnd + 1 - startHeight)) ∅ 0 l
    if needed = ∅ then pure (∅, [])
    else do
      let l ← l.preloadFullRange (startHeight - maxBackward) (startHeight - 1)
      pure (needed, (blocksBack maxBackward (startHeight - 1) l).map (prewarmEntries crate network))

variable {crate network} {l l' : SingleBlockLoader} {cache cache' : UtxoCache}
variable {needed needed' : Finset UtxoKey}

/-- The keys a scan collects are missing. -/
theorem missing_scanForward {heights : List ℕ} {scanned scanned' : ℕ}
    (missing : Missing needed cache)
    (ran : scanForward cache heights needed scanned l = .ok (needed', scanned', l')) :
    Missing needed' cache := by
  induction heights generalizing needed scanned l with
  | nil =>
    cases ran
    exact missing
  | cons height rest ih =>
    obtain ⟨⟨data, l₁⟩, _, rest⟩ := Checked.bind_eq_ok.mp ran
    cases data with
    | none => exact ih missing rest
    | some located =>
      apply ih _ rest
      intro k among
      rcases Finset.mem_union.mp among with old | new
      · exact missing k old
      · obtain ⟨_, absent⟩ := List.mem_filter.mp (List.mem_toFinset.mp new)
        simpa [contains] using absent

/-- The loop that loads the blocks is the walk over them. -/
theorem prewarmBackTargeted_eq {remaining loaded loaded' found found' height : ℕ}
    (ran : prewarmBackTargeted crate network remaining loaded found height needed l cache =
      .ok (loaded', found', l', cache')) :
    (found', cache') = (walk ((blocksBack remaining height l).map (prewarmEntries crate network))
      needed found cache).2 := by
  induction remaining generalizing loaded found height needed l cache with
  | zero =>
    cases ran
    rfl
  | succ remaining ih =>
    unfold prewarmBackTargeted at ran
    split at ran
    case isTrue stops =>
      cases ran
      rcases stops with none | bottom
      · rw [none, walk_empty]
      · subst bottom
        rfl
    case isFalse goes =>
    rw [not_or] at goes
    split at ran
    case isTrue full =>
      cases ran
      rw [walk_full (by simpa using full)]
    case isFalse room =>
    obtain ⟨⟨data, l₁⟩, load, rest⟩ := Checked.bind_eq_ok.mp ran
    unfold blocksBack
    rw [if_neg goes.2, load]
    cases data with
    | none =>
      cases rest
      rfl
    | some located =>
      rw [ih rest, List.map_cons, walk, if_neg goes.1, if_neg room]
      rfl

/-- A targeted walk is the walk over the blocks on its way for the keys it looks for. -/
theorem prewarmCacheTargeted_eq
    {startHeight scanAhead maxBackward endHeight scanned loaded found : ℕ}
    (ran : prewarmCacheTargeted crate network l cache startHeight scanAhead maxBackward endHeight =
      .ok ((scanned, loaded, found), l', cache')) :
    ∃ needed blocks left,
      targets crate network l cache startHeight scanAhead maxBackward endHeight =
        .ok (needed, blocks) ∧
      walk blocks needed 0 cache = (left, found, cache') ∧ Missing needed cache := by
  have empty : Missing ∅ cache := fun k none => absurd none (Finset.notMem_empty k)
  unfold prewarmCacheTargeted at ran
  unfold targets
  split at ran
  case isTrue genesis =>
    cases ran
    rw [if_pos genesis]
    exact ⟨∅, [], ∅, rfl, rfl, empty⟩
  case isFalse above =>
  rw [if_neg above]
  obtain ⟨l₁, preload, rest⟩ := Checked.bind_eq_ok.mp ran
  obtain ⟨⟨needed, n, l₂⟩, scan, rest⟩ := Checked.bind_eq_ok.mp rest
  by_cases none : needed = ∅
  · simp only [none, if_true] at rest
    cases rest
    refine ⟨∅, [], ∅, Checked.bind_eq_ok.mpr ⟨l₁, preload, Checked.bind_eq_ok.mpr ⟨_, scan, ?_⟩⟩,
      rfl, empty⟩
    simp only [none, if_true]
    rfl
  · simp only [none, if_false] at rest
    obtain ⟨l₃, reload, rest⟩ := Checked.bind_eq_ok.mp rest
    obtain ⟨⟨loaded', found', l₄, cache₁⟩, back, done⟩ := Checked.bind_eq_ok.mp rest
    cases done
    refine ⟨needed, _, _, Checked.bind_eq_ok.mpr ⟨l₁, preload,
      Checked.bind_eq_ok.mpr ⟨_, scan, ?_⟩⟩, Prod.ext rfl (prewarmBackTargeted_eq back).symm,
      missing_scanForward empty scan⟩
    simp only [none, if_false]
    exact Checked.bind_eq_ok.mpr ⟨l₃, reload, rfl⟩

/-- **A targeted walk accounts exactly** iff the needed outputs on its way fit: as long as a shard
has room, those of the next block fit into their shards. -/
theorem prewarmCacheTargeted_accounts_iff
    {startHeight scanAhead maxBackward endHeight scanned loaded found : ℕ}
    (ran : prewarmCacheTargeted crate network l cache startHeight scanAhead maxBackward endHeight =
      .ok ((scanned, loaded, found), l', cache')) :
    ∃ needed blocks left,
      targets crate network l cache startHeight scanAhead maxBackward endHeight =
        .ok (needed, blocks) ∧
      walk blocks needed 0 cache = (left, found, cache') ∧
      (Accounts needed left found cache cache' ↔ Fits cache.cap cache.load needed blocks) := by
  obtain ⟨needed, blocks, left, aims, walked, missing⟩ := prewarmCacheTargeted_eq ran
  refine ⟨needed, blocks, left, aims, walked, ?_⟩
  have takes := takes_walk blocks 0 missing
  have count := found_walk blocks 0 missing
  have all := allIn_walk_iff blocks 0 missing
  simp only [walked, Nat.zero_add] at takes count all
  rw [count, ← all]
  exact accounts_iff_allIn missing takes

end SingleBlockLoader

/-! ## A full shard -/

namespace Sample

/-- Two outputs of one shard. -/
def lower : UtxoKey := ⟨0x100, 0⟩

def upper : UtxoKey := ⟨0x200, 0⟩

/-- Two blocks that pay these outputs, and one that spends them. -/
def shelved : UInt8 → Block
  | 1 => (block 1 101 100 [coinbase 0x100 50 burnScript]).block
  | 2 => (block 2 102 101 [coinbase 0x200 50 burnScript]).block
  | _ => (block 3 103 102 [coinbase 0x300 50 burnScript, spend 0x400 lower 40 eaterScript,
      spend 0x500 upper 40 eaterScript]).block

/-- The three blocks, one behind the other in a file. -/
def shelf : SingleBlockLoader where
  blocksDir := "blocks"
  magic := [0xf9, 0xbe, 0xb4, 0xd9]
  files _ := some ([1, 2, 3].flatMap fun h => [0xf9, 0xbe, 0xb4, 0xd9, 1, 0, 0, 0, h])
  deserialize
    | [h] => .ok (shelved h)
    | _ => .error "unexpected end of file"
  reader := ⟨[], none, List.nodup_nil⟩
  blockIndex := ((AList.singleton 1 ⟨0, 8, ""⟩).insert 2 ⟨0, 17, ""⟩).insert 3 ⟨0, 26, ""⟩

end Sample

namespace SingleBlockLoader

/-- With room for one output in each shard: both are counted and off the list, and one is not in the
cache. -/
theorem refused_and_found : ∃ l' cache' blocks,
    prewarmCacheTargeted Sample.crate .Bitcoin Sample.shelf (.new 16) 3 0 3 3 =
        .ok ((1, 2, 2), l', cache') ∧
      targets Sample.crate .Bitcoin Sample.shelf (.new 16) 3 0 3 3 =
        .ok ({Sample.lower, Sample.upper}, blocks) ∧
      walk blocks {Sample.lower, Sample.upper} 0 (.new 16) = (∅, 2, cache') ∧
      cache'.contains Sample.lower = false ∧
      ¬ Accounts {Sample.lower, Sample.upper} ∅ 2 (.new 16) cache' := by
  refine ⟨_, _, _, rfl, rfl, rfl, rfl, ?_⟩
  intro accounts
  have held := accounts.satisfied Sample.lower
    (Finset.mem_sdiff.mpr ⟨Finset.mem_insert_self _ _, Finset.notMem_empty _⟩)
  cases held

/-- With room for two outputs in each shard both are in the cache. -/
theorem prewarmCacheTargeted_accounts_iff_sample : ∃ l' cache' left,
    prewarmCacheTargeted Sample.crate .Bitcoin Sample.shelf (.new 32) 3 0 3 3 =
        .ok ((1, 2, 2), l', cache') ∧
      Accounts {Sample.lower, Sample.upper} left 2 (.new 32) cache' := by
  have ran : prewarmCacheTargeted Sample.crate .Bitcoin Sample.shelf (.new 32) 3 0 3 3 =
      .ok ((1, 2, 2), _, _) := rfl
  obtain ⟨needed, blocks, left, aims, _, iff⟩ := prewarmCacheTargeted_accounts_iff ran
  have same := aims.symm.trans (show _ = .ok ({Sample.lower, Sample.upper}, _) from rfl)
  cases same
  exact ⟨_, _, left, rfl, iff.mpr (by decide +kernel)⟩

end SingleBlockLoader

end ChainGraph

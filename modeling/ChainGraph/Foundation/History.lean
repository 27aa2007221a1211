import ChainGraph.Foundation.Lru

/-!
# The history of a bounded cache

The uses of a cache since it was new, the latest first: what was stored, what was hit, what was
removed. From them alone follows what a key can answer, namely nothing or the value stored for it
last; and when it must answer, namely as long as fewer other keys were used since its own last use
than the cache has room for.
-/

namespace ChainGraph.Foundation.Lru

variable {K V : Type} [DecidableEq K]

/-- A use of a cache. A lookup that finds nothing is none. -/
inductive Use (K V : Type) where
  | store (k : K) (v : V)
  | hit (k : K)
  | remove (k : K)
deriving DecidableEq, Repr

def Use.key : Use K V → K
  | store k _ => k
  | hit k => k
  | remove k => k

/-- The value stored last for a key and not removed since. -/
def lastStored (k : K) : List (Use K V) → Option V
  | [] => none
  | .store k' v :: us => if k' = k then some v else lastStored k us
  | .hit _ :: us => lastStored k us
  | .remove k' :: us => if k' = k then none else lastStored k us

/-- The other keys stored or hit since a key was stored or hit itself. -/
def usedSince (k : K) : List (Use K V) → Finset K
  | [] => ∅
  | .store k' _ :: us => if k' = k then ∅ else insert k' (usedSince k us)
  | .hit k' :: us => if k' = k then ∅ else insert k' (usedSince k us)
  | .remove _ :: us => usedSince k us

/-- The uses that lead from a new cache to this one. -/
inductive History (cap : ℕ) : List (Use K V) → Lru K V → Prop
  | new (pos : 0 < cap) : History cap [] (.new cap pos)
  | store {us : List (Use K V)} {c : Lru K V} (before : History cap us c) (k : K) (v : V) :
    History cap (.store k v :: us) (c.put k v)
  | hit {us : List (Use K V)} {c : Lru K V} {k : K} (before : History cap us c)
      (present : k ∈ c.keys) : History cap (.hit k :: us) (c.touch k)
  | remove {us : List (Use K V)} {c : Lru K V} (before : History cap us c) (k : K) :
    History cap (.remove k :: us) (c.pop k)

/-- The entries are the last values of their keys, those in front of an entry were used since it
was, and a key that has a last value and no entry was crowded out. -/
structure Recent (c : Lru K V) (last : K → Option V) (used : K → Finset K) : Prop where
  stored : ∀ e ∈ c.entries, last e.1 = some e.2
  order : c.entries.Pairwise fun f e => f.1 ∈ used e.1
  crowded : ∀ k v, last k = some v → k ∉ c.keys → c.cap ≤ (used k).card

section Steps

variable {c : Lru K V} {last : K → Option V} {used : K → Finset K}

omit [DecidableEq K] in
theorem recent_new (cap : ℕ) (pos : 0 < cap) (used : K → Finset K) :
    Recent (.new cap pos : Lru K V) (fun _ => none) used where
  stored _ mem := absurd mem List.not_mem_nil
  order := List.Pairwise.nil
  crowded _ _ some := by cases some

/-- A key in front: every other key has one more key used since. -/
theorem Recent.put (h : Recent c last used) (k : K) (v : V) :
    Recent (c.put k v) (Function.update last k (some v))
      (fun k' => if k = k' then ∅ else insert k (used k')) := by
  refine ⟨fun e mem => ?_, ?_, fun k' w stored absent => ?_⟩
  · rcases mem_put mem with rfl | ⟨old, ne⟩
    · exact Function.update_self ..
    · rw [Function.update_of_ne ne]
      exact h.stored e old
  · apply List.Pairwise.sublist (List.take_sublist c.cap ((k, v) :: without k c.entries))
    apply List.Pairwise.cons
    · intro e mem
      rw [if_neg (Ne.symm (mem_without.mp mem).2)]
      exact Finset.mem_insert_self ..
    · apply (h.order.sublist (without_sublist k c.entries)).imp_of_mem
      intro f e _ mem inside
      rw [if_neg (Ne.symm (mem_without.mp mem).2)]
      exact Finset.mem_insert_of_mem inside
  · have other : k' ≠ k := by
      rintro rfl
      exact absent (List.mem_map_of_mem (mem_put_self c k' v))
    rw [Function.update_of_ne other] at stored
    rw [if_neg (Ne.symm other), cap_put]
    by_cases before : k' ∈ c.keys
    · -- the key was there, so the entries in front of it fill the cache
      obtain ⟨e, mem, rfl⟩ := List.mem_map.mp before
      obtain ⟨l, m, split⟩ := List.append_of_mem mem
      obtain ⟨keys, stays, _⟩ := put_split (f := (k, v)) split (Ne.symm other)
      have full : c.cap ≤ ((k, v) :: without k l).length := by
        by_contra room
        obtain ⟨m', here⟩ := stays (Nat.lt_of_not_le room)
        apply absent
        show e.1 ∈ (c.put k v).entries.map Prod.fst
        rw [here]
        simp
      have distinct : (((k, v) :: without k l).map Prod.fst).Nodup :=
        nodup_cons_without (nodup_entries_split split).1 k v
      have since : (l.map Prod.fst).toFinset ⊆ used e.1 := by
        intro x mem
        obtain ⟨f, inFront, rfl⟩ := List.mem_map.mp (List.mem_toFinset.mp mem)
        have order := h.order
        rw [split, List.pairwise_append] at order
        exact order.2.2 f inFront e List.mem_cons_self
      have count := List.toFinset_card_of_nodup distinct
      rw [keys, List.length_map] at count
      calc c.cap ≤ (insert k (l.map Prod.fst).toFinset).card := by rw [count]; exact full
        _ ≤ (insert k (used e.1)).card := Finset.card_le_card (Finset.insert_subset_insert k since)
    · exact (h.crowded k' w stored before).trans (Finset.card_le_card (Finset.subset_insert ..))

theorem Recent.pop (h : Recent c last used) (k : K) :
    Recent (c.pop k) (Function.update last k none) used := by
  refine ⟨fun e mem => ?_, h.order.sublist (without_sublist k c.entries),
    fun k' w stored absent => ?_⟩
  · obtain ⟨old, ne⟩ := mem_pop.mp mem
    rw [Function.update_of_ne ne]
    exact h.stored e old
  · by_cases same : k' = k
    · rw [same, Function.update_self] at stored
      cases stored
    · rw [Function.update_of_ne same] at stored
      refine h.crowded k' w stored fun before => absent ?_
      obtain ⟨e, mem, rfl⟩ := List.mem_map.mp before
      exact List.mem_map_of_mem (mem_pop.mpr ⟨mem, same⟩)

/-- A hit stores the value again. -/
theorem touch_eq_put {k : K} {v : V} (mem : (k, v) ∈ c.entries) : c.touch k = c.put k v := by
  unfold touch
  cases found : c.entries.find? (·.1 = k) with
  | none =>
    have none := List.find?_eq_none.mp found (k, v) mem
    simp at none
  | some e =>
    have key : e.1 = k := by simpa using List.find?_some found
    have inside : (k, e.2) ∈ c.entries := key ▸ List.mem_of_find?_eq_some found
    simp only [eq_of_mem inside mem]

theorem touch_of_absent {k : K} (absent : k ∉ c.keys) : c.touch k = c := by
  unfold touch
  cases found : c.entries.find? (·.1 = k) with
  | none => rfl
  | some e =>
    have key : e.1 = k := by simpa using List.find?_some found
    have mem := List.mem_of_find?_eq_some found
    exact absurd (key ▸ List.mem_map_of_mem mem) absent

/-- Removing a key that is not there changes nothing. -/
theorem pop_of_absent {k : K} (absent : k ∉ c.keys) : c.pop k = c := by
  have same : without k c.entries = c.entries := by
    apply without_of_forall_ne
    rintro e mem rfl
    exact absent (List.mem_map_of_mem mem)
  unfold pop
  simp only [same]

end Steps

namespace History

variable {cap : ℕ} {us : List (Use K V)} {c : Lru K V}

theorem cap_eq (h : History cap us c) : c.cap = cap := by
  induction h with
  | new pos => rfl
  | store _ k v ih => exact ih
  | hit _ present ih => exact (cap_touch ..).trans ih
  | remove _ k ih => exact ih

/-- **What a history says** of the cache it leads to. -/
theorem recent (h : History cap us c) :
    Recent c (fun k => lastStored k us) (fun k => usedSince k us) := by
  induction h with
  | new pos => exact recent_new cap pos _
  | @store us c _ k v ih =>
    have last : (fun k' => lastStored k' (.store k v :: us)) =
        Function.update (fun k' => lastStored k' us) k (some v) := by
      funext k'
      by_cases same : k' = k
      · rw [same, Function.update_self]
        exact if_pos rfl
      · rw [Function.update_of_ne same]
        exact if_neg (Ne.symm same)
    rw [last]
    exact ih.put k v
  | @hit us c k _ present ih =>
    obtain ⟨e, mem, rfl⟩ := List.mem_map.mp present
    have last : (fun k' => lastStored k' (.hit e.1 :: us)) =
        Function.update (fun k' => lastStored k' us) e.1 (some e.2) := by
      rw [← ih.stored e mem]
      exact (Function.update_eq_self ..).symm
    rw [last, touch_eq_put mem]
    exact ih.put e.1 e.2
  | @remove us c _ k ih =>
    have last : (fun k' => lastStored k' (.remove k :: us)) =
        Function.update (fun k' => lastStored k' us) k none := by
      funext k'
      by_cases same : k' = k
      · rw [same, Function.update_self]
        exact if_pos rfl
      · rw [Function.update_of_ne same]
        exact if_neg (Ne.symm same)
    rw [last]
    exact ih.pop k

/-- What a key answers is the value stored for it last. -/
theorem lastStored_of_peek (h : History cap us c) {k : K} {v : V} (found : c.peek k = some v) :
    lastStored k us = some v :=
  h.recent.stored (k, v) (peek_eq_some.mp found)

/-- It answers unless as many other keys were used since as there is room for. -/
theorem peek_of_few (h : History cap us c) {k : K} {v : V} (stored : lastStored k us = some v)
    (few : (usedSince k us).card < cap) : c.peek k = some v := by
  cases found : c.peek k with
  | none =>
    have crowded := h.recent.crowded k v stored (peek_eq_none.mp found)
    rw [h.cap_eq] at crowded
    omega
  | some w => rw [← h.lastStored_of_peek found, stored]

end History

end ChainGraph.Foundation.Lru

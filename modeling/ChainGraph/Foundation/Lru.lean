import Mathlib.Data.Finset.Card
import Mathlib.Data.List.Nodup
import Mathlib.Tactic.Common

/-!
# A bounded cache with least-recently-used eviction

A cache is the list of its entries, most recently used first. Its three laws (distinct keys, a
positive capacity, no more entries than the capacity) are fields, so every operation returns a
lawful cache.

`put` stores at the front and drops what no longer fits, `touch` moves a hit to the front, `pop`
removes. What a lookup can answer after each of them is stated by membership of `entries`. The
retention law (`mem_puts_iff`) is exact: an entry is still there after a list of stores under
other keys iff fewer distinct keys were stored since than the cache has room for.
-/

namespace ChainGraph.Foundation

variable {K V : Type} [DecidableEq K]

/-- The entries under other keys, in their order. -/
def without (k : K) (l : List (K × V)) : List (K × V) := l.filter (·.1 ≠ k)

theorem mem_without {k : K} {l : List (K × V)} {e : K × V} :
    e ∈ without k l ↔ e ∈ l ∧ e.1 ≠ k := by
  simp [without]

theorem without_sublist (k : K) (l : List (K × V)) : (without k l).Sublist l :=
  List.filter_sublist

theorem without_append (k : K) (l m : List (K × V)) :
    without k (l ++ m) = without k l ++ without k m :=
  List.filter_append ..

theorem without_cons_self (k : K) (v : V) (l : List (K × V)) :
    without k ((k, v) :: l) = without k l := by
  simp [without]

theorem without_cons_of_ne {k k' : K} (h : k ≠ k') (v : V) (l : List (K × V)) :
    without k' ((k, v) :: l) = (k, v) :: without k' l := by
  simp [without, h]

theorem nodup_cons_without {l : List (K × V)} (h : (l.map Prod.fst).Nodup) (k : K) (v : V) :
    (((k, v) :: without k l).map Prod.fst).Nodup := by
  rw [List.map_cons, List.nodup_cons]
  refine ⟨?_, ((without_sublist k l).map Prod.fst).nodup h⟩
  intro mem
  obtain ⟨e, he, same⟩ := List.mem_map.mp mem
  exact (mem_without.mp he).2 same

/-- The cache: entries with distinct keys, most recently used first, at most `cap` of them. -/
structure Lru (K V : Type) where
  cap : ℕ
  cap_pos : 0 < cap
  entries : List (K × V)
  nodup : (entries.map Prod.fst).Nodup
  len_le : entries.length ≤ cap

namespace Lru

/-- The keys present. -/
def keys (c : Lru K V) : List K := c.entries.map Prod.fst

/-- The cache without entries. -/
def new (cap : ℕ) (pos : 0 < cap) : Lru K V := ⟨cap, pos, [], List.nodup_nil, Nat.zero_le _⟩

def len (c : Lru K V) : ℕ := c.entries.length

/-- The value under a key, the order untouched. -/
def peek (c : Lru K V) (k : K) : Option V := (c.entries.find? (·.1 = k)).map Prod.snd

/-- Store a value at the front; entries beyond the capacity are dropped from the back. -/
def put (c : Lru K V) (k : K) (v : V) : Lru K V where
  cap := c.cap
  cap_pos := c.cap_pos
  entries := ((k, v) :: without k c.entries).take c.cap
  nodup := by
    rw [List.map_take]
    exact (List.take_sublist _ _).nodup (nodup_cons_without c.nodup k v)
  len_le := by simp

/-- Move the entry of a key to the front, if it is there. -/
def touch (c : Lru K V) (k : K) : Lru K V :=
  match c.entries.find? (·.1 = k) with
  | none => c
  | some (_, v) => c.put k v

/-- Remove the entry of a key. -/
def pop (c : Lru K V) (k : K) : Lru K V where
  cap := c.cap
  cap_pos := c.cap_pos
  entries := without k c.entries
  nodup := ((without_sublist k c.entries).map Prod.fst).nodup c.nodup
  len_le := (without_sublist k c.entries).length_le.trans c.len_le

/-- Store a list of entries, in order. -/
def puts (c : Lru K V) (l : List (K × V)) : Lru K V := l.foldl (fun c e => c.put e.1 e.2) c

/-! ## What a lookup answers -/

omit [DecidableEq K] in
theorem eq_of_mem {c : Lru K V} {k : K} {v w : V} (hv : (k, v) ∈ c.entries)
    (hw : (k, w) ∈ c.entries) : v = w := by
  have inj := List.inj_on_of_nodup_map c.nodup hv hw rfl
  exact congrArg Prod.snd inj

theorem peek_eq_some {c : Lru K V} {k : K} {v : V} : c.peek k = some v ↔ (k, v) ∈ c.entries := by
  unfold peek
  constructor
  · intro h
    obtain ⟨e, found, rfl⟩ := Option.map_eq_some_iff.mp h
    have key : e.1 = k := by simpa using List.find?_some found
    exact key ▸ List.mem_of_find?_eq_some found
  · intro mem
    cases found : c.entries.find? (·.1 = k) with
    | none =>
      have := List.find?_eq_none.mp found (k, v) mem
      simp at this
    | some e =>
      have key : e.1 = k := by simpa using List.find?_some found
      have he : (k, e.2) ∈ c.entries := key ▸ List.mem_of_find?_eq_some found
      simp only [Option.map_some, eq_of_mem he mem]

theorem peek_eq_none {c : Lru K V} {k : K} : c.peek k = none ↔ k ∉ c.keys := by
  rw [Option.eq_none_iff_forall_ne_some]
  constructor
  · intro none mem
    obtain ⟨e, he, rfl⟩ := List.mem_map.mp mem
    exact none e.2 (peek_eq_some.mpr he)
  · intro absent v found
    exact absent (List.mem_map.mpr ⟨_, peek_eq_some.mp found, rfl⟩)

omit [DecidableEq K] in
@[simp] theorem entries_new (cap : ℕ) (pos : 0 < cap) :
    (new cap pos : Lru K V).entries = [] := rfl

@[simp] theorem cap_put (c : Lru K V) (k : K) (v : V) : (c.put k v).cap = c.cap := rfl

@[simp] theorem cap_pop (c : Lru K V) (k : K) : (c.pop k).cap = c.cap := rfl

@[simp] theorem cap_touch (c : Lru K V) (k : K) : (c.touch k).cap = c.cap := by
  unfold touch
  split <;> rfl

@[simp] theorem cap_puts (c : Lru K V) (l : List (K × V)) : (c.puts l).cap = c.cap := by
  induction l generalizing c with
  | nil => rfl
  | cons e l ih => exact ih (c.put e.1 e.2)

theorem puts_cons (c : Lru K V) (e : K × V) (l : List (K × V)) :
    c.puts (e :: l) = (c.put e.1 e.2).puts l := rfl

theorem puts_append (c : Lru K V) (l m : List (K × V)) : c.puts (l ++ m) = (c.puts l).puts m :=
  List.foldl_append ..

theorem mem_put_self (c : Lru K V) (k : K) (v : V) : (k, v) ∈ (c.put k v).entries := by
  show (k, v) ∈ ((k, v) :: without k c.entries).take c.cap
  obtain ⟨n, hn⟩ : ∃ n, c.cap = n + 1 := ⟨c.cap - 1, by have := c.cap_pos; omega⟩
  rw [hn, List.take_succ_cons]
  exact List.mem_cons_self

/-- A store keeps nothing but old entries under other keys beside the new one. -/
theorem mem_put {c : Lru K V} {k : K} {v : V} {e : K × V} (h : e ∈ (c.put k v).entries) :
    e = (k, v) ∨ e ∈ c.entries ∧ e.1 ≠ k := by
  rcases List.mem_cons.mp (List.mem_of_mem_take h) with rfl | old
  · exact Or.inl rfl
  · exact Or.inr (mem_without.mp old)

@[simp] theorem mem_pop {c : Lru K V} {k : K} {e : K × V} :
    e ∈ (c.pop k).entries ↔ e ∈ c.entries ∧ e.1 ≠ k :=
  mem_without

/-- A hit changes the order only. -/
@[simp] theorem mem_touch {c : Lru K V} {k : K} {e : K × V} :
    e ∈ (c.touch k).entries ↔ e ∈ c.entries := by
  unfold touch
  cases found : c.entries.find? (·.1 = k) with
  | none => rfl
  | some hit =>
    obtain ⟨k', v⟩ := hit
    have key : k' = k := by simpa using List.find?_some found
    subst key
    have mem := List.mem_of_find?_eq_some found
    have room : ((k', v) :: without k' c.entries).length ≤ c.cap := by
      have dropped : (without k' c.entries).length < c.entries.length :=
        List.length_filter_lt_length_iff_exists.mpr ⟨(k', v), mem, by simp⟩
      have := c.len_le
      rw [List.length_cons]
      omega
    show e ∈ ((k', v) :: without k' c.entries).take c.cap ↔ _
    rw [List.take_of_length_le room, List.mem_cons, mem_without]
    constructor
    · rintro (rfl | ⟨old, _⟩)
      · exact mem
      · exact old
    · intro old
      by_cases same : e.1 = k'
      · exact Or.inl (List.inj_on_of_nodup_map c.nodup old mem same)
      · exact Or.inr ⟨old, same⟩

theorem peek_touch (c : Lru K V) (k k' : K) : (c.touch k).peek k' = c.peek k' :=
  Option.ext fun v => by rw [peek_eq_some, peek_eq_some, mem_touch]

/-! ## Retention -/

omit [DecidableEq K] in
theorem nodup_entries_split {c : Lru K V} {l m : List (K × V)} {e : K × V}
    (h : c.entries = l ++ e :: m) : (l.map Prod.fst).Nodup ∧ e.1 ∉ l.map Prod.fst := by
  have nodup := c.nodup
  rw [h, List.map_append, List.map_cons] at nodup
  obtain ⟨hl, _, apart⟩ := List.nodup_append.mp nodup
  exact ⟨hl, fun mem => apart _ mem e.1 List.mem_cons_self rfl⟩

theorem not_mem_puts {c : Lru K V} {k : K} {l : List (K × V)} (absent : k ∉ c.keys)
    (other : k ∉ l.map Prod.fst) : k ∉ (c.puts l).keys := by
  induction l generalizing c with
  | nil => exact absent
  | cons e l ih =>
    rw [List.map_cons, List.mem_cons, not_or] at other
    refine ih ?_ other.2
    intro mem
    obtain ⟨f, hf, rfl⟩ := List.mem_map.mp mem
    rcases mem_put hf with rfl | ⟨old, _⟩
    · exact other.1 rfl
    · exact absent (List.mem_map.mpr ⟨f, old, rfl⟩)

theorem map_fst_without (k : K) (l : List (K × V)) :
    ((without k l).map Prod.fst).toFinset = (l.map Prod.fst).toFinset.erase k := by
  ext x
  simp only [List.mem_toFinset, List.mem_map, mem_without, Finset.mem_erase]
  constructor
  · rintro ⟨e, ⟨he, ne⟩, rfl⟩
    exact ⟨ne, e, he, rfl⟩
  · rintro ⟨ne, e, he, rfl⟩
    exact ⟨e, ⟨he, ne⟩, rfl⟩

/-- One store under another key: the entries in front of `e` are those of the keys stored since,
and `e` stays iff they leave room for it. -/
theorem put_split {c : Lru K V} {l m : List (K × V)} {e f : K × V}
    (h : c.entries = l ++ e :: m) (ne : f.1 ≠ e.1) :
    let front := f :: without f.1 l
    ((front.map Prod.fst).toFinset = insert f.1 (l.map Prod.fst).toFinset) ∧
      (front.length < c.cap → ∃ m', (c.put f.1 f.2).entries = front ++ e :: m') ∧
      (c.cap ≤ front.length → e.1 ∉ (c.put f.1 f.2).keys) := by
  intro front
  have entries : (c.put f.1 f.2).entries = (front ++ e :: without f.1 m).take c.cap := by
    show ((f.1, f.2) :: without f.1 c.entries).take c.cap = _
    rw [h, without_append, without_cons_of_ne ne.symm]
    rfl
  refine ⟨?_, fun room => ?_, fun full => ?_⟩
  · ext x
    rw [List.map_cons, List.toFinset_cons, map_fst_without, Finset.mem_insert, Finset.mem_erase,
      Finset.mem_insert]
    tauto
  · refine ⟨(without f.1 m).take (c.cap - front.length - 1), ?_⟩
    rw [entries, List.take_append, List.take_of_length_le room.le]
    obtain ⟨n, hn⟩ : ∃ n, c.cap - front.length = n + 1 := ⟨c.cap - front.length - 1, by omega⟩
    rw [hn, List.take_succ_cons]
    rfl
  · intro mem
    obtain ⟨g, hg, same⟩ := List.mem_map.mp mem
    rw [entries, List.take_append_of_le_length full] at hg
    rcases List.mem_cons.mp (List.mem_of_mem_take hg) with rfl | old
    · exact ne same
    · exact (nodup_entries_split h).2 (List.mem_map.mpr ⟨g, (mem_without.mp old).1, same⟩)

theorem mem_puts_split {c : Lru K V} {l m stores : List (K × V)} {e : K × V}
    (h : c.entries = l ++ e :: m) (other : e.1 ∉ stores.map Prod.fst) :
    e ∈ (c.puts stores).entries ↔
      ((l.map Prod.fst).toFinset ∪ (stores.map Prod.fst).toFinset).card < c.cap := by
  induction stores generalizing c l m with
  | nil =>
    have inside : e ∈ c.entries := by simp [h]
    have short : l.length < c.cap := by
      have := c.len_le
      rw [h, List.length_append, List.length_cons] at this
      omega
    have card : (l.map Prod.fst).toFinset.card = l.length := by
      rw [List.toFinset_card_of_nodup (nodup_entries_split h).1, List.length_map]
    simp only [puts, List.foldl_nil, List.map_nil, List.toFinset_nil, Finset.union_empty, card,
      inside, short]
  | cons f stores ih =>
    rw [List.map_cons, List.mem_cons, not_or] at other
    obtain ⟨keys, stays, goes⟩ := put_split (f := f) h (Ne.symm other.1)
    have shift : (l.map Prod.fst).toFinset ∪ ((f :: stores).map Prod.fst).toFinset =
        insert f.1 (l.map Prod.fst).toFinset ∪ (stores.map Prod.fst).toFinset := by
      rw [List.map_cons, List.toFinset_cons, Finset.union_insert, Finset.insert_union]
    rw [puts_cons, shift]
    by_cases room : (f :: without f.1 l).length < c.cap
    · obtain ⟨m', split⟩ := stays room
      rw [ih split other.2, keys]
      exact Iff.rfl
    · have gone := not_mem_puts (goes (by omega)) other.2
      have outside : e ∉ ((c.put f.1 f.2).puts stores).entries := fun mem =>
        gone (List.mem_map.mpr ⟨e, mem, rfl⟩)
      have nodup : ((f :: without f.1 l).map Prod.fst).Nodup :=
        nodup_cons_without (nodup_entries_split h).1 f.1 f.2
      have crowded : c.cap ≤ (insert f.1 (l.map Prod.fst).toFinset).card := by
        rw [← keys, List.toFinset_card_of_nodup nodup, List.length_map]
        omega
      have more : (insert f.1 (l.map Prod.fst).toFinset).card ≤
          (insert f.1 (l.map Prod.fst).toFinset ∪ (stores.map Prod.fst).toFinset).card :=
        Finset.card_le_card Finset.subset_union_left
      constructor
      · intro mem
        exact absurd mem outside
      · intro few
        omega

/-- **Retention.** After a value is stored and then a list of stores under other keys, the value
is still there iff the later stores used fewer distinct keys than the capacity. -/
theorem mem_puts_iff (c : Lru K V) (k : K) (v : V) {stores : List (K × V)}
    (other : k ∉ stores.map Prod.fst) :
    (k, v) ∈ ((c.put k v).puts stores).entries ↔ (stores.map Prod.fst).toFinset.card < c.cap := by
  obtain ⟨n, hn⟩ : ∃ n, c.cap = n + 1 := ⟨c.cap - 1, by have := c.cap_pos; omega⟩
  have front : (c.put k v).entries = [] ++ (k, v) :: (without k c.entries).take n := by
    show ((k, v) :: without k c.entries).take c.cap = _
    rw [hn, List.take_succ_cons]
    rfl
  rw [mem_puts_split front other, List.map_nil, List.toFinset_nil, Finset.empty_union, cap_put]

/-- Every entry after a list of stores is one of them or an old entry under another key. -/
theorem mem_puts {c : Lru K V} {stores : List (K × V)} {e : K × V}
    (h : e ∈ (c.puts stores).entries) :
    e ∈ stores ∨ e ∈ c.entries ∧ e.1 ∉ stores.map Prod.fst := by
  induction stores generalizing c with
  | nil => exact Or.inr ⟨h, by simp⟩
  | cons f stores ih =>
    rcases ih h with mem | ⟨mem, other⟩
    · exact Or.inl (List.mem_cons_of_mem f mem)
    · rcases mem_put mem with rfl | ⟨old, ne⟩
      · exact Or.inl List.mem_cons_self
      · refine Or.inr ⟨old, ?_⟩
        rw [List.map_cons, List.mem_cons, not_or]
        exact ⟨ne, other⟩

/-- The last element of a list with a property. -/
theorem exists_last {α : Type} {p : α → Prop} {l : List α} (some : ∃ a ∈ l, p a) :
    ∃ pre a post, l = pre ++ a :: post ∧ p a ∧ ∀ b ∈ post, ¬ p b := by
  induction l with
  | nil => simp at some
  | cons x l ih =>
    by_cases later : ∃ a ∈ l, p a
    · obtain ⟨pre, a, post, rfl, ha, others⟩ := ih later
      exact ⟨x :: pre, a, post, rfl, ha, others⟩
    · obtain ⟨a, mem, ha⟩ := some
      rcases List.mem_cons.mp mem with rfl | inside
      · exact ⟨[], a, l, rfl, ha, fun b hb pb => later ⟨b, hb, pb⟩⟩
      · exact absurd ⟨a, inside, ha⟩ later

/-- A key that was not there answers after a list of stores iff it was stored, with the value stored
last, unless as many other keys were stored since as the cache has room for. -/
theorem peek_puts {c : Lru K V} {k : K} {v : V} {stores : List (K × V)} (absent : k ∉ c.keys) :
    (c.puts stores).peek k = some v ↔ ∃ pre post, stores = pre ++ (k, v) :: post ∧
      k ∉ post.map Prod.fst ∧ (post.map Prod.fst).toFinset.card < c.cap := by
  rw [peek_eq_some]
  constructor
  · intro present
    have stored : ∃ e ∈ stores, e.1 = k := by
      rcases mem_puts present with new | ⟨old, _⟩
      · exact ⟨_, new, rfl⟩
      · exact absurd (List.mem_map_of_mem old) absent
    obtain ⟨pre, ⟨k', w⟩, post, rfl, same, others⟩ := exists_last stored
    change k' = k at same
    subst same
    have notSince : k' ∉ post.map Prod.fst := fun mem => by
      obtain ⟨e, he, same⟩ := List.mem_map.mp mem
      exact others e he same
    rw [puts_append, puts_cons] at present
    rcases mem_puts present with new | ⟨old, _⟩
    · exact absurd (List.mem_map_of_mem new) notSince
    rcases mem_put old with same | ⟨_, other⟩
    · cases same
      exact ⟨pre, post, rfl, notSince, cap_puts c pre ▸ (mem_puts_iff _ _ _ notSince).mp present⟩
    · exact absurd rfl other
  · rintro ⟨pre, post, rfl, notSince, few⟩
    rw [puts_append, puts_cons]
    exact (mem_puts_iff _ _ _ notSince).mpr ((cap_puts c pre).symm ▸ few)

/-! ## The order after a list of stores -/

theorem without_of_forall_ne {k : K} {l : List (K × V)} (h : ∀ e ∈ l, e.1 ≠ k) : without k l = l :=
  List.filter_eq_self.mpr fun e mem => by simpa using h e mem

/-- Dropping what does not fit before another key is removed makes no difference to what fits in
front of it. -/
theorem take_without_take {k : K} {l : List (K × V)} (nodup : (l.map Prod.fst).Nodup) (n : ℕ) :
    (without k (l.take (n + 1))).take n = (without k l).take n := by
  induction l generalizing n with
  | nil => simp [without]
  | cons e l ih =>
    rw [List.map_cons, List.nodup_cons] at nodup
    rw [List.take_succ_cons]
    by_cases same : e.1 = k
    · subst same
      have others : ∀ f ∈ l, f.1 ≠ e.1 := fun f mem same =>
        nodup.1 (List.mem_map.mpr ⟨f, mem, same⟩)
      have taken : ∀ f ∈ l.take n, f.1 ≠ e.1 := fun f mem => others f (List.mem_of_mem_take mem)
      rw [without_cons_self e.1 e.2, without_cons_self e.1 e.2, without_of_forall_ne others,
        without_of_forall_ne taken, List.take_take, Nat.min_self]
    · rw [without_cons_of_ne same e.2, without_cons_of_ne same e.2]
      cases n with
      | zero => rfl
      | succ n => rw [List.take_succ_cons, List.take_succ_cons, ih nodup.2]

/-- Entries laid over others: each one in front, and its key nowhere behind it. -/
def stack (l m : List (K × V)) : List (K × V) := l.foldr (fun e m => e :: without e.1 m) m

@[simp] theorem stack_nil (m : List (K × V)) : stack [] m = m := rfl

theorem stack_cons (e : K × V) (l m : List (K × V)) :
    stack (e :: l) m = e :: without e.1 (stack l m) := rfl

theorem nodup_stack {l m : List (K × V)} (nodup : (m.map Prod.fst).Nodup) :
    ((stack l m).map Prod.fst).Nodup := by
  induction l with
  | nil => exact nodup
  | cons e l ih => exact nodup_cons_without ih e.1 e.2

/-- Entries stored last to first end up in their own order, in front of what was there. -/
theorem entries_puts_reverse (c : Lru K V) (l : List (K × V)) :
    (c.puts l.reverse).entries = (stack l c.entries).take c.cap := by
  induction l with
  | nil => exact (List.take_of_length_le c.len_le).symm
  | cons e l ih =>
    rw [List.reverse_cons, puts_append]
    show (e :: without e.1 (c.puts l.reverse).entries).take (c.puts l.reverse).cap = _
    obtain ⟨n, hn⟩ : ∃ n, c.cap = n + 1 := ⟨c.cap - 1, by have := c.cap_pos; omega⟩
    rw [cap_puts, ih, hn, stack_cons, List.take_succ_cons, List.take_succ_cons,
      take_without_take (nodup_stack c.nodup)]

theorem mem_keys_stack {l m : List (K × V)} {k : K} :
    k ∈ (stack l m).map Prod.fst ↔ k ∈ l.map Prod.fst ∨ k ∈ m.map Prod.fst := by
  induction l with
  | nil => simp
  | cons e l ih =>
    have keys := map_fst_without e.1 (stack l m)
    have inside : k ∈ (without e.1 (stack l m)).map Prod.fst ↔
        k ≠ e.1 ∧ k ∈ (stack l m).map Prod.fst := by
      rw [← List.mem_toFinset, keys, Finset.mem_erase, List.mem_toFinset]
    rw [stack_cons, List.map_cons, List.mem_cons, inside, ih, List.map_cons, List.mem_cons]
    tauto

/-- What is laid over other entries hides those under its own keys and leaves the others behind
it. -/
theorem stack_eq_append (l m : List (K × V)) :
    stack l m = stack l [] ++ m.filter (·.1 ∉ l.map Prod.fst) := by
  induction l with
  | nil => simp
  | cons e l ih =>
    have behind : without e.1 (m.filter (·.1 ∉ l.map Prod.fst)) =
        m.filter (·.1 ∉ (e :: l).map Prod.fst) := by
      unfold without
      rw [List.filter_filter]
      refine List.filter_congr fun f _ => ?_
      rw [List.map_cons]
      simp only [List.mem_cons, not_or, Bool.decide_and, ne_eq]
    rw [stack_cons, ih, without_append, behind, stack_cons, List.cons_append]

theorem stack_of_nodup {l : List (K × V)} (nodup : (l.map Prod.fst).Nodup) : stack l [] = l := by
  induction l with
  | nil => rfl
  | cons e l ih =>
    rw [List.map_cons, List.nodup_cons] at nodup
    rw [stack_cons, ih nodup.2, without_of_forall_ne]
    intro f mem same
    exact nodup.1 (List.mem_map.mpr ⟨f, mem, same⟩)

theorem length_stack (l : List (K × V)) :
    (stack l []).length = (l.map Prod.fst).toFinset.card := by
  have nodup : ((stack l []).map Prod.fst).Nodup := nodup_stack List.nodup_nil
  have keys : ((stack l []).map Prod.fst).toFinset = (l.map Prod.fst).toFinset := by
    ext k
    rw [List.mem_toFinset, List.mem_toFinset, mem_keys_stack]
    simp
  rw [← keys, List.toFinset_card_of_nodup nodup, List.length_map]

/-- **Replacement.** Stored into a cache, entries leave just what they would leave in an empty one
iff every key that was there is stored again or there is no room left behind them. -/
theorem entries_puts_reverse_eq_iff (c : Lru K V) (l : List (K × V)) :
    (c.puts l.reverse).entries = (stack l []).take c.cap ↔
      (∀ k ∈ c.keys, k ∈ l.map Prod.fst) ∨ c.cap ≤ (l.map Prod.fst).toFinset.card := by
  rw [entries_puts_reverse, stack_eq_append, ← length_stack, List.take_append]
  have left : c.entries.filter (·.1 ∉ l.map Prod.fst) = [] ↔ ∀ k ∈ c.keys, k ∈ l.map Prod.fst := by
    simp only [List.filter_eq_nil_iff, decide_eq_true_eq, not_not, keys]
    constructor
    · intro h k mem
      obtain ⟨e, he, rfl⟩ := List.mem_map.mp mem
      exact h e he
    · intro h e he
      exact h e.1 (List.mem_map_of_mem he)
  rw [List.append_right_eq_self, List.take_eq_nil_iff, left]
  constructor
  · intro h
    rcases h with full | again
    · exact Or.inr (by omega)
    · exact Or.inl again
  · intro h
    rcases h with again | full
    · exact Or.inr again
    · exact Or.inl (by omega)

end Lru

end ChainGraph.Foundation

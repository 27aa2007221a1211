import Mathlib.Algebra.Order.BigOperators.Group.List
import ChainGraph.Domain.Ingestion
import ChainGraph.Foundation.Segments

/-!
# The chunks of a batch are the fewest

What a partition of a list of blocks into chunks must keep, and that the ranges the chunking loop
makes are such a partition with as few ranges as possible. The loop is greedy: every range it closes
before the last would leave the budget, or hold a block over the budget together with another, if
it were one block longer.

Estimates are natural numbers; the code's sums are the same as long as they do not overflow.
-/

namespace ChainGraph

open Foundation

/-- The estimate of the blocks in a range. -/
def rangeMemory (mems : List ℕ) (range : ℕ × ℕ) : ℕ := (slice mems range).sum

/-- A chunk may be a single block, or what is within the budget. -/
def Allowed (mems : List ℕ) (budget : ℕ) (a b : ℕ) : Prop :=
  rangeMemory mems (a, b) ≤ budget ∨ b = a + 1

/-- A partition of the blocks into chunks: the ranges follow each other from the first block to the
last, each is within the budget or a single block, and a block over the budget stands alone. -/
structure Partition (mems : List ℕ) (budget : ℕ) (ranges : List (ℕ × ℕ)) : Prop where
  segments : Segments 0 mems.length ranges
  allowed : ∀ r ∈ ranges, Allowed mems budget r.1 r.2
  alone : ∀ r ∈ ranges, ∀ i mem, r.1 ≤ i → i < r.2 → mems[i]? = some mem → budget < mem →
    r = (i, i + 1)

section Memory

variable {mems : List ℕ} {budget a b i : ℕ}

theorem rangeMemory_self (a : ℕ) : rangeMemory mems (a, a) = 0 := by
  unfold rangeMemory slice
  rw [Nat.sub_self, List.take_zero, List.sum_nil]

/-- One block more. -/
theorem rangeMemory_succ {mem : ℕ} (le : a ≤ i) (at_i : mems[i]? = some mem) :
    rangeMemory mems (a, i + 1) = rangeMemory mems (a, i) + mem := by
  unfold rangeMemory slice
  have there : (mems.drop a)[i - a]? = some mem := by
    rw [List.getElem?_drop, Nat.add_sub_cancel' le]
    exact at_i
  have size : i + 1 - a = (i - a) + 1 := by omega
  rw [size, List.take_add_one, there, Option.toList_some, List.sum_append, List.sum_singleton]

/-- A range is worth at least its parts. -/
theorem rangeMemory_mono {a' b' : ℕ} (low : a ≤ a') (high : b' ≤ b) :
    rangeMemory mems (a', b') ≤ rangeMemory mems (a, b) := by
  unfold rangeMemory slice
  rw [← List.drop_take, ← List.drop_take]
  have fewer : (mems.take b').Sublist (mems.take b) :=
    (List.take_prefix_take_left high).sublist
  have part : ((mems.take b').drop a').Sublist ((mems.take b).drop a) :=
    (fewer.drop a').trans (List.drop_sublist_drop_left _ low)
  exact part.sum_le_sum fun _ _ => Nat.zero_le _

/-- A part of what is allowed is allowed. -/
theorem hereditary_allowed (mems : List ℕ) (budget : ℕ) : Hereditary (Allowed mems budget) := by
  intro a b a' b' allowed low proper high
  rcases allowed with within | single
  · exact Or.inl ((rangeMemory_mono low high).trans within)
  · exact Or.inr (by omega)

/-- A range that holds a block over the budget, and another block, is not allowed. -/
theorem not_allowed {mem : ℕ} (at_i : mems[i]? = some mem) (low : a ≤ i) (high : i < b)
    (large : budget < mem) (several : b ≠ a + 1) : ¬ Allowed mems budget a b := by
  rintro (within | single)
  · have one : rangeMemory mems (i, i + 1) = mem := by
      rw [rangeMemory_succ (Nat.le_refl i) at_i, rangeMemory_self, Nat.zero_add]
    have part : rangeMemory mems (i, i + 1) ≤ rangeMemory mems (a, b) := rangeMemory_mono low high
    rw [one] at part
    omega
  · exact several single

end Memory

/-! ## The loop -/

/-- The variables of the loop before block `i`: the ranges closed so far are allowed and as long as
is allowed, and the open one is within the budget. -/
structure Greedy (mems : List ℕ) (budget i : ℕ) (s : ChunkState) : Prop where
  segments : Segments 0 s.chunkStart s.chunks
  allowed : ∀ r ∈ s.chunks, Allowed mems budget r.1 r.2
  maximal : ∀ r ∈ s.chunks, r.2 = mems.length ∨ ¬ Allowed mems budget r.1 (r.2 + 1)
  start_le : s.chunkStart ≤ i
  memory : s.chunkMemory = rangeMemory mems (s.chunkStart, i)
  within : s.chunkMemory ≤ budget

section Loop

variable {mems : List ℕ} {budget i j : ℕ} {s : ChunkState}

/-- The open range is allowed. -/
theorem Greedy.fits (h : Greedy mems budget i s) : Allowed mems budget s.chunkStart i :=
  Or.inl (h.memory ▸ h.within)

/-- The open range is closed at `j`, where it may not be longer. -/
theorem Greedy.close (h : Greedy mems budget i s) (lt : s.chunkStart < j)
    (fits : Allowed mems budget s.chunkStart j)
    (full : j = mems.length ∨ ¬ Allowed mems budget s.chunkStart (j + 1)) :
    Greedy mems budget j ⟨s.chunks ++ [(s.chunkStart, j)], j, 0⟩ where
  segments := h.segments.push lt
  allowed r mem := by
    rcases List.mem_append.mp mem with old | new
    · exact h.allowed r old
    · rw [List.mem_singleton.mp new]
      exact fits
  maximal r mem := by
    rcases List.mem_append.mp mem with old | new
    · exact h.maximal r old
    · rw [List.mem_singleton.mp new]
      exact full
  start_le := Nat.le_refl j
  memory := (rangeMemory_self j).symm
  within := Nat.zero_le budget

theorem Greedy.step {mem : ℕ} (h : Greedy mems budget i s) (at_i : mems[i]? = some mem) :
    Greedy mems budget (i + 1) (chunkStep budget s (mem, i)) := by
  -- the first branch closes the open range if the block does not fit beside it
  have ended : ∃ s', Greedy mems budget i s' ∧
      (s'.chunkMemory + mem ≤ budget ∨ i = s'.chunkStart) ∧ chunkStep budget s (mem, i) =
        if mem > budget ∧ i = s'.chunkStart then
          ⟨s'.chunks ++ [(s'.chunkStart, i + 1)], i + 1, 0⟩
        else { s' with chunkMemory := s'.chunkMemory + mem } := by
    unfold chunkStep
    dsimp only
    by_cases full : s.chunkMemory + mem > budget ∧ i > s.chunkStart
    · rw [if_pos full]
      have longer : ¬ Allowed mems budget s.chunkStart (i + 1) := by
        rintro (within | single)
        · rw [rangeMemory_succ h.start_le at_i, ← h.memory] at within
          omega
        · omega
      exact ⟨_, h.close full.2 h.fits (Or.inr longer), Or.inr rfl, rfl⟩
    · rw [if_neg full]
      have start_le := h.start_le
      exact ⟨s, h, by omega, rfl⟩
  obtain ⟨s', greedy, room, same⟩ := ended
  rw [same]
  by_cases large : mem > budget ∧ i = s'.chunkStart
  · rw [if_pos large]
    obtain ⟨beyond, here⟩ := large
    have longer : ¬ Allowed mems budget s'.chunkStart (i + 1 + 1) :=
      not_allowed at_i (by omega) (by omega) beyond (by omega)
    exact greedy.close (by omega) (Or.inr (by omega)) (Or.inr longer)
  · rw [if_neg large]
    have succ : s'.chunkMemory + mem = rangeMemory mems (s'.chunkStart, i + 1) := by
      rw [rangeMemory_succ greedy.start_le at_i, ← greedy.memory]
    refine ⟨greedy.segments, greedy.allowed, greedy.maximal,
      Nat.le_succ_of_le greedy.start_le, succ, ?_⟩
    rcases room with fits | here
    · exact fits
    · have empty : s'.chunkMemory = 0 := by
        rw [greedy.memory, ← here, rangeMemory_self]
      show s'.chunkMemory + mem ≤ budget
      omega

/-- The loop over the blocks from `i` on. -/
theorem Greedy.foldl {rest : List ℕ} (h : Greedy mems budget i s) (from_i : mems.drop i = rest) :
    Greedy mems budget (i + rest.length) ((rest.zipIdx i).foldl (chunkStep budget) s) := by
  induction rest generalizing i s with
  | nil => exact h
  | cons mem rest ih =>
    have at_i : mems[i]? = some mem := by
      rw [← List.head?_drop, from_i, List.head?_cons]
    have later : mems.drop (i + 1) = rest := by
      rw [← List.drop_drop, from_i, List.drop_one, List.tail_cons]
    rw [List.zipIdx_cons, List.foldl_cons, List.length_cons, Nat.add_comm rest.length,
      ← Nat.add_assoc]
    exact ih (h.step at_i) later

/-- The ranges the loop makes, with the one still open at its end. -/
theorem greedy_computeAdaptiveChunks (mems : List ℕ) (budget : ℕ) :
    Segments 0 mems.length (computeAdaptiveChunks mems budget) ∧
      (∀ r ∈ computeAdaptiveChunks mems budget, Allowed mems budget r.1 r.2) ∧
      ∀ r ∈ computeAdaptiveChunks mems budget,
        r.2 = mems.length ∨ ¬ Allowed mems budget r.1 (r.2 + 1) := by
  have start : Greedy mems budget 0 ⟨[], 0, 0⟩ :=
    ⟨rfl, fun _ none => absurd none List.not_mem_nil, fun _ none => absurd none List.not_mem_nil,
      Nat.le_refl 0, (rangeMemory_self 0).symm, Nat.zero_le budget⟩
  have all : mems.drop 0 = mems := List.drop_zero
  have greedy := start.foldl all
  rw [Nat.zero_add] at greedy
  unfold computeAdaptiveChunks
  split
  · rename_i none
    rw [List.isEmpty_iff.mp none]
    exact ⟨rfl, fun _ none => absurd none List.not_mem_nil,
      fun _ none => absurd none List.not_mem_nil⟩
  · dsimp only
    split
    · rename_i short
      have closed := greedy.close short greedy.fits (Or.inl rfl)
      exact ⟨closed.segments, closed.allowed, closed.maximal⟩
    · rename_i whole
      have start_le := greedy.start_le
      have ends : _ = mems.length := Nat.le_antisymm start_le (Nat.le_of_not_lt whole)
      exact ⟨ends ▸ greedy.segments, greedy.allowed, greedy.maximal⟩

end Loop

/-- **Chunks.** The ranges are a partition, and no partition has fewer. -/
theorem computeAdaptiveChunks_optimal (mems : List ℕ) (budget : ℕ) :
    Partition mems budget (computeAdaptiveChunks mems budget) ∧
      ∀ ranges, Partition mems budget ranges →
        (computeAdaptiveChunks mems budget).length ≤ ranges.length := by
  obtain ⟨segments, allowed, maximal⟩ := greedy_computeAdaptiveChunks mems budget
  refine ⟨⟨segments, allowed, fun r mem i m low high at_i beyond => ?_⟩, fun ranges other => ?_⟩
  · by_contra several
    refine not_allowed at_i low high beyond (fun single => several ?_) (allowed r mem)
    exact Prod.ext (by omega) (by omega)
  · exact minimal_of_maximal (hereditary_allowed mems budget) segments maximal other.segments
      other.allowed (Nat.le_refl 0)

end ChainGraph

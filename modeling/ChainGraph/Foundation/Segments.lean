import Mathlib.Tactic.Common

/-!
# Cutting a range into segments

A range of numbers is cut into consecutive segments. Which segments are allowed is a predicate that
every part of an allowed segment satisfies again. Cutting greedily, each segment as long as is
allowed, then takes the fewest: the greedy cut is never behind another one.
-/

namespace ChainGraph.Foundation

/-- The segments follow each other from `first` to `last`, none of them empty. -/
def Segments : ℕ → ℕ → List (ℕ × ℕ) → Prop
  | first, last, [] => first = last
  | first, last, r :: rest => r.1 = first ∧ r.1 < r.2 ∧ Segments r.2 last rest

namespace Segments

variable {first middle last : ℕ} {rs : List (ℕ × ℕ)}

theorem first_le (h : Segments first last rs) : first ≤ last := by
  induction rs generalizing first with
  | nil => exact Nat.le_of_eq h
  | cons r rest ih =>
    obtain ⟨rfl, proper, tail⟩ := h
    exact Nat.le_trans (Nat.le_of_lt proper) (ih tail)

/-- One more segment at the end. -/
theorem push (h : Segments first middle rs) (lt : middle < last) :
    Segments first last (rs ++ [(middle, last)]) := by
  induction rs generalizing first with
  | nil =>
    obtain rfl : first = middle := h
    exact ⟨rfl, lt, rfl⟩
  | cons r rest ih =>
    obtain ⟨rfl, proper, tail⟩ := h
    exact ⟨rfl, proper, ih tail⟩

theorem proper (h : Segments first last rs) : ∀ r ∈ rs, first ≤ r.1 ∧ r.1 < r.2 ∧ r.2 ≤ last := by
  induction rs generalizing first with
  | nil =>
    intro r none
    cases none
  | cons r rest ih =>
    obtain ⟨rfl, proper, tail⟩ := h
    intro r' mem
    rcases List.mem_cons.mp mem with rfl | later
    · exact ⟨Nat.le_refl _, proper, tail.first_le⟩
    · obtain ⟨after, inside⟩ := ih tail r' later
      exact ⟨Nat.le_trans (Nat.le_of_lt proper) after, inside⟩

end Segments

/-- Every part of an allowed segment is allowed. -/
def Hereditary (Good : ℕ → ℕ → Prop) : Prop :=
  ∀ a b a' b', Good a b → a ≤ a' → a' < b' → b' ≤ b → Good a' b'

/-- **Greedy segments are fewest.** If no segment of a cut but the last could be longer, no cut
into allowed segments that begins where this one does, or before, has fewer. -/
theorem minimal_of_maximal {Good : ℕ → ℕ → Prop} (hereditary : Hereditary Good)
    {first first' last : ℕ} {rs rs' : List (ℕ × ℕ)} (cut : Segments first last rs)
    (maximal : ∀ r ∈ rs, r.2 = last ∨ ¬ Good r.1 (r.2 + 1)) (cut' : Segments first' last rs')
    (good : ∀ r ∈ rs', Good r.1 r.2) (before : first' ≤ first) : rs.length ≤ rs'.length := by
  induction rs generalizing first first' rs' with
  | nil => exact Nat.zero_le _
  | cons r rest ih =>
    obtain ⟨rfl, proper, tail⟩ := cut
    cases rs' with
    | nil =>
      obtain rfl : first' = last := cut'
      have := tail.first_le
      omega
    | cons r' rest' =>
      obtain ⟨rfl, proper', tail'⟩ := cut'
      -- the first segment of the other cut ends no later
      have behind : r'.2 ≤ r.2 := by
        rcases maximal r List.mem_cons_self with ended | longest
        · rw [ended]
          exact tail'.first_le
        · by_contra ahead
          apply longest
          exact hereditary r'.1 r'.2 r.1 (r.2 + 1) (good r' List.mem_cons_self) before (by omega)
            (by omega)
      have fewer := ih tail (fun r mem => maximal r (List.mem_cons_of_mem _ mem)) tail'
        (fun r mem => good r (List.mem_cons_of_mem _ mem)) behind
      rw [List.length_cons, List.length_cons]
      omega

end ChainGraph.Foundation

import Mathlib.Algebra.BigOperators.Group.Finset.Piecewise
import Mathlib.Algebra.BigOperators.Group.Multiset.Basic
import Mathlib.Tactic.Common

/-!
# Summaries of a table of details

A summary is a set of rows, each with the total of the details of its group. Rows that are told
apart by their keys and cover every detail have the same total as the details. A set of items that
come and go has the total of those that are still there and those that are gone.
-/

namespace ChainGraph.Foundation

variable {ρ δ κ M : Type} [DecidableEq κ] [AddCommMonoid M]

/-! ## Groups -/

/-- `rows` have the totals of `details` by group. -/
structure Summarizes (rows : Finset ρ) (key : ρ → κ) (total : ρ → M) (details : Multiset δ)
    (group : δ → κ) (value : δ → M) : Prop where
  keys : Set.InjOn key rows
  totals : ∀ r ∈ rows, total r = ((details.filter (group · = key r)).map value).sum
  covers : ∀ d ∈ details, ∃ r ∈ rows, key r = group d

/-- The totals of groups that cover the details are the total of all. -/
theorem sum_groups {rows : Finset ρ} {key : ρ → κ} {details : Multiset δ} {group : δ → κ}
    {value : δ → M} (keys : Set.InjOn key rows)
    (covers : ∀ d ∈ details, ∃ r ∈ rows, key r = group d) :
    ∑ r ∈ rows, ((details.filter (group · = key r)).map value).sum = (details.map value).sum := by
  classical
  induction details using Multiset.induction with
  | empty => simp
  | cons d details ih =>
    obtain ⟨own, mem, same⟩ := covers d (Multiset.mem_cons_self ..)
    have split : ∀ r ∈ rows, (((d ::ₘ details).filter (group · = key r)).map value).sum =
        (if r = own then value d else 0) +
          ((details.filter (group · = key r)).map value).sum := by
      intro r inside
      by_cases here : r = own
      · simp [here, ← same]
      · have other : group d ≠ key r := fun equal =>
          here (keys inside mem (equal.symm.trans same.symm))
        simp [here, other]
    have rest := ih fun d' inside => covers d' (Multiset.mem_cons_of_mem inside)
    rw [Finset.sum_congr rfl split, Finset.sum_add_distrib, Finset.sum_ite_eq' rows own,
      if_pos mem, rest, Multiset.map_cons, Multiset.sum_cons]

/-- **A summary has the total of its details.** -/
theorem Summarizes.sum {rows : Finset ρ} {key : ρ → κ} {total : ρ → M} {details : Multiset δ}
    {group : δ → κ} {value : δ → M} (h : Summarizes rows key total details group value) :
    ∑ r ∈ rows, total r = (details.map value).sum := by
  rw [Finset.sum_congr rfl h.totals, sum_groups h.keys h.covers]

/-! ## Items that are gone -/

section Gone

variable {rows : Finset ρ} {key : ρ → κ} {value : ρ → M} {worth : κ → M} {gone : Multiset κ}

/-- Keys that occur once are those of the items they name. -/
theorem map_key_filter (keys : Set.InjOn key rows) (once : gone.Nodup)
    (known : ∀ k ∈ gone, ∃ r ∈ rows, key r = k) :
    (rows.filter (key · ∈ gone)).val.map key = gone := by
  have apart : ((rows.filter (key · ∈ gone)).val.map key).Nodup :=
    Multiset.Nodup.map_on (fun r mem r' mem' => keys (Finset.mem_filter.mp mem).1
      (Finset.mem_filter.mp mem').1) (rows.filter (key · ∈ gone)).nodup
  refine (Multiset.Nodup.ext apart once).mpr fun k => ⟨fun mem => ?_, fun mem => ?_⟩
  · obtain ⟨r, inside, rfl⟩ := Multiset.mem_map.mp mem
    exact (Finset.mem_filter.mp inside).2
  · obtain ⟨r, inside, rfl⟩ := known k mem
    exact Multiset.mem_map_of_mem key (Finset.mem_filter.mpr ⟨inside, mem⟩)

/-- **What there was is what is left and what is gone**, if no item goes twice. -/
theorem sum_left_add_gone (keys : Set.InjOn key rows) (once : gone.Nodup)
    (known : ∀ k ∈ gone, ∃ r ∈ rows, key r = k) (worths : ∀ r ∈ rows, worth (key r) = value r) :
    ∑ r ∈ rows.filter (key · ∉ gone), value r + (gone.map worth).sum = ∑ r ∈ rows, value r := by
  have taken : (gone.map worth).sum = ∑ r ∈ rows.filter (key · ∈ gone), value r := by
    conv_lhs => rw [← map_key_filter keys once known, Multiset.map_map]
    exact Finset.sum_congr rfl fun r mem => worths r (Finset.mem_filter.mp mem).1
  rw [taken, add_comm, Finset.sum_filter_add_sum_filter_not]

end Gone

end ChainGraph.Foundation

import Mathlib.Algebra.Order.BigOperators.Group.List
import Mathlib.Data.List.Induction
import ChainGraph.Domain.Ingestion

/-!
# Totals by address

The rows of the simplified layer are tallied: one entry for each address among the amounts of a
transaction, with their number and their sum.
-/

namespace ChainGraph

variable {a b : Address} {v : UInt64} {n : UInt32} {s : UInt64}

theorem keys_bumpEntry (a : Address) (v : UInt64) (entries : List (Address × UInt32 × UInt64)) :
    (bumpEntry a v entries).map (·.1) =
      if a ∈ entries.map (·.1) then entries.map (·.1) else entries.map (·.1) ++ [a] := by
  induction entries with
  | nil => simp [bumpEntry]
  | cons e entries ih =>
    obtain ⟨b, n, s⟩ := e
    unfold bumpEntry
    by_cases same : b = a
    · simp [same]
    · rw [if_neg same, List.map_cons, List.map_cons, ih]
      by_cases inside : a ∈ entries.map (·.1)
      · rw [if_pos inside, if_pos (List.mem_cons_of_mem _ inside)]
      · rw [if_neg inside, if_neg (by simpa [Ne.symm same] using inside), List.cons_append]

theorem nodup_bumpEntry {entries : List (Address × UInt32 × UInt64)}
    (nodup : (entries.map (·.1)).Nodup) (a : Address) (v : UInt64) :
    ((bumpEntry a v entries).map (·.1)).Nodup := by
  rw [keys_bumpEntry]
  split
  · exact nodup
  · rename_i absent
    exact List.nodup_append.mpr ⟨nodup, List.nodup_singleton a, fun b hb c hc same =>
      absent (List.mem_singleton.mp hc ▸ same ▸ hb)⟩

/-- An amount changes the entry of its address only. -/
theorem mem_bumpEntry {entries : List (Address × UInt32 × UInt64)}
    (nodup : (entries.map (·.1)).Nodup) :
    (b, n, s) ∈ bumpEntry a v entries ↔ b ≠ a ∧ (b, n, s) ∈ entries ∨ b = a ∧
      ((∃ n' s', (a, n', s') ∈ entries ∧ n = n' + 1 ∧ s = s' + v) ∨
        a ∉ entries.map (·.1) ∧ n = 1 ∧ s = v) := by
  induction entries with
  | nil =>
    simp only [bumpEntry, List.mem_singleton, Prod.mk.injEq, List.not_mem_nil, and_false, false_or,
      List.map_nil, not_false_eq_true, true_and, false_and, exists_const]
  | cons e entries ih =>
    obtain ⟨c, m, t⟩ := e
    rw [List.map_cons, List.nodup_cons] at nodup
    unfold bumpEntry
    by_cases same : c = a
    · subst same
      have absent : ∀ n' s', (c, n', s') ∉ entries := fun n' s' mem =>
        nodup.1 (List.mem_map.mpr ⟨_, mem, rfl⟩)
      simp only [if_true, List.mem_cons, Prod.mk.injEq, absent, List.map_cons, true_or,
        not_true_eq_false, false_and, or_false]
      constructor
      · rintro (⟨rfl, rfl, rfl⟩ | inside)
        · exact Or.inr ⟨rfl, m, t, ⟨trivial, rfl, rfl⟩, rfl, rfl⟩
        · exact Or.inl ⟨fun eq => absent n s (eq ▸ inside), Or.inr inside⟩
      · rintro (⟨other, ⟨eq, _⟩ | inside⟩ | ⟨rfl, n', s', ⟨_, rfl, rfl⟩, rfl, rfl⟩)
        · exact absurd eq other
        · exact Or.inr inside
        · exact Or.inl ⟨rfl, rfl, rfl⟩
    · rw [if_neg same, List.mem_cons, ih nodup.2]
      simp only [List.mem_cons, Prod.mk.injEq, List.map_cons, Ne.symm same, false_and, false_or]
      constructor
      · rintro (⟨rfl, rfl, rfl⟩ | ⟨other, inside⟩ | new)
        · exact Or.inl ⟨same, Or.inl ⟨rfl, rfl, rfl⟩⟩
        · exact Or.inl ⟨other, Or.inr inside⟩
        · exact Or.inr new
      · rintro (⟨other, here | inside⟩ | new)
        · exact Or.inl here
        · exact Or.inr (Or.inl ⟨other, inside⟩)
        · exact Or.inr (Or.inr new)

theorem tally_concat (amounts : List (Address × UInt64)) (x : Address × UInt64) :
    tally (amounts ++ [x]) = bumpEntry x.1 x.2 (tally amounts) := by
  rw [tally, List.foldl_append]
  rfl

/-- One entry for each address. -/
theorem nodup_tally (amounts : List (Address × UInt64)) : ((tally amounts).map (·.1)).Nodup := by
  induction amounts using List.reverseRecOn with
  | nil => exact List.nodup_nil
  | append_singleton amounts x ih =>
    rw [tally_concat]
    exact nodup_bumpEntry ih _ _

theorem keys_tally (amounts : List (Address × UInt64)) :
    a ∈ (tally amounts).map (·.1) ↔ a ∈ amounts.map (·.1) := by
  induction amounts using List.reverseRecOn with
  | nil => exact Iff.rfl
  | append_singleton amounts x ih =>
    rw [tally_concat, keys_bumpEntry, List.map_append, List.mem_append, ← ih]
    split
    · rename_i inside
      simp only [List.map_cons, List.map_nil, List.mem_singleton]
      exact ⟨Or.inl, fun either => either.elim id fun same => same ▸ inside⟩
    · rw [List.mem_append]
      rfl

/-- The amounts of an address. -/
def amountsOf (a : Address) (amounts : List (Address × UInt64)) : List UInt64 :=
  (amounts.filter (·.1 = a)).map (·.2)

theorem sumAmounts_concat (amounts : List UInt64) (v : UInt64) :
    sumAmounts (amounts ++ [v]) = sumAmounts amounts + v := by
  rw [sumAmounts, List.foldl_append]
  rfl

/-- **Tally.** An address that occurs has one entry: how often it occurs, and the sum of its
amounts. -/
theorem mem_tally {amounts : List (Address × UInt64)} :
    (b, n, s) ∈ tally amounts ↔ b ∈ amounts.map (·.1) ∧
      n = UInt32.ofNat (amountsOf b amounts).length ∧ s = sumAmounts (amountsOf b amounts) := by
  induction amounts using List.reverseRecOn generalizing b n s with
  | nil => simp [tally]
  | append_singleton amounts x ih =>
    obtain ⟨a, v⟩ := x
    rw [tally_concat, mem_bumpEntry (nodup_tally amounts), keys_tally]
    simp only [ih]
    unfold amountsOf
    rw [List.filter_append, List.map_append, List.map_append, List.mem_append]
    by_cases same : b = a
    · subst same
      simp only [ne_eq, not_true_eq_false, false_and, true_and, false_or, decide_true,
        List.filter_cons_of_pos, List.filter_nil, List.map_cons, List.map_nil, List.mem_singleton,
        or_true, List.length_append, List.length_cons, List.length_nil, sumAmounts_concat]
      by_cases before : b ∈ amounts.map (·.1)
      · simp only [before, true_and, not_true_eq_false, false_and, or_false]
        constructor
        · rintro ⟨n', s', ⟨rfl, rfl⟩, rfl, rfl⟩
          exact ⟨by rw [Nat.zero_add, UInt32.ofNat_add]; rfl, rfl⟩
        · rintro ⟨rfl, rfl⟩
          exact ⟨_, _, ⟨rfl, rfl⟩, by rw [Nat.zero_add, UInt32.ofNat_add]; rfl, rfl⟩
      · have none : amounts.filter (·.1 = b) = [] := List.filter_eq_nil_iff.mpr fun x hx => by
          simp only [decide_eq_true_eq]
          exact fun same => before (List.mem_map.mpr ⟨x, hx, same⟩)
        simp only [before, false_and, exists_const, false_or, not_false_eq_true, true_and, none,
          List.map_nil, List.length_nil, Nat.zero_add, sumAmounts, List.foldl_nil, UInt64.zero_add]
        rfl
    · simp only [ne_eq, same, not_false_eq_true, true_and, false_and, or_false, List.map_cons,
        List.map_nil, List.mem_singleton, Ne.symm same, decide_false, Bool.false_eq_true,
        List.filter_cons_of_neg, List.filter_nil, List.append_nil]

/-! ## Sums -/

theorem toNat_sumAmounts (amounts : List UInt64) :
    (sumAmounts amounts).toNat = (amounts.map (·.toNat)).sum % 2 ^ 64 := by
  have walk : ∀ (amounts : List UInt64) (a : UInt64),
      (amounts.foldl (· + ·) a).toNat = (a.toNat + (amounts.map (·.toNat)).sum) % 2 ^ 64 := by
    intro amounts
    induction amounts with
    | nil => exact fun a => (Nat.mod_eq_of_lt a.toNat_lt).symm
    | cons b amounts ih =>
      intro a
      rw [List.foldl_cons, ih, UInt64.toNat_add, List.map_cons, List.sum_cons]
      omega
  exact (walk amounts 0).trans (by rw [UInt64.toNat_zero, Nat.zero_add])

theorem toNat_saturatingSub (a b : UInt64) : (saturatingSub a b).toNat = a.toNat - b.toNat := by
  unfold saturatingSub
  split
  · rename_i le
    exact UInt64.toNat_sub_of_le _ _ le
  · rename_i gt
    rw [UInt64.le_iff_toNat_le] at gt
    rw [UInt64.toNat_zero]
    omega

/-- A sum of amounts is the number it stands for, as a machine integer. -/
theorem sumAmounts_eq (amounts : List UInt64) :
    sumAmounts amounts = UInt64.ofNat (amounts.map (·.toNat)).sum := by
  rw [← UInt64.toNat_inj, toNat_sumAmounts, UInt64.toNat_ofNat']

/-! ## Amounts of an address -/

/-- The keys whose output is locked to an address. -/
def lockedKeys (res : Found) (a : Address) (keys : List UtxoKey) : List UtxoKey :=
  keys.filter fun k => (res k).bind (·.address) = some a

/-- What a tally of outputs says of an address: that it has some, how many, and their sum. -/
structure Entry (res : Found) (keys : List UtxoKey) (a : Address) (n : UInt32) (s : UInt64) :
    Prop where
  nonempty : lockedKeys res a keys ≠ []
  count : n = UInt32.ofNat (lockedKeys res a keys).length
  sum : s = sumAmounts ((lockedKeys res a keys).filterMap fun k => (res k).map (·.amount))

variable {res : Found} {keys : List UtxoKey} {a : Address} {n : UInt32} {s : UInt64}

/-- The amounts of resolved keys, by address. -/
def addressed (res : Found) (keys : List UtxoKey) : List (Address × UInt64) :=
  (keys.filterMap res).filterMap fun v => v.address.map fun a => (a, v.amount)

theorem amountsOf_addressed (res : Found) (a : Address) (keys : List UtxoKey) :
    amountsOf a (addressed res keys) =
      (lockedKeys res a keys).filterMap fun k => (res k).map (·.amount) := by
  unfold addressed amountsOf lockedKeys
  induction keys with
  | nil => rfl
  | cons k keys ih =>
    cases hit : res k with
    | none =>
      rw [List.filterMap_cons_none hit, ih, List.filter_cons_of_neg (by simp [hit])]
    | some v =>
      rw [List.filterMap_cons_some hit]
      cases lock : v.address with
      | none =>
        rw [List.filterMap_cons_none (by rw [lock]; rfl), ih,
          List.filter_cons_of_neg (by simp [hit, lock])]
      | some b =>
        rw [List.filterMap_cons_some (by rw [lock]; rfl)]
        by_cases same : b = a
        · rw [List.filter_cons_of_pos (by simpa using same), List.map_cons, ih,
            List.filter_cons_of_pos (by simp [hit, lock, same]),
            List.filterMap_cons_some (by rw [hit]; rfl)]
        · rw [List.filter_cons_of_neg (by simpa using same), ih,
            List.filter_cons_of_neg (by simp [hit, lock, same])]

theorem length_lockedKeys (res : Found) (a : Address) (keys : List UtxoKey) :
    ((lockedKeys res a keys).filterMap fun k => (res k).map (·.amount)).length =
      (lockedKeys res a keys).length := by
  rw [List.length_filterMap_eq_countP, List.countP_eq_length]
  intro k mem
  cases hit : res k with
  | none => simp [lockedKeys, hit] at mem
  | some v => rfl

/-- The entries of a tally of outputs. -/
theorem mem_tally_addressed : (a, n, s) ∈ tally (addressed res keys) ↔ Entry res keys a n s := by
  have occurs : a ∈ (addressed res keys).map (·.1) ↔ lockedKeys res a keys ≠ [] := by
    rw [← List.length_pos_iff, ← length_lockedKeys, ← amountsOf_addressed, List.length_pos_iff,
      amountsOf, ne_eq, List.map_eq_nil_iff, List.filter_eq_nil_iff]
    simp
  rw [mem_tally, occurs, amountsOf_addressed, length_lockedKeys]
  exact ⟨fun ⟨nonempty, count, sum⟩ => ⟨nonempty, count, sum⟩,
    fun h => ⟨h.nonempty, h.count, h.sum⟩⟩

/-- Keys that are not found add nothing. -/
theorem sum_filterMap {α β : Type} (f : α → Option β) (value : β → ℕ) (l : List α) :
    ((l.filterMap f).map value).sum = (l.map fun a => ((f a).map value).getD 0).sum := by
  induction l with
  | nil => rfl
  | cons a l ih =>
    rw [List.map_cons, List.sum_cons, ← ih]
    cases hit : f a with
    | none => rw [List.filterMap_cons_none hit, Option.map_none, Option.getD_none, Nat.zero_add]
    | some b => rw [List.filterMap_cons_some hit, List.map_cons, List.sum_cons]; rfl

/-- Short lists of small amounts are counted and added exactly. -/
theorem Entry.exact (h : Entry res keys a n s) (short : keys.length < 2 ^ 32)
    (small : ((keys.filterMap res).map (·.amount.toNat)).sum < 2 ^ 63) :
    n.toNat = (lockedKeys res a keys).length ∧
      s.toNat =
        ((lockedKeys res a keys).map fun k => ((res k).map (·.amount.toNat)).getD 0).sum := by
  have part : (lockedKeys res a keys).Sublist keys := List.filter_sublist
  constructor
  · rw [h.count, UInt32.toNat_ofNat_of_lt' (Nat.lt_of_le_of_lt part.length_le short)]
  · have total : (((lockedKeys res a keys).filterMap fun k => (res k).map (·.amount)).map
        (·.toNat)).sum =
          ((lockedKeys res a keys).map fun k => ((res k).map (·.amount.toNat)).getD 0).sum := by
      rw [sum_filterMap]
      simp only [Option.map_map]
      rfl
    have le : ((lockedKeys res a keys).map fun k => ((res k).map (·.amount.toNat)).getD 0).sum ≤
        ((keys.filterMap res).map (·.amount.toNat)).sum := by
      rw [sum_filterMap]
      exact (part.map _).sum_le_sum fun _ _ => Nat.zero_le _
    rw [h.sum, toNat_sumAmounts, total, Nat.mod_eq_of_lt (by omega)]

end ChainGraph

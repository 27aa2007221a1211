import Mathlib.Data.List.Induction
import Mathlib.Data.Nat.Bitwise

/-!
# Checked words and bijective numeration

Reading bytes into machine words can go wrong in ways a type does not show: a sum or a shift leaves
the word, an index leaves the slice. Here the operators say so. A `Checked` computation ends with a
value, with an error it returns, or in a panic, and a program that never panics computes the same in
every build.

The second half is a numeral system. In base `b` a number is written with leading digits that count
from one and a last digit that counts from zero, so every number has exactly one numeral.
-/

namespace ChainGraph.Foundation

/-! ## Checked operators -/

/-- What a checked operator stops for. -/
inductive Panic where
  | overflow
  | outOfBounds
  | divideByZero
deriving DecidableEq, Repr

/-- How a computation ends without a value. -/
inductive Halt (ε : Type) where
  | panicked (p : Panic)
  | returned (e : ε)
deriving DecidableEq, Repr

abbrev Checked (ε α : Type) := Except (Halt ε) α

/-- A word that is not the largest has a successor. -/
theorem toNat_succ {n : UInt64} (h : n.toNat + 1 < 2 ^ 64) : (n + 1).toNat = n.toNat + 1 := by
  rw [UInt64.toNat_add]
  exact Nat.mod_eq_of_lt h

namespace Checked

variable {ε α β : Type}

/-- A computation that ends with a value or an error. -/
def Safe (r : Checked ε α) : Prop := ∀ p, r ≠ .error (.panicked p)

@[simp] theorem safe_ok (a : α) : Safe (.ok a : Checked ε α) := fun _ h => by cases h

@[simp] theorem safe_returned (e : ε) : Safe (.error (.returned e) : Checked ε α) :=
  fun _ h => by cases h

theorem Safe.bind {r : Checked ε α} {f : α → Checked ε β} (first : Safe r)
    (rest : ∀ a, r = .ok a → Safe (f a)) : Safe (r >>= f) := by
  cases r with
  | ok a => exact rest a rfl
  | error halt =>
    intro p h
    cases halt with
    | panicked q => exact first q rfl
    | returned e => cases h

theorem bind_eq_ok {r : Checked ε α} {f : α → Checked ε β} {b : β} :
    (r >>= f) = .ok b ↔ ∃ a, r = .ok a ∧ f a = .ok b := by
  cases r with
  | ok a => simp [bind, Except.bind]
  | error halt => simp [bind, Except.bind]

/-- The value of an error, mapped. -/
def mapErr {δ : Type} (f : ε → δ) : Checked ε α → Checked δ α
  | .ok a => .ok a
  | .error (.returned e) => .error (.returned (f e))
  | .error (.panicked p) => .error (.panicked p)

theorem Safe.mapErr {δ : Type} {r : Checked ε α} (safe : Safe r) (f : ε → δ) :
    Safe (r.mapErr f) := by
  intro p h
  cases r with
  | ok a => cases h
  | error halt =>
    cases halt with
    | panicked q => exact safe q rfl
    | returned e => cases h

/-- `data[i]`. -/
def index (data : List α) (i : ℕ) : Checked ε α :=
  match data[i]? with
  | some a => .ok a
  | none => .error (.panicked .outOfBounds)

theorem index_append (pre rest : List α) (a : α) :
    (index (pre ++ a :: rest) pre.length : Checked ε α) = .ok a := by
  simp [index]

/-- `&data[i..]`. -/
def sliceFrom (data : List α) (i : ℕ) : Checked ε (List α) :=
  if i ≤ data.length then .ok (data.drop i) else .error (.panicked .outOfBounds)

theorem sliceFrom_of_le {data : List α} {i : ℕ} (h : i ≤ data.length) :
    (sliceFrom data i : Checked ε (List α)) = .ok (data.drop i) := if_pos h

/-- `n << k`, where no bit is lost. -/
def shl (n : UInt64) (k : ℕ) : Checked ε UInt64 :=
  if n.toNat * 2 ^ k < 2 ^ 64 then .ok (n <<< .ofNat k) else .error (.panicked .overflow)

theorem shl_of_lt {n : UInt64} {k : ℕ} (places : k < 64) (h : n.toNat * 2 ^ k < 2 ^ 64) :
    ∃ m : UInt64, m.toNat = n.toNat * 2 ^ k ∧ (shl n k : Checked ε UInt64) = .ok m := by
  refine ⟨n <<< .ofNat k, ?_, if_pos h⟩
  have small : (UInt64.ofNat k).toNat = k := UInt64.toNat_ofNat_of_lt' (by
    rw [UInt64.size]
    omega)
  rw [UInt64.toNat_shiftLeft, small, Nat.mod_eq_of_lt places, Nat.shiftLeft_eq, Nat.mod_eq_of_lt h]

/-- `n + 1`, where it is no larger than the largest word. -/
def succ (n : UInt64) : Checked ε UInt64 :=
  if n.toNat + 1 < 2 ^ 64 then .ok (n + 1) else .error (.panicked .overflow)

theorem succ_of_lt {n : UInt64} (h : n.toNat + 1 < 2 ^ 64) :
    ∃ m : UInt64, m.toNat = n.toNat + 1 ∧ (succ n : Checked ε UInt64) = .ok m :=
  ⟨n + 1, toNat_succ h, if_pos h⟩

/-- `m * n`, where the product is a word. -/
def mul (m n : UInt64) : Checked ε UInt64 :=
  if m.toNat * n.toNat < 2 ^ 64 then .ok (m * n) else .error (.panicked .overflow)

theorem mul_eq_ok {m n r : UInt64} (product : (mul m n : Checked ε UInt64) = .ok r) :
    r.toNat = m.toNat * n.toNat := by
  unfold mul at product
  split at product
  · rename_i fits
    cases product
    rw [UInt64.toNat_mul, Nat.mod_eq_of_lt fits]
  · cases product

theorem safe_mul_iff {m n : UInt64} :
    Safe (mul m n : Checked ε UInt64) ↔ m.toNat * n.toNat < 2 ^ 64 := by
  unfold mul
  split
  · rename_i fits
    exact iff_of_true (safe_ok _) fits
  · rename_i large
    exact iff_of_false (fun safe => safe _ rfl) large

/-- Of two steps none panics. -/
theorem safe_bind_iff {r : Checked ε α} {f : α → Checked ε β} :
    Safe (r >>= f) ↔ Safe r ∧ ∀ a, r = .ok a → Safe (f a) := by
  constructor
  · intro safe
    cases r with
    | ok a =>
      refine ⟨safe_ok a, ?_⟩
      intro b same
      cases same
      exact safe
    | error halt =>
      refine ⟨?_, fun a no => by cases no⟩
      intro p same
      cases same
      exact safe p rfl
  · rintro ⟨first, rest⟩
    exact first.bind rest

end Checked

/-! ## Bijective numeration -/

namespace Numeration

variable {b m q : ℕ} {ds : List ℕ}

/-- The number of the leading digits read after `m`: every one of them carries one into the next
place. -/
def carry (b m : ℕ) (ds : List ℕ) : ℕ := ds.foldl (fun m d => m * b + d + 1) m

/-- The leading digits of a number, most significant first. -/
def leading (b : ℕ) : ℕ → List ℕ
  | 0 => []
  | q + 1 => leading b (q / b) ++ [q % b]
termination_by q => q
decreasing_by exact Nat.lt_succ_of_le (Nat.div_le_self q b)

@[simp] theorem carry_nil : carry b m [] = m := rfl

@[simp] theorem carry_cons (d : ℕ) : carry b m (d :: ds) = carry b (m * b + d + 1) ds := rfl

theorem carry_concat (d : ℕ) : carry b m (ds ++ [d]) = carry b m ds * b + d + 1 := by
  simp [carry, List.foldl_append]

/-- Reading on never makes the number smaller. -/
theorem le_carry (pos : 0 < b) : m ≤ carry b m ds := by
  induction ds generalizing m with
  | nil => exact Nat.le_refl m
  | cons d ds ih =>
    have grown : m ≤ m * b := Nat.le_mul_of_pos_right m pos
    have rest := ih (m := m * b + d + 1)
    rw [carry_cons]
    omega

theorem leading_lt (pos : 0 < b) : ∀ d ∈ leading b q, d < b := by
  induction q using leading.induct b with
  | case1 => simp [leading]
  | case2 q ih =>
    intro d mem
    rw [leading, List.mem_append, List.mem_singleton] at mem
    rcases mem with old | rfl
    · exact ih d old
    · exact Nat.mod_lt q pos

/-- The leading digits of a number are read as that number. -/
theorem carry_leading : carry b 0 (leading b q) = q := by
  induction q using leading.induct b with
  | case1 => simp [leading]
  | case2 q ih =>
    rw [leading, carry_concat, ih, Nat.mul_comm, Nat.div_add_mod]

/-- Digits are the leading digits of the number they are read as. -/
theorem leading_carry (pos : 0 < b) (digits : ∀ d ∈ ds, d < b) : leading b (carry b 0 ds) = ds := by
  induction ds using List.reverseRecOn with
  | nil => simp [leading]
  | append_singleton ds d ih =>
    have last : d < b := digits d (by simp)
    have before := ih fun e mem => digits e (List.mem_append_left _ mem)
    have quotient : (carry b 0 ds * b + d) / b = carry b 0 ds := by
      rw [Nat.mul_comm, Nat.mul_add_div pos, Nat.div_eq_of_lt last, Nat.add_zero]
    have remainder : (carry b 0 ds * b + d) % b = d := by
      rw [Nat.mul_comm, Nat.mul_add_mod, Nat.mod_eq_of_lt last]
    rw [carry_concat, leading, quotient, remainder, before]

end Numeration

end ChainGraph.Foundation

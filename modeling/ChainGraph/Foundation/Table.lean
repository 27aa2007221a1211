import Mathlib.Data.Finset.Image
import Mathlib.Data.List.Sort
import Mathlib.Data.Multiset.UnionInter
import Mathlib.Tactic.Common

/-!
# Keyed tables and bags of links

The finite relational substrate a property graph is stored in, independent of any program.

A `Table α key` is a finite set of rows in which the key is unique: the uniqueness constraint is
a field of the structure, so a table that violates it cannot be built. Rows enter by `upsert`,
which replaces the row under their key, and leave by `delete`. Every operation is described by the
membership of its result, and two tables with the same members are equal, so laws about sequences
of operations are proved by membership.

Links between rows are a multiset of pairs. `link` always adds one more; `mergeLink` adds one
only when none is there. The closed forms at the end say what a whole list of either does.
-/

namespace ChainGraph.Foundation

variable {α κ ε : Type}

/-! ## The only element of a multiset -/

/-- The element of a one-element multiset, and nothing for any other size. -/
def sole (s : Multiset α) : Option α :=
  Quot.liftOn s (fun l => match l with | [a] => some a | _ => none) <| by
    intro l l' perm
    match l, l', perm.length_eq with
    | [], [], _ => rfl
    | [_], [_], _ => rw [List.singleton_perm_singleton.mp perm]
    | _ :: _ :: _, _ :: _ :: _, _ => rfl

@[simp] theorem sole_singleton (a : α) : sole ({a} : Multiset α) = some a := rfl

@[simp] theorem sole_zero : sole (0 : Multiset α) = none := rfl

theorem sole_eq_some {s : Multiset α} {a : α} (h : sole s = some a) : s = {a} := by
  induction s using Quot.inductionOn with
  | h l =>
    match l, h with
    | [_], h => cases h; rfl

/-! ## Listing a multiset

A query that returns several rows returns them in an order of its own. Listing in the order of the
type fixes one; where at most one row can match it is no choice at all. -/

/-- The elements of a multiset in increasing order. -/
def listing [LinearOrder α] (s : Multiset α) : List α :=
  Quot.liftOn s (fun l => l.insertionSort (· ≤ ·)) fun l l' perm =>
    have same := (l.perm_insertionSort (· ≤ ·)).trans
      (List.Perm.trans perm (l'.perm_insertionSort (· ≤ ·)).symm)
    same.eq_of_pairwise' (l.pairwise_insertionSort (· ≤ ·)) (l'.pairwise_insertionSort (· ≤ ·))

@[simp] theorem listing_zero [LinearOrder α] : listing (0 : Multiset α) = [] := rfl

@[simp] theorem listing_singleton [LinearOrder α] (a : α) : listing ({a} : Multiset α) = [a] := rfl

@[simp] theorem length_listing [LinearOrder α] (s : Multiset α) :
    (listing s).length = s.card := by
  induction s using Quot.inductionOn with
  | h l => exact List.length_insertionSort ..

@[simp] theorem mem_listing [LinearOrder α] {s : Multiset α} {a : α} :
    a ∈ listing s ↔ a ∈ s := by
  induction s using Quot.inductionOn with
  | h l => exact List.mem_insertionSort ..

/-! ## Tables -/

/-- A finite set of rows with a unique key. -/
structure Table (α : Type) {κ : Type} (key : α → κ) where
  rows : Finset α
  unique : ∀ a ∈ rows, ∀ b ∈ rows, key a = key b → a = b

namespace Table

variable {key : α → κ}

instance : Membership α (Table α key) := ⟨fun t a => a ∈ t.rows⟩

theorem mem_rows {t : Table α key} {a : α} : a ∈ t.rows ↔ a ∈ t := Iff.rfl

/-- Tables with the same rows are the same table. -/
@[ext] theorem ext {s t : Table α key} (h : ∀ a, a ∈ s ↔ a ∈ t) : s = t := by
  obtain ⟨rows, _⟩ := s
  obtain ⟨rows', _⟩ := t
  have same : rows = rows' := Finset.ext h
  subst same
  rfl

/-- The table without rows. -/
def empty : Table α key := ⟨∅, by simp⟩

instance : EmptyCollection (Table α key) := ⟨empty⟩

@[simp] theorem not_mem_empty (a : α) : a ∉ (∅ : Table α key) := by
  intro h
  exact absurd h (Finset.notMem_empty a)

/-- Some row carries this key. -/
def Has (t : Table α key) (k : κ) : Prop := ∃ a ∈ t.rows, key a = k

theorem has_of_mem {t : Table α key} {a : α} (h : a ∈ t) : t.Has (key a) := ⟨a, h, rfl⟩

@[simp] theorem not_has_empty (k : κ) : ¬ (∅ : Table α key).Has k := by
  rintro ⟨a, ha, _⟩
  exact not_mem_empty a ha

/-- Remove the rows that satisfy `p`. -/
def delete (t : Table α key) (p : α → Prop) [DecidablePred p] : Table α key where
  rows := t.rows.filter (fun a => ¬ p a)
  unique a ha b hb := t.unique a (Finset.mem_of_mem_filter a ha) b (Finset.mem_of_mem_filter b hb)

@[simp] theorem mem_delete {t : Table α key} {p : α → Prop} [DecidablePred p] {a : α} :
    a ∈ t.delete p ↔ a ∈ t ∧ ¬ p a :=
  Finset.mem_filter

theorem delete_eq_self {t : Table α key} {p : α → Prop} [DecidablePred p]
    (kept : ∀ a ∈ t, ¬ p a) : t.delete p = t := by
  ext a
  rw [mem_delete]
  exact ⟨And.left, fun mem => ⟨mem, kept a mem⟩⟩

theorem has_delete {t : Table α key} {p : α → Prop} [DecidablePred p] {k : κ} :
    (t.delete p).Has k ↔ ∃ a ∈ t, ¬ p a ∧ key a = k := by
  constructor
  · rintro ⟨a, ha, rfl⟩
    exact ⟨a, (mem_delete.mp ha).1, (mem_delete.mp ha).2, rfl⟩
  · rintro ⟨a, ha, hp, rfl⟩
    exact has_of_mem (mem_delete.mpr ⟨ha, hp⟩)

section Keyed

variable [DecidableEq κ]

instance (t : Table α key) (k : κ) : Decidable (t.Has k) :=
  inferInstanceAs (Decidable (∃ a ∈ t.rows, key a = k))

/-- The row under a key. -/
def get? (t : Table α key) (k : κ) : Option α := sole (t.rows.filter (key · = k)).val

theorem get?_eq_some {t : Table α key} {k : κ} {a : α} :
    t.get? k = some a ↔ a ∈ t ∧ key a = k := by
  constructor
  · intro h
    have only : a ∈ (t.rows.filter (key · = k)).val := by
      rw [sole_eq_some h]
      exact Multiset.mem_singleton_self a
    exact Finset.mem_filter.mp only
  · rintro ⟨mem, rfl⟩
    have single : t.rows.filter (key · = key a) = {a} := by
      ext b
      simp only [Finset.mem_filter, Finset.mem_singleton]
      constructor
      · rintro ⟨hb, hk⟩
        exact t.unique b hb a mem hk
      · rintro rfl
        exact ⟨mem, rfl⟩
    rw [get?, single, Finset.singleton_val, sole_singleton]

theorem get?_eq_none {t : Table α key} {k : κ} : t.get? k = none ↔ ¬ t.Has k := by
  constructor
  · rintro h ⟨a, mem, rfl⟩
    rw [get?_eq_some.mpr ⟨mem, rfl⟩] at h
    cases h
  · intro absent
    cases h : t.get? k with
    | none => rfl
    | some a => exact absurd ⟨a, get?_eq_some.mp h⟩ absent

variable [DecidableEq α]

/-- Store a row, in place of the row under its key if there is one. -/
def upsert (t : Table α key) (a : α) : Table α key where
  rows := insert a (t.rows.filter (key · ≠ key a))
  unique b hb c hc same := by
    simp only [Finset.mem_insert, Finset.mem_filter] at hb hc
    rcases hb with rfl | ⟨hb, nb⟩ <;> rcases hc with rfl | ⟨hc, nc⟩
    · rfl
    · exact absurd same.symm nc
    · exact absurd same nb
    · exact t.unique b hb c hc same

@[simp] theorem mem_upsert {t : Table α key} {a b : α} :
    b ∈ t.upsert a ↔ b = a ∨ b ∈ t ∧ key b ≠ key a := by
  show b ∈ insert a (t.rows.filter (key · ≠ key a)) ↔ _
  simp only [Finset.mem_insert, Finset.mem_filter, mem_rows]

/-- A row under another key is neither put nor replaced. -/
theorem mem_upsert_of_ne {t : Table α key} {a b : α} (other : key b ≠ key a) :
    b ∈ t.upsert a ↔ b ∈ t := by
  rw [mem_upsert]
  constructor
  · rintro (rfl | ⟨old, _⟩)
    · exact absurd rfl other
    · exact old
  · exact fun old => Or.inr ⟨old, other⟩

/-- Rows under different keys are stored in either order. -/
theorem upsert_comm {a b : α} (other : key a ≠ key b) (t : Table α key) :
    (t.upsert a).upsert b = (t.upsert b).upsert a := by
  ext c
  simp only [mem_upsert]
  constructor
  · rintro (rfl | ⟨rfl | ⟨old, na⟩, nb⟩)
    · exact Or.inr ⟨Or.inl rfl, other.symm⟩
    · exact Or.inl rfl
    · exact Or.inr ⟨Or.inr ⟨old, nb⟩, na⟩
  · rintro (rfl | ⟨rfl | ⟨old, nb⟩, na⟩)
    · exact Or.inr ⟨Or.inl rfl, other⟩
    · exact Or.inl rfl
    · exact Or.inr ⟨Or.inr ⟨old, na⟩, nb⟩

@[simp] theorem has_upsert {t : Table α key} {a : α} {k : κ} :
    (t.upsert a).Has k ↔ key a = k ∨ t.Has k := by
  constructor
  · rintro ⟨b, hb, rfl⟩
    rcases mem_upsert.mp hb with rfl | ⟨mem, _⟩
    · exact Or.inl rfl
    · exact Or.inr (has_of_mem mem)
  · rintro (rfl | ⟨b, hb, rfl⟩)
    · exact has_of_mem (mem_upsert.mpr (Or.inl rfl))
    · by_cases same : key b = key a
      · exact ⟨a, mem_upsert.mpr (Or.inl rfl), same.symm⟩
      · exact has_of_mem (mem_upsert.mpr (Or.inr ⟨hb, same⟩))

/-- Storing a list of rows whose equal keys mean equal rows: the listed rows, and the old rows
under keys the list does not mention. -/
theorem mem_foldl_upsert (rows : List α)
    (agree : ∀ a ∈ rows, ∀ b ∈ rows, key a = key b → a = b) (t : Table α key) {x : α} :
    x ∈ rows.foldl upsert t ↔ x ∈ rows ∨ x ∈ t ∧ ∀ r ∈ rows, key x ≠ key r := by
  induction rows generalizing t with
  | nil => simp
  | cons r rest ih =>
    have agree' : ∀ a ∈ rest, ∀ b ∈ rest, key a = key b → a = b := fun a ha b hb =>
      agree a (List.mem_cons_of_mem r ha) b (List.mem_cons_of_mem r hb)
    rw [List.foldl_cons, ih agree']
    simp only [mem_upsert, List.mem_cons, forall_eq_or_imp]
    constructor
    · rintro (mem | ⟨rfl | ⟨mem, nr⟩, away⟩)
      · exact Or.inl (Or.inr mem)
      · exact Or.inl (Or.inl rfl)
      · exact Or.inr ⟨mem, nr, away⟩
    · rintro ((rfl | mem) | ⟨mem, nr, away⟩)
      · by_cases again : ∃ s ∈ rest, key x = key s
        · obtain ⟨s, hs, same⟩ := again
          have : x = s := agree x (by simp) s (List.mem_cons_of_mem _ hs) same
          exact Or.inl (this ▸ hs)
        · exact Or.inr ⟨Or.inl rfl, fun s hs same => again ⟨s, hs, same⟩⟩
      · exact Or.inl mem
      · exact Or.inr ⟨Or.inr ⟨mem, nr⟩, away⟩

/-- A row is there if no later one has its key. -/
theorem mem_foldl_upsert_last (pre post : List α) {a : α} (last : ∀ b ∈ post, key b ≠ key a)
    (t : Table α key) : a ∈ (pre ++ a :: post).foldl upsert t := by
  rw [List.foldl_append, List.foldl_cons]
  have here : a ∈ (pre.foldl upsert t).upsert a := mem_upsert.mpr (Or.inl rfl)
  generalize (pre.foldl upsert t).upsert a = t' at here ⊢
  induction post generalizing t' with
  | nil => exact here
  | cons b post ih =>
    exact ih (fun d hd => last d (List.mem_cons_of_mem b hd)) _
      (mem_upsert.mpr (Or.inr ⟨here, (last b List.mem_cons_self).symm⟩))

theorem has_foldl_upsert (rows : List α) (t : Table α key) {k : κ} :
    (rows.foldl upsert t).Has k ↔ k ∈ rows.map key ∨ t.Has k := by
  induction rows generalizing t with
  | nil => simp
  | cons r rest ih =>
    rw [List.foldl_cons, ih, has_upsert, List.map_cons, List.mem_cons, eq_comm]
    tauto

/-- Rows whose equal keys mean equal rows are stored in any order. -/
theorem foldl_upsert_perm {rows rows' : List α} (perm : rows.Perm rows')
    (agree : ∀ a ∈ rows, ∀ b ∈ rows, key a = key b → a = b) (t : Table α key) :
    rows.foldl upsert t = rows'.foldl upsert t := by
  have agree' : ∀ a ∈ rows', ∀ b ∈ rows', key a = key b → a = b := fun a ha b hb =>
    agree a (perm.mem_iff.mpr ha) b (perm.mem_iff.mpr hb)
  ext x
  rw [mem_foldl_upsert rows agree, mem_foldl_upsert rows' agree']
  simp only [perm.mem_iff]

/-- Storing rows whose keys differ and are all free. -/
theorem mem_foldl_upsert_new {rows : List α} {t : Table α key} (nodup : (rows.map key).Nodup)
    (free : ∀ r ∈ rows, ¬ t.Has (key r)) {x : α} :
    x ∈ rows.foldl upsert t ↔ x ∈ rows ∨ x ∈ t := by
  rw [mem_foldl_upsert rows fun a ha b hb same => List.inj_on_of_nodup_map nodup ha hb same]
  constructor
  · rintro (new | ⟨old, _⟩)
    · exact Or.inl new
    · exact Or.inr old
  · rintro (new | old)
    · exact Or.inl new
    · exact Or.inr ⟨old, fun r hr same => free r hr (same ▸ has_of_mem old)⟩

/-- Deleting rows that were new leaves what was there before. -/
theorem delete_foldl_upsert_new {rows : List α} {t : Table α key} {p : α → Prop} [DecidablePred p]
    (nodup : (rows.map key).Nodup) (free : ∀ r ∈ rows, ¬ t.Has (key r)) (new : ∀ r ∈ rows, p r)
    (old : ∀ a ∈ t, ¬ p a) : (rows.foldl upsert t).delete p = t := by
  ext x
  rw [mem_delete, mem_foldl_upsert_new nodup free]
  constructor
  · rintro ⟨row | kept, away⟩
    · exact absurd (new x row) away
    · exact kept
  · exact fun kept => ⟨Or.inr kept, old x kept⟩

/-- Rows under keys a list does not mention are left alone. -/
theorem mem_foldl_upsert_away {rows : List α} {t : Table α key} {x : α}
    (away : ∀ r ∈ rows, key x ≠ key r) : x ∈ rows.foldl upsert t ↔ x ∈ t := by
  induction rows generalizing t with
  | nil => rfl
  | cons r rest ih =>
    have other := away r List.mem_cons_self
    rw [List.foldl_cons, ih fun s hs => away s (List.mem_cons_of_mem r hs), mem_upsert]
    constructor
    · rintro (rfl | old)
      · exact absurd rfl other
      · exact old.1
    · exact fun old => Or.inr ⟨old, other⟩

/-- What is stored under the keys of the list before it makes no difference. -/
theorem foldl_upsert_congr {rows : List α} {t t' : Table α key}
    (same : ∀ x, (∀ r ∈ rows, key x ≠ key r) → (x ∈ t ↔ x ∈ t')) :
    rows.foldl upsert t = rows.foldl upsert t' := by
  induction rows generalizing t t' with
  | nil =>
    ext x
    exact same x fun r hr => absurd hr List.not_mem_nil
  | cons r rest ih =>
    apply ih
    intro x away
    rw [mem_upsert, mem_upsert]
    apply or_congr_right
    apply and_congr_left
    intro other
    exact same x (List.forall_mem_cons.mpr ⟨other, away⟩)

/-- Storing a list of rows a second time changes nothing. -/
theorem foldl_upsert_twice (rows : List α) (t : Table α key) :
    rows.foldl upsert (rows.foldl upsert t) = rows.foldl upsert t :=
  foldl_upsert_congr fun _ away => mem_foldl_upsert_away away

/-- Storing one of the rows before makes no difference. -/
theorem foldl_upsert_absorbs {rows : List α} {row : α} (mem : row ∈ rows) (t : Table α key) :
    rows.foldl upsert (t.upsert row) = rows.foldl upsert t := by
  refine foldl_upsert_congr fun x away => ?_
  rw [mem_upsert]
  constructor
  · rintro (rfl | old)
    · exact absurd rfl (away x mem)
    · exact old.1
  · exact fun old => Or.inr ⟨old, away row mem⟩

/-- A table filled from rows whose keys differ holds each row once. -/
theorem val_foldl_upsert_empty {rows : List α} (nodup : (rows.map key).Nodup) :
    (rows.foldl upsert (∅ : Table α key)).rows.val = ↑rows := by
  refine (Multiset.Nodup.ext (Finset.nodup _) (Multiset.coe_nodup.mpr nodup.of_map)).mpr fun x => ?_
  have mem := mem_foldl_upsert_new (t := (∅ : Table α key)) nodup
    (fun r _ => not_has_empty (key r)) (x := x)
  rw [Multiset.mem_coe]
  exact mem.trans (or_iff_left (not_mem_empty x))

end Keyed

end Table

/-! ## Rows in either order -/

/-- A step that commutes with every step of a fold may come before or after it. -/
theorem foldl_step {β γ : Type} {f : γ → β → γ} {step : γ → γ} {l : List β}
    (comm : ∀ b ∈ l, ∀ g, f (step g) b = step (f g b)) (g : γ) :
    l.foldl f (step g) = step (l.foldl f g) := by
  induction l generalizing g with
  | nil => rfl
  | cons b l ih =>
    rw [List.foldl_cons, comm b List.mem_cons_self]
    exact ih (fun b mem => comm b (List.mem_cons_of_mem _ mem)) (f g b)

/-- Two folds commute whose steps do. -/
theorem foldl_foldl_comm {β β' γ : Type} {f : γ → β → γ} {f' : γ → β' → γ} {l : List β}
    {l' : List β'} (comm : ∀ b ∈ l, ∀ b' ∈ l', ∀ g, f' (f g b) b' = f (f' g b') b) (g : γ) :
    l'.foldl f' (l.foldl f g) = l.foldl f (l'.foldl f' g) := by
  induction l generalizing g with
  | nil => rfl
  | cons b l ih =>
    rw [List.foldl_cons, List.foldl_cons, ih fun b mem => comm b (List.mem_cons_of_mem _ mem),
      foldl_step (comm b List.mem_cons_self)]

/-! ## Rows that can be refused -/

/-- What every row keeps that is not refused, rows keep of which none is. -/
theorem foldlM_keeps {β γ φ : Type} {S : γ → Prop} {f : γ → β → Except φ γ} {rows : List β}
    (step : ∀ b ∈ rows, ∀ g g', S g → f g b = .ok g' → S g') {g g' : γ} (here : S g)
    (ok : rows.foldlM f g = .ok g') : S g' := by
  induction rows generalizing g with
  | nil =>
    cases ok
    exact here
  | cons b rows ih =>
    rw [List.foldlM_cons] at ok
    cases first : f g b with
    | error e =>
      rw [first] at ok
      cases ok
    | ok g₁ =>
      rw [first] at ok
      exact ih (fun b mem => step b (List.mem_cons_of_mem _ mem))
        (step b List.mem_cons_self g g₁ here first) ok

/-- Rows stored one after the other, each refused when its key is taken, are all stored iff their
keys differ and are all free at the start. -/
theorem foldlM_guarded {γ κ' φ : Type} {t : γ → κ' → Prop} [∀ g k, Decidable (t g k)]
    {key : α → κ'} {put : γ → α → γ} {fault : φ}
    (grows : ∀ g a k, t (put g a) k ↔ key a = k ∨ t g k) {rows : List α} {g g' : γ} :
    rows.foldlM (fun g a => if t g (key a) then Except.error fault else .ok (put g a)) g =
        .ok g' ↔
      ((rows.map key).Nodup ∧ ∀ a ∈ rows, ¬ t g (key a)) ∧ g' = rows.foldl put g := by
  induction rows generalizing g with
  | nil =>
    constructor
    · intro h
      cases h
      exact ⟨⟨List.nodup_nil, by simp⟩, rfl⟩
    · rintro ⟨_, rfl⟩
      rfl
  | cons a rows ih =>
    rw [List.foldlM_cons]
    by_cases refused : t g (key a)
    · rw [if_pos refused]
      constructor
      · intro h
        cases h
      · rintro ⟨⟨_, free⟩, _⟩
        exact absurd refused (free a List.mem_cons_self)
    · rw [if_neg refused]
      show rows.foldlM _ (put g a) = Except.ok g' ↔ _
      rw [ih, List.map_cons, List.nodup_cons, List.foldl_cons]
      simp only [grows, List.mem_cons, forall_eq_or_imp, not_or]
      constructor
      · rintro ⟨⟨nodup, free⟩, same⟩
        refine ⟨⟨⟨fun mem => ?_, nodup⟩, refused, fun b hb => (free b hb).2⟩, same⟩
        obtain ⟨b, hb, eq⟩ := List.mem_map.mp mem
        exact (free b hb).1 eq.symm
      · rintro ⟨⟨⟨other, nodup⟩, _, free⟩, same⟩
        exact ⟨⟨nodup, fun b hb => ⟨fun eq => other (eq ▸ List.mem_map_of_mem hb), free b hb⟩⟩,
          same⟩

/-! ## Links -/

section Links

variable [DecidableEq ε]

/-- One more link, whatever is there. -/
def link (s : Multiset ε) (e : ε) : Multiset ε := e ::ₘ s

/-- A link, unless one is there already. -/
def mergeLink (s : Multiset ε) (e : ε) : Multiset ε := if e ∈ s then s else e ::ₘ s

omit [DecidableEq ε] in
theorem foldl_link (s : Multiset ε) (es : List ε) : es.foldl link s = s + ↑es := by
  induction es generalizing s with
  | nil => simp
  | cons e es ih =>
    rw [List.foldl_cons, ih, link, ← Multiset.cons_coe, Multiset.cons_add, Multiset.add_cons]

@[simp] theorem mem_mergeLink {s : Multiset ε} {e x : ε} : x ∈ mergeLink s e ↔ x = e ∨ x ∈ s := by
  unfold mergeLink
  split
  · constructor
    · exact Or.inr
    · rintro (rfl | h)
      · assumption
      · exact h
  · exact Multiset.mem_cons

theorem mergeLink_of_notMem {s : Multiset ε} {e : ε} (h : e ∉ s) : mergeLink s e = e ::ₘ s :=
  if_neg h

theorem mergeLink_of_mem {s : Multiset ε} {e : ε} (h : e ∈ s) : mergeLink s e = s :=
  if_pos h

/-- Merging keeps a bag without repetitions free of them. -/
theorem nodup_mergeLink {s : Multiset ε} (h : s.Nodup) (e : ε) : (mergeLink s e).Nodup := by
  unfold mergeLink
  split
  · exact h
  · exact Multiset.nodup_cons.mpr ⟨‹_›, h⟩

/-- Merging distinct links that are all new adds each of them once. -/
theorem foldl_mergeLink {s : Multiset ε} {es : List ε} (nodup : es.Nodup)
    (new : ∀ e ∈ es, e ∉ s) : es.foldl mergeLink s = s + ↑es := by
  induction es generalizing s with
  | nil => simp
  | cons e es ih =>
    obtain ⟨notIn, rest⟩ := List.nodup_cons.mp nodup
    rw [List.foldl_cons, mergeLink_of_notMem (new e (by simp)), ih rest, ← Multiset.cons_coe,
      Multiset.cons_add, Multiset.add_cons]
    intro x hx
    rw [Multiset.mem_cons]
    rintro (rfl | old)
    · exact notIn hx
    · exact new x (List.mem_cons_of_mem e hx) old

omit [DecidableEq ε] in
/-- Taking out links that were new leaves those there were before. -/
theorem filter_add_new {s : Multiset ε} {es : List ε} {q : ε → Prop} [DecidablePred q]
    (old : ∀ e ∈ s, q e) (new : ∀ e ∈ es, ¬ q e) : (s + ↑es).filter q = s := by
  rw [Multiset.filter_add, Multiset.filter_eq_self.mpr old,
    Multiset.filter_eq_nil.mpr fun e mem => new e (Multiset.mem_coe.mp mem), Multiset.add_zero]

omit [DecidableEq ε] in
/-- The same with a second condition, which the old ones meet. -/
theorem filter_filter_add_new {s : Multiset ε} {es : List ε} {p q : ε → Prop} [DecidablePred p]
    [DecidablePred q] (old : ∀ e ∈ s, p e ∧ q e) (new : ∀ e ∈ es, ¬ p e) :
    ((s + ↑es).filter p).filter q = s := by
  rw [filter_add_new (fun e mem => (old e mem).1) new]
  exact Multiset.filter_eq_self.mpr fun e mem => (old e mem).2

/-- Merging links a second time changes nothing. -/
theorem foldl_mergeLink_of_mem {s : Multiset ε} {es : List ε} (old : ∀ e ∈ es, e ∈ s) :
    es.foldl mergeLink s = s := by
  induction es with
  | nil => rfl
  | cons e es ih =>
    rw [List.foldl_cons, mergeLink_of_mem (old e (by simp))]
    exact ih fun x hx => old x (List.mem_cons_of_mem e hx)

theorem mem_foldl_mergeLink {s : Multiset ε} {es : List ε} {e : ε} :
    e ∈ es.foldl mergeLink s ↔ e ∈ es ∨ e ∈ s := by
  induction es generalizing s with
  | nil => simp
  | cons d es ih =>
    rw [List.foldl_cons, ih, mem_mergeLink, List.mem_cons]
    tauto

/-- Merging adds no link a second time. -/
theorem count_foldl_mergeLink (es : List ε) (s : Multiset ε) (e : ε) :
    (es.foldl mergeLink s).count e ≤ max 1 (s.count e) := by
  induction es generalizing s with
  | nil => exact Nat.le_max_right ..
  | cons d es ih =>
    refine (ih _).trans (Nat.max_le.mpr ⟨Nat.le_max_left .., ?_⟩)
    by_cases mem : d ∈ s
    · rw [mergeLink_of_mem mem]
      exact Nat.le_max_right ..
    · rw [mergeLink_of_notMem mem]
      by_cases same : e = d
      · rw [same, Multiset.count_cons_self, Multiset.count_eq_zero_of_notMem mem]
        exact Nat.le_max_left ..
      · rw [Multiset.count_cons_of_ne same]
        exact Nat.le_max_right ..

/-- Merging new links adds each of them once only if they are distinct. -/
theorem nodup_of_foldl_mergeLink {s : Multiset ε} {es : List ε} (new : ∀ e ∈ es, e ∉ s)
    (same : es.foldl mergeLink s = s + ↑es) : es.Nodup := by
  rw [List.nodup_iff_count_le_one]
  intro e
  by_cases mem : e ∈ es
  · have most := count_foldl_mergeLink es s e
    rw [same, Multiset.count_add, Multiset.coe_count,
      Multiset.count_eq_zero_of_notMem (new e mem)] at most
    omega
  · rw [List.count_eq_zero_of_not_mem mem]
    exact Nat.zero_le 1

theorem mergeLink_comm (s : Multiset ε) (d e : ε) :
    mergeLink (mergeLink s d) e = mergeLink (mergeLink s e) d := by
  unfold mergeLink
  by_cases same : d = e
  · rw [same]
  · by_cases hd : d ∈ s <;> by_cases he : e ∈ s <;> simp [hd, he, same, Ne.symm same]
    exact Multiset.cons_swap e d s

/-- Merging one of the links before makes no difference. -/
theorem foldl_mergeLink_absorbs {es : List ε} {e : ε} (mem : e ∈ es) (s : Multiset ε) :
    es.foldl mergeLink (mergeLink s e) = es.foldl mergeLink s := by
  induction es generalizing s with
  | nil => cases mem
  | cons d es ih =>
    rw [List.foldl_cons, List.foldl_cons]
    rcases List.mem_cons.mp mem with rfl | later
    · rw [mergeLink_of_mem (s := mergeLink s e) (mem_mergeLink.mpr (Or.inl rfl))]
    · rw [mergeLink_comm, ih later]

theorem foldl_mergeLink_twice (es : List ε) (s : Multiset ε) :
    es.foldl mergeLink (es.foldl mergeLink s) = es.foldl mergeLink s :=
  foldl_mergeLink_of_mem fun _ mem => mem_foldl_mergeLink.mpr (Or.inl mem)

end Links

end ChainGraph.Foundation

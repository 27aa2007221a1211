import Mathlib.Logic.Basic
import Mathlib.Tactic.Common

/-!
# Programs over an interface

A program either returns, fails with an error, or calls an operation of its interface and
continues from the answer. It says which calls are made in which order and nothing about what
they do; a handler gives them meaning over a state.

Three readings of one program are used:

- `run`: every call is handled, to the end.
- `crash n`: the state after the first `n` calls, for a process that dies there.
- `Always P`: every call the program could make, whatever the answers, satisfies `P`. What such
  calls preserve is preserved by every run and at every crash.

The bind law of each reading is what a proof about a program in `do` notation uses; no proof
unfolds a continuation.
-/

namespace ChainGraph.Foundation

/-- Operations, and the type of the answer to each. -/
structure Interface where
  Op : Type
  Reply : Op → Type

/-- A program that answers `α` or fails with `ε`. -/
inductive Prog (I : Interface) (ε α : Type) where
  | ret (a : α)
  | fail (e : ε)
  | vis (o : I.Op) (k : I.Reply o → Prog I ε α)

namespace Prog

variable {I J : Interface} {ε α β σ : Type}

/-- Sequencing: the first failure is the outcome. -/
def bind : Prog I ε α → (α → Prog I ε β) → Prog I ε β
  | ret a, f => f a
  | fail e, _ => fail e
  | vis o k, f => vis o fun r => (k r).bind f

instance : Monad (Prog I ε) where
  pure := ret
  bind := bind

instance : MonadExcept ε (Prog I ε) where
  throw := fail
  tryCatch p handler :=
    let rec go : Prog I ε _ → Prog I ε _
      | ret a => ret a
      | fail e => handler e
      | vis o k => vis o fun r => go (k r)
    go p

/-- One call. -/
def perform (o : I.Op) : Prog I ε (I.Reply o) := vis o ret

/-- The outcome as a value: failures are answered, not propagated. -/
def attempt : Prog I ε α → Prog I ε (Except ε α)
  | ret a => ret (.ok a)
  | fail e => ret (.error e)
  | vis o k => vis o fun r => (k r).attempt

/-- Propagate a recorded outcome. -/
def ofExcept : Except ε α → Prog I ε α
  | .ok a => ret a
  | .error e => fail e

/-! ## Running -/

/-- What each operation does to a state and answers. -/
abbrev Handler (I : Interface) (σ : Type) := (o : I.Op) → σ → I.Reply o × σ

/-- Handle every call, to the end. -/
def run (h : Handler I σ) : Prog I ε α → σ → Except ε α × σ
  | ret a, s => (.ok a, s)
  | fail e, s => (.error e, s)
  | vis o k, s => run h (k (h o s).1) (h o s).2

variable {h : Handler I σ}

@[simp] theorem run_pure (a : α) (s : σ) : run h (pure a : Prog I ε α) s = (.ok a, s) := rfl

@[simp] theorem run_throw (e : ε) (s : σ) :
    run h (throw e : Prog I ε α) s = (.error e, s) := rfl

@[simp] theorem run_perform (o : I.Op) (s : σ) :
    run h (perform o : Prog I ε (I.Reply o)) s = (.ok (h o s).1, (h o s).2) := rfl

theorem run_bind (p : Prog I ε α) (f : α → Prog I ε β) (s : σ) :
    run h (p >>= f) s =
      match run h p s with
      | (.ok a, s') => run h (f a) s'
      | (.error e, s') => (.error e, s') := by
  induction p generalizing s with
  | ret a => rfl
  | fail e => rfl
  | vis o k ih => exact ih (h o s).1 (h o s).2

theorem run_bind_ok {p : Prog I ε α} {f : α → Prog I ε β} {s s' : σ} {a : α}
    (first : run h p s = (.ok a, s')) : run h (p >>= f) s = run h (f a) s' := by
  rw [run_bind, first]

theorem run_bind_error {p : Prog I ε α} {f : α → Prog I ε β} {s s' : σ} {e : ε}
    (first : run h p s = (.error e, s')) : run h (p >>= f) s = (.error e, s') := by
  rw [run_bind, first]

/-- A sequence that succeeds is a success followed by a success. -/
theorem run_bind_eq_ok {p : Prog I ε α} {f : α → Prog I ε β} {s s' : σ} {b : β}
    (done : run h (p >>= f) s = (.ok b, s')) :
    ∃ a t, run h p s = (.ok a, t) ∧ run h (f a) t = (.ok b, s') := by
  rw [run_bind] at done
  cases first : run h p s with
  | mk outcome t =>
    rw [first] at done
    cases outcome with
    | ok a => exact ⟨a, t, rfl, done⟩
    | error e => cases done

theorem bind_assoc {γ : Type} (p : Prog I ε α) (f : α → Prog I ε β) (f' : β → Prog I ε γ) :
    p >>= f >>= f' = p >>= fun a => f a >>= f' := by
  induction p with
  | ret a => rfl
  | fail e => rfl
  | vis o k ih => exact congrArg (vis o) (funext ih)

/-- Dropping a result does not change what a program does. -/
theorem run_discard (p : Prog I ε α) (s : σ) :
    (run h (p >>= fun _ => pure () : Prog I ε Unit) s).2 = (run h p s).2 := by
  rw [run_bind]
  cases run h p s with
  | mk outcome t => cases outcome <;> rfl

/-- A run that succeeds, with its result. -/
theorem run_eq_ok_of_isOk {p : Prog I ε α} {s : σ} (ok : (run h p s).1.isOk) :
    ∃ a, run h p s = (.ok a, (run h p s).2) := by
  cases ran : run h p s with
  | mk outcome t =>
    rw [ran] at ok
    cases outcome with
    | ok a => exact ⟨a, rfl⟩
    | error e => cases ok

@[simp] theorem run_attempt (p : Prog I ε α) (s : σ) :
    run h p.attempt s = (.ok (run h p s).1, (run h p s).2) := by
  induction p generalizing s with
  | ret a => rfl
  | fail e => rfl
  | vis o k ih => exact ih (h o s).1 (h o s).2

@[simp] theorem run_ofExcept (x : Except ε α) (s : σ) :
    run h (ofExcept x : Prog I ε α) s = (x, s) := by
  cases x <;> rfl

/-! ## Crashing -/

/-- The state after the first `n` calls. -/
def crash (h : Handler I σ) : ℕ → Prog I ε α → σ → σ
  | n + 1, vis o k, s => crash h n (k (h o s).1) (h o s).2
  | _, _, s => s

/-- The number of calls a run to the end makes. -/
def calls (h : Handler I σ) : Prog I ε α → σ → ℕ
  | vis o k, s => calls h (k (h o s).1) (h o s).2 + 1
  | _, _ => 0

@[simp] theorem crash_zero (p : Prog I ε α) (s : σ) : crash h 0 p s = s := by
  cases p <;> rfl

@[simp] theorem crash_pure (n : ℕ) (a : α) (s : σ) : crash h n (pure a : Prog I ε α) s = s := by
  cases n <;> rfl

@[simp] theorem calls_pure (a : α) (s : σ) : calls h (pure a : Prog I ε α) s = 0 := rfl

@[simp] theorem calls_perform (o : I.Op) (s : σ) :
    calls h (perform o : Prog I ε (I.Reply o)) s = 1 := rfl

/-- A crash after the last call leaves what the run leaves. -/
theorem crash_of_calls_le {n : ℕ} {p : Prog I ε α} {s : σ} (hn : calls h p s ≤ n) :
    crash h n p s = (run h p s).2 := by
  induction p generalizing n s with
  | ret a => cases n <;> rfl
  | fail e => cases n <;> rfl
  | vis o k ih =>
    cases n with
    | zero => exact absurd hn (Nat.not_succ_le_zero _)
    | succ n => exact ih (h o s).1 (Nat.le_of_succ_le_succ hn)

/-! ## Every call a program could make -/

/-- Every call satisfies `P`, whatever earlier calls answered. -/
def Always (P : I.Op → Prop) : Prog I ε α → Prop
  | ret _ => True
  | fail _ => True
  | vis o k => P o ∧ ∀ r, (k r).Always P

variable {P : I.Op → Prop}

@[simp] theorem always_pure (a : α) : (pure a : Prog I ε α).Always P := trivial

@[simp] theorem always_throw (e : ε) : (throw e : Prog I ε α).Always P := trivial

@[simp] theorem always_perform {o : I.Op} : (perform o : Prog I ε (I.Reply o)).Always P ↔ P o :=
  ⟨fun all => all.1, fun ho => ⟨ho, fun _ => trivial⟩⟩

@[simp] theorem always_ofExcept (x : Except ε α) : (ofExcept x : Prog I ε α).Always P := by
  cases x <;> trivial

theorem Always.bind {p : Prog I ε α} {f : α → Prog I ε β} (first : p.Always P)
    (rest : ∀ a, (f a).Always P) : (p >>= f).Always P := by
  induction p with
  | ret a => exact rest a
  | fail e => trivial
  | vis o k ih => exact ⟨first.1, fun r => ih r (first.2 r)⟩

theorem Always.attempt {p : Prog I ε α} (all : p.Always P) : p.attempt.Always P := by
  induction p with
  | ret a => trivial
  | fail e => trivial
  | vis o k ih => exact ⟨all.1, fun r => ih r (all.2 r)⟩

theorem always_true (p : Prog I ε α) : p.Always fun _ => True := by
  induction p with
  | ret a => trivial
  | fail e => trivial
  | vis o k ih => exact ⟨trivial, ih⟩

theorem Always.mono {p : Prog I ε α} {Q : I.Op → Prop} (imp : ∀ o, P o → Q o)
    (all : p.Always P) : p.Always Q := by
  induction p with
  | ret a => trivial
  | fail e => trivial
  | vis o k ih => exact ⟨imp o all.1, fun r => ih r (all.2 r)⟩

theorem Always.forM {γ : Type} {l : List γ} {f : γ → Prog I ε PUnit}
    (each : ∀ c ∈ l, (f c).Always P) : (l.forM f).Always P := by
  induction l with
  | nil => trivial
  | cons c l ih =>
    rw [List.forM_eq_forM, List.forM_cons]
    exact (each c List.mem_cons_self).bind fun _ =>
      ih fun d hd => each d (List.mem_cons_of_mem c hd)

/-- What every call preserves, a run preserves. -/
theorem Always.run {S : σ → Prop} (keeps : ∀ o s, P o → S s → S (h o s).2)
    {p : Prog I ε α} (all : p.Always P) {s : σ} (inv : S s) : S (p.run h s).2 := by
  induction p generalizing s with
  | ret a => exact inv
  | fail e => exact inv
  | vis o k ih => exact ih (h o s).1 (all.2 _) (keeps o s all.1 inv)

/-- What every call preserves holds at every crash. -/
theorem Always.crash {S : σ → Prop} (keeps : ∀ o s, P o → S s → S (h o s).2)
    {p : Prog I ε α} (all : p.Always P) {s : σ} (inv : S s) (n : ℕ) :
    S (p.crash h n s) := by
  induction p generalizing n s with
  | ret a => cases n <;> exact inv
  | fail e => cases n <;> exact inv
  | vis o k ih =>
    cases n with
    | zero => exact inv
    | succ n => exact ih (h o s).1 (all.2 _) (keeps o s all.1 inv) n

/-! ## Programs of a smaller interface -/

/-- Every operation of `I` is one of `J`, with an answer to match. -/
structure Embedding (I J : Interface) where
  op : I.Op → J.Op
  reply : (o : I.Op) → J.Reply (op o) → I.Reply o

/-- The same program, its calls made through the larger interface. -/
def lift (m : Embedding I J) : Prog I ε α → Prog J ε α
  | ret a => ret a
  | fail e => fail e
  | vis o k => vis (m.op o) fun r => (k (m.reply o r)).lift m

/-- If the larger handler acts on a part of its state as the smaller one does, and leaves the
rest alone, the lifted program runs as the program does. -/
theorem run_lift {τ : Type} {m : Embedding I J} {g : Handler J τ} (get : τ → σ) (set : σ → τ → τ)
    (acts : ∀ o t, m.reply o (g (m.op o) t).1 = (h o (get t)).1 ∧
      (g (m.op o) t).2 = set (h o (get t)).2 t)
    (get_set : ∀ s t, get (set s t) = s) (set_set : ∀ s s' t, set s (set s' t) = set s t)
    (set_get : ∀ t, set (get t) t = t)
    (p : Prog I ε α) (t : τ) :
    run g (p.lift m) t = ((run h p (get t)).1, set (run h p (get t)).2 t) := by
  induction p generalizing t with
  | ret a => exact Prod.ext rfl (set_get t).symm
  | fail e => exact Prod.ext rfl (set_get t).symm
  | vis o k ih =>
    obtain ⟨answer, state⟩ := acts o t
    show run g ((k (m.reply o (g (m.op o) t).1)).lift m) (g (m.op o) t).2 = _
    rw [answer, ih, state, get_set, set_set]
    rfl

theorem always_lift {m : Embedding I J} {Q : J.Op → Prop} {p : Prog I ε α}
    (all : p.Always fun o => Q (m.op o)) : (p.lift m).Always Q := by
  induction p with
  | ret a => trivial
  | fail e => trivial
  | vis o k ih => exact ⟨all.1, fun r => ih _ (all.2 _)⟩

end Prog

end ChainGraph.Foundation

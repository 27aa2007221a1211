import ChainGraph.Foundation.Runs

/-!
# Runs beside runs, and runs to their end

Two handlers act alike on related states if a call is answered in the same way and leaves related
states. A program then runs alike under both, and is cut off alike. So what is known of a run whose
handler answers from a table holds of a run whose handler computes its answers and remembers them.

`Passes` follows a run through an invariant to whatever it ends with: it is `Keeps` without a
condition on the calls, and with a postcondition on failures too.
-/

namespace ChainGraph.Foundation.Prog

variable {I : Interface} {ε α β σ τ : Type} {h : Handler I σ} {g : Handler I τ}

/-! ## Handlers that act alike -/

/-- From related states a call is answered in the same way, and leaves related states. -/
def Alike (h : Handler I σ) (g : Handler I τ) (R : σ → τ → Prop) : Prop :=
  ∀ o s t, R s t → (h o s).1 = (g o t).1 ∧ R (h o s).2 (g o t).2

section Alike

variable {R : σ → τ → Prop} {s : σ} {t : τ}

/-- A program ends alike under both handlers. -/
theorem Alike.run (alike : Alike h g R) (p : Prog I ε α) (related : R s t) :
    (p.run h s).1 = (p.run g t).1 ∧ R (p.run h s).2 (p.run g t).2 := by
  induction p generalizing s t with
  | ret a => exact ⟨rfl, related⟩
  | fail e => exact ⟨rfl, related⟩
  | vis o k ih =>
    obtain ⟨answer, after⟩ := alike o s t related
    have rest := ih (h o s).1 after
    rw [answer] at rest
    unfold Prog.run
    rw [answer]
    exact rest

/-- A program is cut off alike under both handlers. -/
theorem Alike.crash (alike : Alike h g R) (p : Prog I ε α) (related : R s t) (n : ℕ) :
    R (p.crash h n s) (p.crash g n t) := by
  induction n generalizing p s t with
  | zero =>
    rw [crash_zero, crash_zero]
    exact related
  | succ n ih =>
    cases p with
    | ret a => exact related
    | fail e => exact related
    | vis o k =>
      obtain ⟨answer, after⟩ := alike o s t related
      have rest := ih (k (h o s).1) after
      rw [answer] at rest
      unfold Prog.crash
      rw [answer]
      exact rest

end Alike

/-! ## Runs to their end -/

/-- An invariant holds at every moment and a postcondition at the end, however it ends. -/
def Passes (h : Handler I σ) (S : σ → Prop) (post : Except ε α → σ → Prop) :
    Prog I ε α → σ → Prop
  | ret a, s => S s ∧ post (.ok a) s
  | fail e, s => S s ∧ post (.error e) s
  | vis o k, s => S s ∧ Passes h S post (k (h o s).1) (h o s).2

section Passes

variable {S : σ → Prop} {post post' : Except ε α → σ → Prop} {p : Prog I ε α} {s : σ}

theorem Passes.pure {a : α} (here : S s) (done : post (.ok a) s) :
    Passes h S post (pure a : Prog I ε α) s := ⟨here, done⟩

theorem Passes.throw {e : ε} (here : S s) (failed : post (.error e) s) :
    Passes h S post (throw e : Prog I ε α) s := ⟨here, failed⟩

theorem Passes.perform {o : I.Op} {after : Except ε (I.Reply o) → σ → Prop} (here : S s)
    (next : S (h o s).2) (done : after (.ok (h o s).1) (h o s).2) :
    Passes h S after (perform o : Prog I ε (I.Reply o)) s := ⟨here, next, done⟩

theorem Passes.here (passes : Passes h S post p s) : S s := by
  cases p with
  | ret a => exact passes.1
  | fail e => exact passes.1
  | vis o k => exact passes.1

theorem Passes.mono (passes : Passes h S post p s)
    (imp : ∀ r s', S s' → post r s' → post' r s') : Passes h S post' p s := by
  induction p generalizing s with
  | ret a => exact ⟨passes.1, imp _ s passes.1 passes.2⟩
  | fail e => exact ⟨passes.1, imp _ s passes.1 passes.2⟩
  | vis o k ih => exact ⟨passes.1, ih _ passes.2⟩

theorem Passes.weaken {T : σ → Prop} (passes : Passes h S post p s) (imp : ∀ s, S s → T s) :
    Passes h T post p s := by
  induction p generalizing s with
  | ret a => exact ⟨imp s passes.1, passes.2⟩
  | fail e => exact ⟨imp s passes.1, passes.2⟩
  | vis o k ih => exact ⟨imp s passes.1, ih _ passes.2⟩

theorem Passes.bind {f : α → Prog I ε β} {after : Except ε β → σ → Prop}
    (first : Passes h S post p s)
    (rest : ∀ a s', S s' → post (.ok a) s' → Passes h S after (f a) s')
    (failed : ∀ e s', S s' → post (.error e) s' → after (.error e) s') :
    Passes h S after (p >>= f) s := by
  induction p generalizing s with
  | ret a => exact rest a s first.1 first.2
  | fail e => exact ⟨first.1, failed e s first.1 first.2⟩
  | vis o k ih => exact ⟨first.1, ih _ first.2⟩

/-- The invariant holds wherever the run is cut off. -/
theorem Passes.crash (passes : Passes h S post p s) (n : ℕ) : S (p.crash h n s) := by
  induction p generalizing n s with
  | ret a =>
    rw [show Prog.crash h n (ret a) s = s from crash_pure n a s]
    exact passes.1
  | fail e => cases n <;> exact passes.1
  | vis o k ih =>
    cases n with
    | zero => exact passes.1
    | succ n => exact ih (h o s).1 passes.2 n

/-- The run ends as said. -/
theorem Passes.run (passes : Passes h S post p s) :
    S (p.run h s).2 ∧ post (p.run h s).1 (p.run h s).2 := by
  induction p generalizing s with
  | ret a => exact passes
  | fail e => exact passes
  | vis o k ih => exact ih (h o s).1 passes.2

/-- What a run passes it keeps. -/
theorem Passes.keeps {cond : I.Op → σ → Prop} (passes : Passes h S post p s) :
    Keeps h cond S (fun a s' => post (.ok a) s') p s := by
  induction p generalizing s with
  | ret a => exact passes
  | fail e => exact passes.1
  | vis o k ih => exact ⟨passes.1, fun _ => ih _ passes.2⟩

/-- Two invariants side by side. -/
theorem Keeps.and {T : σ → Prop} {cond : I.Op → σ → Prop} {done done' : α → σ → Prop}
    (keeps : Keeps h cond S done p s) (keeps' : Keeps h cond T done' p s) :
    Keeps h cond (fun s => S s ∧ T s) (fun a s => done a s ∧ done' a s) p s := by
  induction p generalizing s with
  | ret a => exact ⟨⟨keeps.1, keeps'.1⟩, keeps.2, keeps'.2⟩
  | fail e => exact ⟨keeps, keeps'⟩
  | vis o k ih => exact ⟨⟨keeps.1, keeps'.1⟩, fun met => ih _ (keeps.2 met) (keeps'.2 met)⟩

end Passes

end ChainGraph.Foundation.Prog

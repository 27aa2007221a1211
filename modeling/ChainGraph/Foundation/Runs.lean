import ChainGraph.Foundation.Prog

/-!
# What holds at every moment of a run

A handled run passes through a state before each of its calls and after the last. `Keeps` says of a
program in a state that an invariant holds at all of these moments and that the result satisfies a
postcondition, as long as every call meets a condition on the call and the state it is made in. Its
rules follow the shape of the program; `Keeps.crash` and `Keeps.run` read it back.

`Makes` says that a run makes a call in a state. `Yields` says what a program can end with whatever
happens in between, given only what the answers to its calls can be.

`interpret` replaces the calls of a program by programs over another interface, so that what one
program does in a single call can be looked at call by call.
-/

namespace ChainGraph.Foundation.Prog

variable {I J : Interface} {ε α β σ : Type} {h : Handler I σ}

/-! ## Calls that meet a condition -/

/-- The first `n` calls of a run meet a condition. -/
def Allowed (h : Handler I σ) (cond : I.Op → σ → Prop) : ℕ → Prog I ε α → σ → Prop
  | n + 1, vis o k, s => cond o s ∧ Allowed h cond n (k (h o s).1) (h o s).2
  | _, _, _ => True

/-- Every call of a run meets a condition. -/
def AllAllowed (h : Handler I σ) (cond : I.Op → σ → Prop) (p : Prog I ε α) (s : σ) : Prop :=
  ∀ n, Allowed h cond n p s

theorem allAllowed_of_forall {cond : I.Op → σ → Prop} (always : ∀ o s, cond o s)
    (p : Prog I ε α) (s : σ) : AllAllowed h cond p s := by
  intro n
  induction n generalizing p s with
  | zero => cases p <;> trivial
  | succ n ih =>
    cases p with
    | ret a => trivial
    | fail e => trivial
    | vis o k => exact ⟨always o s, ih _ _⟩

/-- An invariant holds at every moment and a postcondition at the end, as long as the calls meet
the condition. -/
def Keeps (h : Handler I σ) (cond : I.Op → σ → Prop) (S : σ → Prop) (post : α → σ → Prop) :
    Prog I ε α → σ → Prop
  | ret a, s => S s ∧ post a s
  | fail _, s => S s
  | vis o k, s => S s ∧ (cond o s → Keeps h cond S post (k (h o s).1) (h o s).2)

variable {cond : I.Op → σ → Prop} {S : σ → Prop} {post post' : α → σ → Prop} {p : Prog I ε α}
  {s : σ}

theorem Keeps.pure {a : α} (here : S s) (done : post a s) :
    Keeps h cond S post (pure a : Prog I ε α) s := ⟨here, done⟩

theorem Keeps.throw {e : ε} (here : S s) : Keeps h cond S post (throw e : Prog I ε α) s := here

theorem Keeps.mono (keeps : Keeps h cond S post p s)
    (imp : ∀ a s', S s' → post a s' → post' a s') : Keeps h cond S post' p s := by
  induction p generalizing s with
  | ret a => exact ⟨keeps.1, imp a s keeps.1 keeps.2⟩
  | fail e => exact keeps
  | vis o k ih => exact ⟨keeps.1, fun met => ih _ (keeps.2 met)⟩

theorem Keeps.weaken {T : σ → Prop} (keeps : Keeps h cond S post p s) (imp : ∀ s, S s → T s) :
    Keeps h cond T post p s := by
  induction p generalizing s with
  | ret a => exact ⟨imp s keeps.1, keeps.2⟩
  | fail e => exact imp s keeps
  | vis o k ih => exact ⟨imp s keeps.1, fun met => ih _ (keeps.2 met)⟩

theorem Keeps.bind {f : α → Prog I ε β} {after : β → σ → Prop} (first : Keeps h cond S post p s)
    (rest : ∀ a s', S s' → post a s' → Keeps h cond S after (f a) s') :
    Keeps h cond S after (p >>= f) s := by
  induction p generalizing s with
  | ret a => exact rest a s first.1 first.2
  | fail e => exact first
  | vis o k ih => exact ⟨first.1, fun met => ih _ (first.2 met)⟩

/-- One call: from a state with the invariant to the next. -/
theorem Keeps.perform {o : I.Op} {after : I.Reply o → σ → Prop} (here : S s)
    (step : cond o s → S (h o s).2 ∧ after (h o s).1 (h o s).2) :
    Keeps h cond S after (perform o : Prog I ε (I.Reply o)) s := ⟨here, step⟩

theorem Keeps.attempt (keeps : Keeps h cond S post p s) :
    Keeps h cond S (fun r s' => ∀ a, r = .ok a → post a s') p.attempt s := by
  induction p generalizing s with
  | ret a =>
    refine ⟨keeps.1, fun b same => ?_⟩
    cases same
    exact keeps.2
  | fail e =>
    refine ⟨keeps, fun b same => ?_⟩
    cases same
  | vis o k ih => exact ⟨keeps.1, fun met => ih _ (keeps.2 met)⟩

/-- After as many calls as have met the condition, the invariant holds. -/
theorem Keeps.crash (keeps : Keeps h cond S post p s) {n : ℕ} (met : Allowed h cond n p s) :
    S (p.crash h n s) := by
  induction p generalizing n s with
  | ret a =>
    rw [show crash h n (ret a) s = s from crash_pure n a s]
    exact keeps.1
  | fail e => cases n <;> exact keeps
  | vis o k ih =>
    cases n with
    | zero => exact keeps.1
    | succ n => exact ih (h o s).1 (keeps.2 met.1) met.2

/-- A run whose calls have met the condition ends with the invariant and the postcondition. -/
theorem Keeps.run (keeps : Keeps h cond S post p s) (met : AllAllowed h cond p s) {a : α} {s' : σ}
    (ran : p.run h s = (.ok a, s')) : S s' ∧ post a s' := by
  induction p generalizing s with
  | ret b =>
    cases ran
    exact keeps
  | fail e => cases ran
  | vis o k ih =>
    have first : cond o s := (met 1).1
    exact ih (h o s).1 (keeps.2 first) (fun n => (met (n + 1)).2) ran

/-- If the calls need not meet a condition, a run keeps the invariant whether or not it
succeeds. -/
theorem Keeps.final (keeps : Keeps h (fun _ _ => True) S post p s) : S (p.run h s).2 := by
  rw [← crash_of_calls_le (n := calls h p s) Nat.le.refl]
  exact keeps.crash (allAllowed_of_forall (fun _ _ => trivial) p s _)

/-- And a run that succeeds ends with the postcondition. -/
theorem Keeps.done (keeps : Keeps h (fun _ _ => True) S post p s) {a : α} {s' : σ}
    (ran : p.run h s = (.ok a, s')) : S s' ∧ post a s' :=
  keeps.run (allAllowed_of_forall (fun _ _ => trivial) p s) ran

/-- At its end a program has the outcome of its run. -/
theorem Keeps.ran (keeps : Keeps h (fun _ _ => True) S post p s) :
    Keeps h (fun _ _ => True) S (fun a s' => post a s' ∧ p.run h s = (.ok a, s')) p s := by
  induction p generalizing s with
  | ret a => exact ⟨keeps.1, keeps.2, rfl⟩
  | fail e => exact keeps
  | vis o k ih => exact ⟨keeps.1, fun met => ih _ (keeps.2 met)⟩

/-! ## The calls of a run -/

/-- A run makes the call `o` in the state `t`. -/
def Makes (h : Handler I σ) (o : I.Op) (t : σ) : Prog I ε α → σ → Prop
  | vis o' k, s => (o' = o ∧ s = t) ∨ Makes h o t (k (h o' s).1) (h o' s).2
  | _, _ => False

section Makes

variable {o o' : I.Op} {t : σ}

theorem makes_perform :
    Makes h o t (perform o' : Prog I ε (I.Reply o')) s ↔ o' = o ∧ s = t :=
  ⟨fun made => made.resolve_right id, Or.inl⟩

/-- A call of a sequence is one of its first part, or one of the second after the first. -/
theorem makes_bind {f : α → Prog I ε β} :
    Makes h o t (p >>= f) s ↔
      Makes h o t p s ∨ ∃ a s', p.run h s = (.ok a, s') ∧ Makes h o t (f a) s' := by
  induction p generalizing s with
  | ret a =>
    constructor
    · intro made
      exact Or.inr ⟨a, s, rfl, made⟩
    · intro made
      obtain ⟨b, s', ran, later⟩ := made.resolve_left id
      cases ran
      exact later
  | fail e =>
    constructor
    · intro made
      exact made.elim
    · intro made
      obtain ⟨b, s', ran, _⟩ := made.resolve_left id
      cases ran
  | vis o' k ih => exact (or_congr_right (ih (h o' s).1)).trans or_assoc.symm

theorem Always.makes {P : I.Op → Prop} (all : p.Always P) (made : Makes h o t p s) : P o := by
  induction p generalizing s with
  | ret a => exact made.elim
  | fail e => exact made.elim
  | vis o' k ih =>
    rcases made with ⟨rfl, _⟩ | later
    · exact all.1
    · exact ih _ (all.2 _) later

/-- What every call preserves holds where a call is made. -/
theorem Makes.inv {S : σ → Prop} (keeps : ∀ o s, S s → S (h o s).2) (inv : S s)
    (made : Makes h o t p s) : S t := by
  induction p generalizing s with
  | ret a => exact made.elim
  | fail e => exact made.elim
  | vis o' k ih =>
    rcases made with ⟨_, rfl⟩ | later
    · exact inv
    · exact ih _ (keeps o' s inv) later

end Makes

/-! ## What a program can end with -/

/-- As long as the answers meet `A`, every result meets `post` and every failure `E`. -/
def Yields (A : (o : I.Op) → I.Reply o → Prop) (E : ε → Prop) (post : α → Prop) :
    Prog I ε α → Prop
  | ret a => post a
  | fail e => E e
  | vis o k => ∀ r, A o r → Yields A E post (k r)

section Yields

variable {A : (o : I.Op) → I.Reply o → Prop} {E : ε → Prop} {ends : α → Prop}

theorem Yields.pure {a : α} (done : ends a) : Yields A E ends (pure a : Prog I ε α) := done

theorem Yields.throw {e : ε} (failed : E e) : Yields A E ends (throw e : Prog I ε α) := failed

theorem Yields.perform {o : I.Op} : Yields A E (A o) (perform o : Prog I ε (I.Reply o)) :=
  fun _ answer => answer

theorem Yields.ofExcept {x : Except ε α} (ok : ∀ a, x = .ok a → ends a)
    (error : ∀ e, x = .error e → E e) : Yields A E ends (ofExcept x : Prog I ε α) := by
  cases x with
  | ok a => exact ok a rfl
  | error e => exact error e rfl

theorem Yields.mono {ends' : α → Prop} (yields : Yields A E ends p)
    (imp : ∀ a, ends a → ends' a) : Yields A E ends' p := by
  induction p with
  | ret a => exact imp a yields
  | fail e => exact yields
  | vis o k ih => exact fun r answer => ih r (yields r answer)

theorem Yields.monoError {F : ε → Prop} (yields : Yields A E ends p) (imp : ∀ e, E e → F e) :
    Yields A F ends p := by
  induction p with
  | ret a => exact yields
  | fail e => exact imp e yields
  | vis o k ih => exact fun r answer => ih r (yields r answer)

theorem Yields.bind {f : α → Prog I ε β} {after : β → Prop} (first : Yields A E ends p)
    (rest : ∀ a, ends a → Yields A E after (f a)) : Yields A E after (p >>= f) := by
  induction p with
  | ret a => exact rest a first
  | fail e => exact first
  | vis o k ih => exact fun r answer => ih r (first r answer)

theorem Yields.attempt {F : ε → Prop} (yields : Yields A E ends p) :
    Yields A F (fun r => (∀ a, r = .ok a → ends a) ∧ ∀ e, r = .error e → E e) p.attempt := by
  induction p with
  | ret a =>
    refine ⟨fun b same => ?_, fun e same => (by cases same)⟩
    cases same
    exact yields
  | fail e =>
    refine ⟨fun a same => (by cases same), fun e' same => ?_⟩
    cases same
    exact yields
  | vis o k ih => exact fun r answer => ih r (yields r answer)

theorem yields_true (p : Prog I ε α) : Yields A (fun _ => True) (fun _ => True) p := by
  induction p with
  | ret a => trivial
  | fail e => trivial
  | vis o k ih => exact fun r _ => ih r

/-- An attempt does not fail. -/
theorem yields_attempt (p : Prog I ε α) {F : ε → Prop} : Yields A F (fun _ => True) p.attempt := by
  induction p with
  | ret a => trivial
  | fail e => trivial
  | vis o k ih => exact fun r _ => ih r

/-- A program over a smaller interface, whose answers may be anything there. -/
theorem Yields.lift {m : Embedding J I} {q : Prog J ε α}
    (yields : Yields (fun _ _ => True) E ends q) : Yields A E ends (q.lift m) := by
  induction q with
  | ret a => exact yields
  | fail e => exact yields
  | vis o k ih => exact fun r _ => ih _ (yields _ trivial)

/-- A run under a handler with such answers. -/
theorem Yields.run (yields : Yields A E ends p) (answers : ∀ o s, A o (h o s).1) (s : σ) :
    (∀ a, (p.run h s).1 = .ok a → ends a) ∧ ∀ e, (p.run h s).1 = .error e → E e := by
  induction p generalizing s with
  | ret a =>
    refine ⟨fun b same => ?_, fun e same => (by cases same)⟩
    cases same
    exact yields
  | fail e =>
    refine ⟨fun a same => (by cases same), fun e' same => ?_⟩
    cases same
    exact yields
  | vis o k ih => exact ih (h o s).1 (yields _ (answers o s)) (h o s).2

end Yields

/-! ## Calls of one program as programs of another interface -/

/-- The same program, each call replaced by a program. -/
def interpret (f : (o : I.Op) → Prog J ε (I.Reply o)) : Prog I ε α → Prog J ε α
  | ret a => ret a
  | fail e => fail e
  | vis o k => (f o).bind fun r => (k r).interpret f

theorem interpret_bind (f : (o : I.Op) → Prog J ε (I.Reply o)) (p : Prog I ε α)
    (q : α → Prog I ε β) :
    (p >>= q).interpret f = p.interpret f >>= fun a => (q a).interpret f := by
  induction p with
  | ret a => rfl
  | fail e => rfl
  | vis o k ih =>
    have rest : (fun r => ((k r).bind q).interpret f) =
        fun r => ((k r).interpret f).bind fun a => (q a).interpret f := funext ih
    show (f o).bind (fun r => ((k r).bind q).interpret f) =
      ((f o).bind fun r => (k r).interpret f).bind fun a => (q a).interpret f
    rw [rest]
    exact (bind_assoc (f o) _ _).symm

@[simp] theorem interpret_perform (f : (o : I.Op) → Prog J ε (I.Reply o)) (o : I.Op) :
    (perform o : Prog I ε (I.Reply o)).interpret f = f o := by
  show (f o).bind ret = f o
  induction f o with
  | ret a => rfl
  | fail e => rfl
  | vis o k ih => exact congrArg (vis o) (funext ih)

end ChainGraph.Foundation.Prog

import ChainGraph.Foundation.Prog

/-!
# Calls with several outcomes

A call may be answered in more than one way: it is served, or it fails. `Holds` says that a program
makes its calls where they may be made, whatever the answers so far, and what holds at its end. Its
rules follow the program, as those of a run do.
-/

namespace ChainGraph.Foundation

/-- Where a call may be made, and what it may answer and leave. -/
structure Outcomes (I : Interface) (σ : Type) where
  allow : I.Op → σ → Prop
  serves : (o : I.Op) → σ → I.Reply o → σ → Prop

/-- The outcomes of the calls of one interface among those of another. -/
def Outcomes.pull {I J : Interface} {σ : Type} (w : Outcomes J σ) (m : Prog.Embedding I J) :
    Outcomes I σ where
  allow o s := w.allow (m.op o) s
  serves o s r s' := ∃ r', w.serves (m.op o) s r' s' ∧ m.reply o r' = r

namespace Prog

variable {I J : Interface} {ε α β σ : Type} {w : Outcomes I σ} {s : σ}

/-- Every call is made where it may be, and `post` holds at every end. -/
def Holds (w : Outcomes I σ) (post : Except ε α → σ → Prop) : Prog I ε α → σ → Prop
  | ret a, s => post (.ok a) s
  | fail e, s => post (.error e) s
  | vis o k, s => w.allow o s ∧ ∀ r s', w.serves o s r s' → (k r).Holds w post s'

variable {post post' : Except ε α → σ → Prop}

theorem Holds.pure {a : α} (done : post (.ok a) s) : (Pure.pure a : Prog I ε α).Holds w post s :=
  done

theorem Holds.throw {e : ε} (failed : post (.error e) s) :
    (MonadExcept.throw e : Prog I ε α).Holds w post s := failed

theorem Holds.perform {o : I.Op} {post : Except ε (I.Reply o) → σ → Prop} (here : w.allow o s)
    (done : ∀ r s', w.serves o s r s' → post (.ok r) s') :
    (Prog.perform o : Prog I ε (I.Reply o)).Holds w post s := ⟨here, done⟩

theorem Holds.ofExcept {x : Except ε α} (done : post x s) :
    (Prog.ofExcept x : Prog I ε α).Holds w post s := by
  cases x with
  | ok a => exact done
  | error e => exact done

theorem Holds.mono {p : Prog I ε α} (holds : p.Holds w post s)
    (imp : ∀ r s, post r s → post' r s) : p.Holds w post' s := by
  induction p generalizing s with
  | ret a => exact imp _ s holds
  | fail e => exact imp _ s holds
  | vis o k ih => exact ⟨holds.1, fun r s' served => ih r (holds.2 r s' served)⟩

/-- The rest is run from every success, and a failure is the end. -/
theorem Holds.bind {p : Prog I ε α} {f : α → Prog I ε β} {after : Except ε β → σ → Prop}
    (holds : p.Holds w post s) (rest : ∀ a s', post (.ok a) s' → (f a).Holds w after s')
    (failed : ∀ e s', post (.error e) s' → after (.error e) s') : (p >>= f).Holds w after s := by
  induction p generalizing s with
  | ret a => exact rest a s holds
  | fail e => exact failed e s holds
  | vis o k ih => exact ⟨holds.1, fun r s' served => ih r (holds.2 r s' served)⟩

theorem Holds.attempt {p : Prog I ε α} {after : Except ε (Except ε α) → σ → Prop}
    (holds : p.Holds w (fun r s' => after (.ok r) s') s) : p.attempt.Holds w after s := by
  induction p generalizing s with
  | ret a => exact holds
  | fail e => exact holds
  | vis o k ih => exact ⟨holds.1, fun r s' served => ih r (holds.2 r s' served)⟩

theorem Holds.lift {w : Outcomes J σ} {m : Embedding I J} {p : Prog I ε α}
    (holds : p.Holds (w.pull m) post s) : (p.lift m).Holds w post s := by
  induction p generalizing s with
  | ret a => exact holds
  | fail e => exact holds
  | vis o k ih => exact ⟨holds.1, fun r s' served => ih _ (holds.2 _ s' ⟨r, served, rfl⟩)⟩

end Prog

end ChainGraph.Foundation

import ChainGraph.Foundation.Runs
import ChainGraph.Foundation.Session

/-!
# A session in which one call fails

The handlers of this module serve a session as the live ones do, except for one call, which is
answered with a fault and has no effect on the database. Which call fails is counted down; calls
that cannot fail, because they ask nothing of the database, are not counted.

A client that ends a transaction empties its slot before it asks, so the slot is empty after a
failed commit or rollback.
-/

namespace ChainGraph.Foundation

/-- A state, and how many calls that can fail are still served before one does; `none` once one
has failed. -/
structure Faulty (σ : Type) where
  state : σ
  left : Option ℕ

namespace Faulty

variable {σ : Type}

/-- No call has failed yet. -/
def Intact (s : Faulty σ) : Prop := s.left.isSome

theorem eq_of_fired {α : Type} {r : α × Faulty σ} (fired : r.2.left = none) :
    r = (r.1, ⟨r.2.state, none⟩) := by
  obtain ⟨a, s, left⟩ := r
  cases fired
  rfl

end Faulty

namespace Store

variable {E : Engine} {ε α β : Type} (fault : E.Fault)

/-- What a call answers and leaves when it fails, if it can. -/
def failed : (o : Session.Op E) → Store E → Option (Session.Reply E o × Store E)
  | .read, s => some (.error fault, s)
  | .inTxn, _ => none
  | .txnRun _, ⟨db, some view⟩ => some (.error fault, ⟨db, some view⟩)
  | .txnRun _, ⟨_, none⟩ => none
  | .autoRun _, s => some (.error fault, s)
  | .begin, ⟨db, none⟩ => some (.error fault, ⟨db, none⟩)
  | .begin, ⟨_, some _⟩ => none
  | .commit, ⟨db, some _⟩ => some (.error fault, ⟨db, none⟩)
  | .commit, ⟨_, none⟩ => none
  | .rollback, ⟨db, some _⟩ => some (.error fault, ⟨db, none⟩)
  | .rollback, ⟨_, none⟩ => none

/-- Every call served by a live database, but for the one that fails. -/
def handleFaulty : Prog.Handler (Session E) (Faulty (Store E))
  | o, ⟨s, none⟩ => ((handle o s).1, ⟨(handle o s).2, none⟩)
  | o, ⟨s, some n⟩ =>
    match failed fault o s, n with
    | some r, 0 => (r.1, ⟨r.2, none⟩)
    | some _, n + 1 => ((handle o s).1, ⟨(handle o s).2, some n⟩)
    | none, n => ((handle o s).1, ⟨(handle o s).2, some n⟩)

variable {fault} {o : Session.Op E} {s : Faulty (Store E)}

variable (fault) in
/-- A call fails, or it is served. -/
theorem handleFaulty_cases (o : Session.Op E) (s : Faulty (Store E)) :
    (∃ r, failed fault o s.state = some r ∧ handleFaulty fault o s = (r.1, ⟨r.2, none⟩)) ∨
      ∃ left : Option ℕ, (s.Intact ↔ left.isSome) ∧
        handleFaulty fault o s = ((handle o s.state).1, ⟨(handle o s.state).2, left⟩) := by
  obtain ⟨s, left⟩ := s
  cases left with
  | none => exact Or.inr ⟨none, Iff.rfl, rfl⟩
  | some n =>
    cases fails : failed fault o s with
    | none => exact Or.inr ⟨some n, Iff.rfl, by simp only [handleFaulty, fails]⟩
    | some r =>
      cases n with
      | zero => exact Or.inl ⟨r, rfl, by simp only [handleFaulty, fails]⟩
      | succ n => exact Or.inr ⟨some n, Iff.rfl, by simp only [handleFaulty, fails]⟩

variable {S : Faulty (Store E) → Prop} {post : β → Faulty (Store E) → Prop}

/-- A call and what comes after it: after an answer of the live database, and after a fault. -/
theorem keeps_call {k : Session.Reply E o → Prog (Session E) ε β} (here : S s)
    (fails : ∀ r, failed fault o s.state = some r →
      Prog.Keeps (handleFaulty fault) (fun _ _ => True) S post (k r.1) ⟨r.2, none⟩)
    (serves : ∀ left : Option ℕ, (s.Intact ↔ left.isSome) →
      Prog.Keeps (handleFaulty fault) (fun _ _ => True) S post (k (handle o s.state).1)
        ⟨(handle o s.state).2, left⟩) :
    Prog.Keeps (handleFaulty fault) (fun _ _ => True) S post
      (Prog.perform (I := Session E) o >>= k) s := by
  refine ⟨here, fun _ => ?_⟩
  rcases handleFaulty_cases fault o s with ⟨r, failing, eq⟩ | ⟨left, same, eq⟩
  · rw [eq]
    exact fails r failing
  · rw [eq]
    exact serves left same

/-! ## What statements keep -/

/-- A fault changes no database; a transaction may be gone. -/
theorem Lawful.failed {Inv : E.Db → Prop} {o : Session.Op E} {s : Store E}
    {r : Session.Reply E o × Store E} (inv : Lawful Inv s) (fails : failed fault o s = some r) :
    Lawful Inv r.2 := by
  obtain ⟨db, active⟩ := s
  cases o <;> cases active <;> cases fails <;>
    first | exact inv | exact ⟨inv.committed, fun view none => nomatch none⟩

/-- What statements keep, a session keeps in which a call fails. -/
theorem Lawful.handleFaulty {Inv : E.Db → Prop} {P : E.Stmt → Prop}
    (stmt : ∀ q db db', P q → Inv db → E.exec q db = .ok db' → Inv db') (o : Session.Op E)
    (obeys : o.Obeys P) {s : Faulty (Store E)} (inv : Lawful Inv s.state) :
    Lawful Inv (Store.handleFaulty fault o s).2.state := by
  rcases handleFaulty_cases fault o s with ⟨r, failing, eq⟩ | ⟨left, _, eq⟩
  · rw [eq]
    exact inv.failed failing
  · rw [eq]
    exact inv.handle_obeys stmt o obeys

end Store

namespace World

variable {E : Engine} {L ε α : Type} (fault : E.Fault)

/-- Tasks run to the end one after the other over a session in which a call may fail. -/
def runTasksFaulty : List (Task E ε) → Faulty (Store E) → Except ε Unit × Faulty (Store E)
  | [], s => (.ok (), s)
  | t :: ts, s =>
    let first := t.run (Store.handleFaulty fault) s
    let rest := runTasksFaulty ts first.2
    (match first.1 with | .ok () => rest.1 | .error e => .error e, rest.2)

/-- The store of a world in which a call may fail. -/
def storeOf (w : Faulty (World E L)) : Faulty (Store E) := ⟨w.state.store, w.left⟩

/-- The world with another store. -/
def withStore (s : Faulty (Store E)) (w : Faulty (World E L)) : Faulty (World E L) :=
  ⟨{ w.state with store := s.state }, s.left⟩

/-- A client's calls, its tasks' calls among them, one of which fails. -/
def handleFaulty : Prog.Handler (Client E L ε) (Faulty (World E L))
  | .session o, w =>
    ((Store.handleFaulty fault o (storeOf w)).1,
      withStore (Store.handleFaulty fault o (storeOf w)).2 w)
  | .get, w => (w.state.memory, w)
  | .set x, w => ((), ⟨{ w.state with memory := x }, w.left⟩)
  | .fork tasks, w =>
    ((runTasksFaulty fault tasks (storeOf w)).1,
      withStore (runTasksFaulty fault tasks (storeOf w)).2 w)

variable {fault} {w : Faulty (World E L)}

/-- A session program runs on the store and leaves the local state alone. -/
theorem run_lift_faulty (p : Prog (Session E) ε α) (w : Faulty (World E L)) :
    (p.lift (ofSession E L ε)).run (handleFaulty fault) w =
      ((p.run (Store.handleFaulty fault) (storeOf w)).1,
        withStore (p.run (Store.handleFaulty fault) (storeOf w)).2 w) :=
  Prog.run_lift storeOf withStore (fun _ _ => ⟨rfl, rfl⟩) (fun _ _ => rfl) (fun _ _ _ => rfl)
    (fun _ => rfl) p w

/-- A session program keeps of the world what it keeps of the store and what holds of the local
state, which it leaves alone. -/
theorem keeps_lift {S : Faulty (Store E) → Prop} {M : L → Prop}
    {post : α → Faulty (Store E) → Prop} {p : Prog (Session E) ε α} (memory : M w.state.memory)
    (keeps : Prog.Keeps (Store.handleFaulty fault) (fun _ _ => True) S post p (storeOf w)) :
    Prog.Keeps (handleFaulty fault) (fun _ _ => True) (fun t => S (storeOf t) ∧ M t.state.memory)
      (fun a t => post a (storeOf t) ∧ t.state.memory = w.state.memory)
      (p.lift (ofSession E L ε)) w := by
  induction p generalizing w with
  | ret a => exact ⟨⟨keeps.1, memory⟩, keeps.2, rfl⟩
  | fail e => exact ⟨keeps, memory⟩
  | vis o k ih =>
    refine ⟨⟨keeps.1, memory⟩, fun _ => ?_⟩
    exact ih (Store.handleFaulty fault o (storeOf w)).1
      (w := withStore (Store.handleFaulty fault o (storeOf w)).2 w) memory (keeps.2 trivial)

/-- What every task keeps, all of them keep; they succeed only if each does. -/
theorem keeps_runTasksFaulty {S : Faulty (Store E) → Prop} {tasks : List (Task E ε)}
    (each : ∀ t ∈ tasks, ∀ s, S s → Prog.Keeps (Store.handleFaulty fault) (fun _ _ => True) S
      (fun _ s' => s.Intact → s'.Intact) t s) {s : Faulty (Store E)} (here : S s) :
    S (runTasksFaulty fault tasks s).2 ∧
      ((runTasksFaulty fault tasks s).1 = .ok () → s.Intact →
        (runTasksFaulty fault tasks s).2.Intact) := by
  induction tasks generalizing s with
  | nil => exact ⟨here, fun _ => id⟩
  | cons t ts ih =>
    have first := each t List.mem_cons_self s here
    have later := ih (fun u mem => each u (List.mem_cons_of_mem t mem)) first.final
    refine ⟨later.1, fun ok intact => ?_⟩
    unfold runTasksFaulty at ok ⊢
    cases ran : t.run (Store.handleFaulty fault) s with
    | mk outcome s' =>
      rw [ran] at ok later
      cases outcome with
      | error e => cases ok
      | ok a => exact later.2 ok ((first.done ran).2 intact)

/-- What statements keep, tasks that send them keep. -/
theorem lawful_runTasksFaulty {Inv : E.Db → Prop} {P : E.Stmt → Prop}
    (stmt : ∀ q db db', P q → Inv db → E.exec q db = .ok db' → Inv db')
    {tasks : List (Task E ε)} (all : ∀ t ∈ tasks, t.Always (Session.Op.Obeys P))
    {s : Faulty (Store E)} (inv : s.state.Lawful Inv) :
    (runTasksFaulty fault tasks s).2.state.Lawful Inv := by
  induction tasks generalizing s with
  | nil => exact inv
  | cons t ts ih =>
    have first := (all t List.mem_cons_self).run (h := Store.handleFaulty fault)
      (S := fun s => s.state.Lawful Inv) (fun o s obeys inv => inv.handleFaulty stmt o obeys) inv
    exact ih (fun u mem => all u (List.mem_cons_of_mem t mem)) first

/-- What statements keep, a client that sends them keeps, whichever call fails. -/
theorem lawful_runFaulty {Inv : E.Db → Prop} {P : E.Stmt → Prop}
    (stmt : ∀ q db db', P q → Inv db → E.exec q db = .ok db' → Inv db')
    {p : Prog (Client E L ε) ε α} (all : p.Always (Client.Op.Obeys P))
    (inv : w.state.store.Lawful Inv) :
    (p.run (handleFaulty fault) w).2.state.store.Lawful Inv := by
  refine all.run (S := fun w : Faulty (World E L) => w.state.store.Lawful Inv)
    (fun o w obeys inv => ?_) inv
  cases o with
  | session o => exact inv.handleFaulty (s := storeOf w) stmt o obeys
  | get => exact inv
  | set x => exact inv
  | fork tasks => exact lawful_runTasksFaulty (s := storeOf w) stmt obeys inv

end World

end ChainGraph.Foundation

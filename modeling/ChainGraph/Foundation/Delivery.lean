import ChainGraph.Foundation.Crashes
import ChainGraph.Foundation.Faults
import ChainGraph.Foundation.Outcomes

/-!
# Calls whose answers are lost

A call over a network fails in two ways. It is lost before it takes effect, or it takes effect and
its answer is lost. The client is told the same in both cases, and sends its call again without
knowing which of them it was.

`Ends` are the ways in which a program can end when its calls have several outcomes, and `Tried`
what is left when it has been called some times and has failed every time. A statement is
repeatable if executing it once more changes nothing. A program that repeats only such statements
`Delivers` its statements: all of them if it succeeds, and otherwise the first of them.

Statements are resumable if they can be executed all over again after the first of them. So a
program that delivers resumable statements can be called until it succeeds.
-/

namespace ChainGraph.Foundation

namespace Prog

variable {I : Interface} {ε α σ : Type} {w : Outcomes I σ} {p : Prog I ε α} {s t u : σ}

/-- The program can end with this outcome in this state. -/
def Ends (w : Outcomes I σ) : Prog I ε α → σ → Except ε α → σ → Prop
  | ret a, s, r, t => r = .ok a ∧ t = s
  | fail e, s, r, t => r = .error e ∧ t = s
  | vis o k, s, r, t => ∃ x s', w.serves o s x s' ∧ (k x).Ends w s' r t

theorem Holds.ends {post : Except ε α → σ → Prop} (holds : p.Holds w post s) {r : Except ε α}
    (ends : p.Ends w s r t) : post r t := by
  induction p generalizing s with
  | ret a =>
    obtain ⟨rfl, rfl⟩ := ends
    exact holds
  | fail e =>
    obtain ⟨rfl, rfl⟩ := ends
    exact holds
  | vis o k ih =>
    obtain ⟨x, s', served, ends⟩ := ends
    exact ih x (holds.2 x s' served) ends

/-- A run whose calls have outcomes among these is one of the ways to end. -/
theorem ends_run {τ : Type} {h : Handler I τ} (state : τ → σ)
    (serves : ∀ o x, w.serves o (state x) (h o x).1 (state (h o x).2)) (p : Prog I ε α) (x : τ) :
    p.Ends w (state x) (p.run h x).1 (state (p.run h x).2) := by
  induction p generalizing x with
  | ret a => exact ⟨rfl, rfl⟩
  | fail e => exact ⟨rfl, rfl⟩
  | vis o k ih => exact ⟨_, _, serves o x, ih (h o x).1 (h o x).2⟩

/-- The program is called some times, and fails every time. -/
inductive Tried (w : Outcomes I σ) (p : Prog I ε α) : σ → σ → Prop
  | nil (s : σ) : Tried w p s s
  | cons {s t u : σ} {e : ε} (failed : p.Ends w s (.error e) t) (later : Tried w p t u) :
    Tried w p s u

/-- A failing run whose calls have outcomes among these. -/
theorem tried_run {τ : Type} {h : Handler I τ} (state : τ → σ)
    (serves : ∀ o x, w.serves o (state x) (h o x).1 (state (h o x).2)) {x : τ}
    (failed : (p.run h x).1.isOk = false) : Tried w p (state x) (state (p.run h x).2) := by
  have ends := ends_run state serves p x
  cases outcome : (p.run h x).1 with
  | ok a =>
    rw [outcome] at failed
    cases failed
  | error e =>
    rw [outcome] at ends
    exact .cons ends (.nil _)

/-- What a failure keeps. -/
theorem Tried.keeps {P : σ → Prop} (tried : Tried w p s t)
    (step : ∀ s e t, P s → p.Ends w s (.error e) t → P t) (here : P s) : P t := by
  induction tried with
  | nil => exact here
  | cons failed _ ih => exact ih (step _ _ _ here failed)

end Prog

/-! ## Sessions -/

/-- A call is served, or its fault is answered: before it has taken effect or after. -/
def Session.lossy (E : Engine) : Outcomes (Session E) (Store E) where
  allow _ _ := True
  serves o s r t := (r, t) = Store.handle o s ∨ ∃ fault u,
    Store.failed fault o s = some (r, u) ∧ (t = u ∨ t = (Store.handle o s).2)

/-- The same beside a local state. Tasks are not followed, and may not be forked. -/
def Client.lossy (E : Engine) (L ε : Type) : Outcomes (Client E L ε) (World E L) where
  allow o _ := match o with
    | .fork _ => False
    | _ => True
  serves
    | .session o, w, r, w' => ∃ s, (Session.lossy E).serves o w.store r s ∧ w' = ⟨s, w.memory⟩
    | .get, w, r, w' => r = w.memory ∧ w' = w
    | .set x, w, _, w' => w' = ⟨w.store, x⟩
    | .fork _, _, _, _ => True

namespace Store

variable {E : Engine} {ε : Type} {q : E.Stmt} {db db' mid : E.Db} {qs rs : List E.Stmt}

/-- The outcomes of a statement sent without a transaction. -/
theorem lossy_autoRun {r : Except E.Fault Unit} {t : Store E}
    (served : (Session.lossy E).serves (.autoRun q) ⟨db, none⟩ r t) :
    (r = .ok () ∧ ∃ db', E.exec q db = .ok db' ∧ t = ⟨db', none⟩) ∨
      ∃ fault, r = .error fault ∧
        (t = ⟨db, none⟩ ∨ ∃ db', E.exec q db = .ok db' ∧ t = ⟨db', none⟩) := by
  cases ran : E.exec q db with
  | error refusal =>
    have answer := handle_autoRun_error (s := ⟨db, none⟩) ran
    rcases served with served | ⟨fault, u, failed, late⟩
    · rw [answer] at served
      cases served
      exact Or.inr ⟨_, rfl, Or.inl rfl⟩
    · cases failed
      rw [answer] at late
      exact Or.inr ⟨_, rfl, Or.inl (late.elim id id)⟩
  | ok after =>
    have answer := handle_autoRun_ok (s := ⟨db, none⟩) ran
    rcases served with served | ⟨fault, u, failed, late⟩
    · rw [answer] at served
      cases served
      exact Or.inl ⟨rfl, _, rfl, rfl⟩
    · cases failed
      rw [answer] at late
      exact Or.inr ⟨_, rfl, late.imp id fun same => ⟨_, rfl, same⟩⟩

/-- The outcomes of a read. -/
theorem lossy_read {r : Except E.Fault E.Db} {s t : Store E}
    (served : (Session.lossy E).serves .read s r t) :
    t = s ∧ (r = .ok s.committed ∨ ∃ fault, r = .error fault) := by
  rcases served with served | ⟨fault, u, failed, late⟩
  · cases served
    exact ⟨rfl, Or.inl rfl⟩
  · cases failed
    exact ⟨late.elim id id, Or.inr ⟨_, rfl⟩⟩

/-! ## Delivery -/

/-- Executing the statement once more changes nothing. -/
def Repeatable (E : Engine) (q : E.Stmt) : Prop :=
  ∀ db db', E.exec q db = .ok db' → E.exec q db' = .ok db'

/-- All statements have been executed, or after a failure the first of them. -/
def Delivered (qs : List E.Stmt) (db : E.Db) : Except ε Unit → Store E → Prop
  | .ok _, s => ∃ db', execAll E qs db = .ok db' ∧ s = ⟨db', none⟩
  | .error _, s => ∃ sent, sent <+: qs ∧ ∃ mid, execAll E sent db = .ok mid ∧ s = ⟨mid, none⟩

/-- However its calls fare, the program delivers these statements. -/
def Delivers (p : Prog (Session E) ε Unit) (qs : List E.Stmt) : Prop :=
  ∀ db, p.Holds (Session.lossy E) (Delivered qs db) ⟨db, none⟩

variable {p p' : Prog (Session E) ε Unit}

theorem Delivers.done : Delivers (pure () : Prog (Session E) ε Unit) [] :=
  fun db => Prog.Holds.pure ⟨db, rfl, rfl⟩

theorem Delivers.seq (first : Delivers p qs) (rest : Delivers p' rs) :
    Delivers (p >>= fun _ => p') (qs ++ rs) := by
  intro db
  refine (first db).bind (fun _ s done => ?_) fun e s failed => ?_
  · obtain ⟨mid, ran, rfl⟩ := done
    refine (rest mid).mono fun r s done => ?_
    cases r with
    | ok _ =>
      obtain ⟨db', later, rfl⟩ := done
      exact ⟨db', execAll_append_eq_ok.mpr ⟨mid, ran, later⟩, rfl⟩
    | error e =>
      obtain ⟨sent, part, mid', later, rfl⟩ := done
      exact ⟨qs ++ sent, (List.prefix_append_right_inj qs).mpr part, mid',
        execAll_append_eq_ok.mpr ⟨mid, ran, later⟩, rfl⟩
  · obtain ⟨sent, part, mid, ran, rfl⟩ := failed
    exact ⟨sent, part.trans (List.prefix_append qs rs), mid, ran, rfl⟩

/-- One after the other. -/
theorem Delivers.forM {γ : Type} {f : γ → Prog (Session E) ε Unit} {g : γ → List E.Stmt}
    (each : ∀ c, Delivers (f c) (g c)) (l : List γ) : Delivers (l.forM f) (l.flatMap g) := by
  induction l with
  | nil => exact .done
  | cons c l ih =>
    rw [List.forM_eq_forM, List.forM_cons]
    exact (each c).seq ih

/-! ## Resumption -/

/-- Executing all statements after the first of them is executing all of them. -/
def Resumable (E : Engine) (qs : List E.Stmt) : Prop :=
  ∀ sent, sent <+: qs → ∀ db mid, execAll E sent db = .ok mid →
    execAll E qs mid = execAll E qs db

/-- Statements none of which does anything. -/
theorem execAll_idle (idle : ∀ q ∈ qs, E.exec q db = .ok db) : execAll E qs db = .ok db := by
  induction qs with
  | nil => rfl
  | cons q qs ih =>
    obtain ⟨here, later⟩ := List.forall_mem_cons.mp idle
    exact execAll_cons_eq_ok.mpr ⟨db, here, ih later⟩

section Done

variable {Done : E.Stmt → E.Db → Prop}

/-- What a statement has done stays done, whichever others are executed. -/
theorem done_execAll {sent : List E.Stmt} (among : sent ⊆ qs)
    (settles : ∀ q ∈ qs, ∀ db db', E.exec q db = .ok db' → Done q db')
    (stays : ∀ q ∈ qs, ∀ r ∈ qs, ∀ db db', Done q db → E.exec r db = .ok db' → Done q db')
    (ran : execAll E sent db = .ok mid) : ∀ q ∈ qs, q ∈ sent ∨ Done q db → Done q mid := by
  induction sent generalizing db with
  | nil =>
    intro q _ done
    cases ran
    exact done.resolve_left List.not_mem_nil
  | cons r sent ih =>
    intro q mem done
    obtain ⟨db', first, rest⟩ := execAll_cons_eq_ok.mp ran
    obtain ⟨within, later⟩ := List.cons_subset.mp among
    refine ih later rest q mem ?_
    rcases done with asked | before
    · rcases List.mem_cons.mp asked with rfl | asked
      · exact Or.inr (settles _ within db db' first)
      · exact Or.inl asked
    · exact Or.inr (stays q mem r within db db' before first)

/-- Statements that find nothing left to do, whichever others came in between, are resumable. -/
theorem resumable_of_done (idle : ∀ q ∈ qs, ∀ db, Done q db → E.exec q db = .ok db)
    (settles : ∀ q ∈ qs, ∀ db db', E.exec q db = .ok db' → Done q db')
    (stays : ∀ q ∈ qs, ∀ r ∈ qs, ∀ db db', Done q db → E.exec r db = .ok db' → Done q db') :
    Resumable E qs := by
  intro sent part db mid ran
  obtain ⟨rest, rfl⟩ := part
  have among : sent ⊆ sent ++ rest := List.subset_append_left sent rest
  have done := done_execAll among settles stays ran
  have again : execAll E sent mid = .ok mid := execAll_idle fun q mem =>
    idle q (among mem) mid (done q (among mem) (Or.inl mem))
  rw [execAll_append, execAll_append, again, ran]

end Done

end Store

namespace World

variable {E : Engine} {L ε α : Type}

/-- A session program ends as it does on the store alone. -/
theorem holds_lift {p : Prog (Session E) ε α} {post : Except ε α → World E L → Prop} {s : Store E}
    {x : L} (holds : p.Holds (Session.lossy E) (fun r s => post r ⟨s, x⟩) s) :
    (p.lift (ofSession E L ε)).Holds (Client.lossy E L ε) post ⟨s, x⟩ := by
  induction p generalizing s with
  | ret a => exact holds
  | fail e => exact holds
  | vis o k ih =>
    refine ⟨trivial, fun r w served => ?_⟩
    obtain ⟨t, served, rfl⟩ := served
    exact ih r (holds.2 r t served)

/-- A run in which nothing is lost is one of the ways to end. -/
theorem ends_handle (p : Prog (Client E L ε) ε α) (w : World E L) :
    p.Ends (Client.lossy E L ε) w (p.run handle w).1 (p.run handle w).2 := by
  refine Prog.ends_run (h := handle) id (fun o w => ?_) p w
  cases o with
  | session o => exact ⟨_, Or.inl rfl, rfl⟩
  | get => exact ⟨rfl, rfl⟩
  | set y => rfl
  | fork tasks => trivial

end World

/-! ## Fates

One way for calls to fare, as a list that a run can be computed from. -/

/-- What becomes of a call: it is served, or it is lost, or it takes effect and its answer is
lost. -/
inductive Fate (F : Type) where
  | served
  | lost (fault : F)
  | unanswered (fault : F)

/-- A state, and the fates of the next calls; those after them are served. -/
structure Fated (σ F : Type) where
  state : σ
  fates : List (Fate F)

namespace Store

variable {E : Engine}

/-- A call that meets its fate. One that cannot fail is served. -/
def fated (fate : Fate E.Fault) (o : Session.Op E) (s : Store E) : Session.Reply E o × Store E :=
  match fate with
  | .served => handle o s
  | .lost fault =>
    match failed fault o s with
    | some r => r
    | none => handle o s
  | .unanswered fault =>
    match failed fault o s with
    | some r => (r.1, (handle o s).2)
    | none => handle o s

theorem serves_fated (fate : Fate E.Fault) (o : Session.Op E) (s : Store E) :
    (Session.lossy E).serves o s (fated fate o s).1 (fated fate o s).2 := by
  cases fate with
  | served => exact Or.inl rfl
  | lost fault =>
    dsimp only [fated]
    cases fails : failed fault o s with
    | none => exact Or.inl rfl
    | some r => exact Or.inr ⟨fault, r.2, fails, Or.inl rfl⟩
  | unanswered fault =>
    dsimp only [fated]
    cases fails : failed fault o s with
    | none => exact Or.inl rfl
    | some r => exact Or.inr ⟨fault, r.2, fails, Or.inr rfl⟩

/-- Every call meets its fate. -/
def handleFated : Prog.Handler (Session E) (Fated (Store E) E.Fault)
  | o, s =>
    let answer := fated (s.fates.head?.getD .served) o s.state
    (answer.1, ⟨answer.2, s.fates.tail⟩)

theorem serves_handleFated (o : Session.Op E) (s : Fated (Store E) E.Fault) :
    (Session.lossy E).serves o s.state (handleFated o s).1 (handleFated o s).2.state :=
  serves_fated _ o s.state

/-- A call that is lost, or cannot fail and is served, commits nothing. -/
theorem exists_lossy_committed (fault : E.Fault) (o : Session.Op E) (s : Store E) :
    ∃ r t, (Session.lossy E).serves o s r t ∧ t.committed = s.committed := by
  cases fails : failed fault o s with
  | some r =>
    refine ⟨r.1, r.2, Or.inr ⟨fault, r.2, fails, Or.inl rfl⟩, ?_⟩
    obtain ⟨db, active⟩ := s
    cases o <;> cases active <;> cases fails <;> rfl
  | none =>
    refine ⟨_, _, Or.inl rfl, ?_⟩
    obtain ⟨db, active⟩ := s
    cases o <;> cases active <;> first | rfl | cases fails

/-- A process that dies is one whose further calls are lost: what it has committed, it can have
committed at its end. -/
theorem exists_ends_after (fault : E.Fault) (n : ℕ) {α : Type} (p : Prog (Session E) ε α)
    (s : Fated (Store E) E.Fault) :
    ∃ r t, p.Ends (Session.lossy E) s.state r t ∧
      t.committed = (p.after handleFated n s).2.state.committed ∧
      ∀ a, (p.after handleFated n s).1 = .ret a → r = .ok a := by
  have lost : ∀ (p : Prog (Session E) ε α) (s : Store E),
      ∃ r t, p.Ends (Session.lossy E) s r t ∧ t.committed = s.committed := by
    intro p
    induction p with
    | ret a => exact fun s => ⟨_, s, ⟨rfl, rfl⟩, rfl⟩
    | fail e => exact fun s => ⟨_, s, ⟨rfl, rfl⟩, rfl⟩
    | vis o k ih =>
      intro s
      obtain ⟨answer, s', served, same⟩ := exists_lossy_committed fault o s
      obtain ⟨r, t, ends, same'⟩ := ih answer s'
      exact ⟨r, t, ⟨answer, s', served, ends⟩, same'.trans same⟩
  induction n generalizing p s with
  | zero =>
    cases p with
    | ret a => exact ⟨_, s.state, ⟨rfl, rfl⟩, rfl, fun b same => by cases same; rfl⟩
    | fail e => exact ⟨_, s.state, ⟨rfl, rfl⟩, rfl, fun b same => by cases same⟩
    | vis o k =>
      obtain ⟨r, t, ends, same⟩ := lost (.vis o k) s.state
      exact ⟨r, t, ends, same, fun b same => by cases same⟩
  | succ n ih =>
    cases p with
    | ret a => exact ⟨_, s.state, ⟨rfl, rfl⟩, rfl, fun b same => by cases same; rfl⟩
    | fail e => exact ⟨_, s.state, ⟨rfl, rfl⟩, rfl, fun b same => by cases same⟩
    | vis o k =>
      obtain ⟨r, t, ends, same, done⟩ := ih (k (handleFated o s).1) (handleFated o s).2
      exact ⟨r, t, ⟨_, _, serves_handleFated o s, ends⟩, same, done⟩

end Store

namespace World

variable {E : Engine} {L ε : Type}

/-- Every call of the session meets its fate. Tasks are served. -/
def handleFated : Prog.Handler (Client E L ε) (Fated (World E L) E.Fault)
  | .session o, w =>
    let answer := Store.fated (w.fates.head?.getD .served) o w.state.store
    (answer.1, ⟨⟨answer.2, w.state.memory⟩, w.fates.tail⟩)
  | .get, w => (w.state.memory, w)
  | .set x, w => ((), ⟨⟨w.state.store, x⟩, w.fates⟩)
  | .fork tasks, w =>
    ((runTasks tasks w.state.store).1,
      ⟨⟨(runTasks tasks w.state.store).2, w.state.memory⟩, w.fates⟩)

theorem serves_handleFated (o : Client.Op E L ε) (w : Fated (World E L) E.Fault) :
    (Client.lossy E L ε).serves o w.state (handleFated o w).1 (handleFated o w).2.state := by
  cases o with
  | session o => exact ⟨_, Store.serves_fated _ o w.state.store, rfl⟩
  | get => exact ⟨rfl, rfl⟩
  | set y => rfl
  | fork tasks => trivial

end World

end ChainGraph.Foundation

import ChainGraph.Foundation.Session

/-!
# Where a process can die

`after` is what is left of a program where a process dies, `trace` lists the calls of a run. A crash
leaves the state after the first calls of it. `Emits` says
what these calls emit, for any reading of a call as a list of things it emits, and its rules follow
the shape of the program.

A session without a transaction commits each statement on its own. So of the calls only the
statements count, and a crash leaves the database after the statements sent so far.
-/

namespace ChainGraph.Foundation

namespace Prog

variable {I J : Interface} {ε α β γ σ τ : Type} {h : Handler I σ}

/-- What is left of a run after its first `n` calls, and the state it is left in. -/
def after (h : Handler I σ) : ℕ → Prog I ε α → σ → Prog I ε α × σ
  | n + 1, vis o k, s => after h n (k (h o s).1) (h o s).2
  | _, p, s => (p, s)

theorem after_snd (n : ℕ) (p : Prog I ε α) (s : σ) : (p.after h n s).2 = p.crash h n s := by
  induction n generalizing p s with
  | zero => cases p <;> rfl
  | succ n ih =>
    cases p with
    | vis o k => exact ih _ _
    | _ => rfl

/-- The calls a run to the end makes. -/
def trace (h : Handler I σ) : Prog I ε α → σ → List I.Op
  | vis o k, s => o :: trace h (k (h o s).1) (h o s).2
  | _, _ => []

/-- A crash leaves the state after the first calls. -/
theorem crash_eq_foldl (n : ℕ) (p : Prog I ε α) (s : σ) :
    p.crash h n s = ((p.trace h s).take n).foldl (fun s o => (h o s).2) s := by
  induction p generalizing n s with
  | ret a => cases n <;> rfl
  | fail e => cases n <;> rfl
  | vis o k ih =>
    cases n with
    | zero => rfl
    | succ n => exact ih (h o s).1 n (h o s).2

theorem trace_bind_ok {p : Prog I ε α} {f : α → Prog I ε β} {s s' : σ} {a : α}
    (first : p.run h s = (.ok a, s')) :
    (p >>= f).trace h s = p.trace h s ++ (f a).trace h s' := by
  induction p generalizing s with
  | ret b =>
    cases first
    rfl
  | fail e => cases first
  | vis o k ih => exact congrArg (o :: ·) (ih (h o s).1 first)

theorem trace_bind_error {p : Prog I ε α} {f : α → Prog I ε β} {s s' : σ} {e : ε}
    (first : p.run h s = (.error e, s')) : (p >>= f).trace h s = p.trace h s := by
  induction p generalizing s with
  | ret b => cases first
  | fail e => rfl
  | vis o k ih => exact congrArg (o :: ·) (ih (h o s).1 first)

theorem trace_attempt (p : Prog I ε α) (s : σ) : p.attempt.trace h s = p.trace h s := by
  induction p generalizing s with
  | ret a => rfl
  | fail e => rfl
  | vis o k ih => exact congrArg (o :: ·) (ih (h o s).1 (h o s).2)

theorem trace_lift {m : Embedding I J} {g : Handler J τ} (get : τ → σ) (set : σ → τ → τ)
    (acts : ∀ o t, m.reply o (g (m.op o) t).1 = (h o (get t)).1 ∧
      (g (m.op o) t).2 = set (h o (get t)).2 t)
    (get_set : ∀ s t, get (set s t) = s) (p : Prog I ε α) (t : τ) :
    (p.lift m).trace g t = (p.trace h (get t)).map m.op := by
  induction p generalizing t with
  | ret a => rfl
  | fail e => rfl
  | vis o k ih =>
    obtain ⟨answer, state⟩ := acts o t
    show m.op o :: ((k (m.reply o (g (m.op o) t).1)).lift m).trace g (g (m.op o) t).2 = _
    rw [answer, ih, state, get_set]
    rfl

/-! ## What a run emits -/

/-- The calls of a run are plain ones, and what they emit is the list. -/
structure Emits (h : Handler I σ) (plain : I.Op → Prop) (emit : I.Op → List γ)
    (p : Prog I ε α) (s : σ) (qs : List γ) : Prop where
  plain : ∀ o ∈ p.trace h s, plain o
  all : (p.trace h s).flatMap emit = qs

section Emits

variable {plain : I.Op → Prop} {emit : I.Op → List γ} {p : Prog I ε α} {s s' : σ}
  {qs rs : List γ}

/-- What the first `n` calls of a run emit. -/
def emitted (h : Handler I σ) (emit : I.Op → List γ) (n : ℕ) (p : Prog I ε α) (s : σ) : List γ :=
  ((p.trace h s).take n).flatMap emit

/-- What the other calls emit. -/
def pending (h : Handler I σ) (emit : I.Op → List γ) (n : ℕ) (p : Prog I ε α) (s : σ) : List γ :=
  ((p.trace h s).drop n).flatMap emit

theorem Emits.split (emits : p.Emits h plain emit s qs) (n : ℕ) :
    p.emitted h emit n s ++ p.pending h emit n s = qs := by
  rw [emitted, pending, ← List.flatMap_append, List.take_append_drop, emits.all]

theorem Emits.pure {a : α} : (pure a : Prog I ε α).Emits h plain emit s [] :=
  ⟨fun _ mem => absurd mem List.not_mem_nil, rfl⟩

theorem Emits.throw {e : ε} : (throw e : Prog I ε α).Emits h plain emit s [] :=
  ⟨fun _ mem => absurd mem List.not_mem_nil, rfl⟩

theorem Emits.perform {o : I.Op} (here : plain o) :
    (perform o : Prog I ε (I.Reply o)).Emits h plain emit s (emit o) := by
  refine ⟨fun o' mem => ?_, List.append_nil _⟩
  cases List.mem_singleton.mp mem
  exact here

theorem Emits.bind {f : α → Prog I ε β} {a : α} (first : p.Emits h plain emit s qs)
    (ran : p.run h s = (.ok a, s')) (rest : (f a).Emits h plain emit s' rs) :
    (p >>= f).Emits h plain emit s (qs ++ rs) := by
  refine ⟨fun o mem => ?_, ?_⟩
  · rw [trace_bind_ok ran] at mem
    rcases List.mem_append.mp mem with early | late
    · exact first.plain o early
    · exact rest.plain o late
  · rw [trace_bind_ok ran, List.flatMap_append, first.all, rest.all]

theorem Emits.bind_error {f : α → Prog I ε β} {e : ε} (first : p.Emits h plain emit s qs)
    (ran : p.run h s = (.error e, s')) : (p >>= f).Emits h plain emit s qs := by
  refine ⟨fun o mem => ?_, ?_⟩
  · rw [trace_bind_error ran] at mem
    exact first.plain o mem
  · rw [trace_bind_error ran, first.all]

theorem Emits.attempt (emits : p.Emits h plain emit s qs) :
    p.attempt.Emits h plain emit s qs := by
  refine ⟨fun o mem => ?_, ?_⟩
  · rw [trace_attempt] at mem
    exact emits.plain o mem
  · rw [trace_attempt, emits.all]

/-- A program all of whose calls are plain and emit nothing. -/
theorem Always.emits_nil (silent : p.Always fun o => plain o ∧ emit o = []) (s : σ) :
    p.Emits h plain emit s [] := by
  induction p generalizing s with
  | ret a => exact .pure
  | fail e => exact .throw
  | vis o k ih =>
    obtain ⟨⟨here, nothing⟩, rest⟩ := silent
    have later := ih (h o s).1 (rest _) (h o s).2
    refine ⟨fun o' mem => ?_, ?_⟩
    · rcases List.mem_cons.mp mem with rfl | mem
      · exact here
      · exact later.plain o' mem
    · show emit o ++ _ = []
      rw [nothing]
      exact later.all

end Emits

end Prog

/-! ## Statements -/

namespace Session

/-- The statement an operation sends without a transaction. -/
def Op.direct {E : Engine} : Op E → List E.Stmt
  | .autoRun q => [q]
  | _ => []

/-- The operation is no start or end of a transaction. -/
abbrev Op.Plain {E : Engine} (o : Op E) : Prop := o.Sends fun _ => True

end Session

namespace Store

variable {E : Engine} {ε α : Type} {p : Prog (Session E) ε α} {db db' : E.Db}
  {qs rs : List E.Stmt}

/-- Without a transaction, plain operations execute the statements they send. -/
theorem foldl_handle {ops : List (Session.Op E)} (plain : ∀ o ∈ ops, o.Plain)
    (ok : execAll E (ops.flatMap Session.Op.direct) db = .ok db') :
    ops.foldl (fun s o => (handle o s).2) ⟨db, none⟩ = ⟨db', none⟩ := by
  induction ops generalizing db with
  | nil =>
    cases ok
    rfl
  | cons o ops ih =>
    have rest := fun o mem => plain o (List.mem_cons_of_mem _ mem)
    rw [List.flatMap_cons] at ok
    rw [List.foldl_cons]
    cases o with
    | read => exact ih rest ok
    | inTxn => exact ih rest ok
    | txnRun q => exact ih rest ok
    | autoRun q =>
      obtain ⟨mid, first, later⟩ := execAll_append_eq_ok.mp ok
      rw [show Session.Op.direct (.autoRun q) = [q] from rfl, execAll_singleton] at first
      rw [handle_autoRun_ok (s := ⟨db, none⟩) first]
      exact ih rest later
    | begin => exact (plain _ List.mem_cons_self).elim
    | commit => exact (plain _ List.mem_cons_self).elim
    | rollback => exact (plain _ List.mem_cons_self).elim

/-- A run without a transaction sends these statements. -/
abbrev Sends (p : Prog (Session E) ε α) (db : E.Db) (qs : List E.Stmt) : Prop :=
  p.Emits handle Session.Op.Plain Session.Op.direct ⟨db, none⟩ qs

/-- The statements the first `n` calls of a run send. -/
abbrev sent (n : ℕ) (p : Prog (Session E) ε α) (db : E.Db) : List E.Stmt :=
  p.emitted handle Session.Op.direct n ⟨db, none⟩

/-- **A crash** leaves the database after the statements sent so far. -/
theorem Sends.crash (sends : Sends p db qs) (ok : execAll E qs db = .ok db') (n : ℕ) :
    ∃ mid, execAll E (sent n p db) db = .ok mid ∧ p.crash handle n ⟨db, none⟩ = ⟨mid, none⟩ := by
  rw [← sends.split n, execAll_append_eq_ok] at ok
  obtain ⟨mid, first, _⟩ := ok
  refine ⟨mid, first, ?_⟩
  rw [Prog.crash_eq_foldl]
  exact foldl_handle (fun o mem => sends.plain o (List.mem_of_mem_take mem)) first

/-- Without a transaction a program sends these statements, as long as they are accepted. -/
structure Posts (p : Prog (Session E) ε Unit) (qs : List E.Stmt) : Prop extends Direct p qs where
  sends : ∀ {db db'}, execAll E qs db = .ok db' → Sends p db qs

variable {p p' : Prog (Session E) ε Unit}

theorem Posts.done : Posts (pure () : Prog (Session E) ε Unit) [] :=
  ⟨.done, fun _ => .pure⟩

theorem Posts.seq (first : Posts p qs) (rest : Posts p' rs) :
    Posts (p >>= fun _ => p') (qs ++ rs) := by
  refine ⟨first.toDirect.seq rest.toDirect, fun ok => ?_⟩
  obtain ⟨mid, here, later⟩ := execAll_append_eq_ok.mp ok
  exact (first.sends here).bind (first.ok here) (rest.sends later)

/-- One statement after the other. -/
theorem Posts.forM {γ : Type} {f : γ → Prog (Session E) ε Unit} {g : γ → List E.Stmt}
    (each : ∀ c, Posts (f c) (g c)) (l : List γ) : Posts (l.forM f) (l.flatMap g) := by
  induction l with
  | nil => exact .done
  | cons c l ih =>
    rw [List.forM_eq_forM, List.forM_cons]
    exact (each c).seq ih

end Store

namespace Client

/-- The statement an operation sends without a transaction. -/
def Op.direct {E : Engine} {L ε : Type} : Op E L ε → List E.Stmt
  | .session o => o.direct
  | _ => []

/-- The operation forks no tasks, and is no start or end of a transaction. -/
def Op.Plain {E : Engine} {L ε : Type} : Op E L ε → Prop
  | .session o => o.Plain
  | .fork _ => False
  | _ => True

end Client

namespace World

variable {E : Engine} {L ε α : Type} {p : Prog (Client E L ε) ε α} {db db' : E.Db} {x : L}
  {qs rs : List E.Stmt}

theorem foldl_handle {ops : List (Client.Op E L ε)} (plain : ∀ o ∈ ops, o.Plain)
    (ok : Store.execAll E (ops.flatMap Client.Op.direct) db = .ok db') :
    ∃ x', ops.foldl (fun w o => (handle o w).2) ⟨⟨db, none⟩, x⟩ = ⟨⟨db', none⟩, x'⟩ := by
  induction ops generalizing db x with
  | nil =>
    cases ok
    exact ⟨x, rfl⟩
  | cons o ops ih =>
    have rest := fun o mem => plain o (List.mem_cons_of_mem _ mem)
    rw [List.flatMap_cons] at ok
    rw [List.foldl_cons]
    cases o with
    | get => exact ih rest ok
    | set y => exact ih rest ok
    | fork tasks => exact (plain _ List.mem_cons_self).elim
    | session o =>
      obtain ⟨mid, first, later⟩ := Store.execAll_append_eq_ok.mp ok
      have only : ∀ o' ∈ [o], o'.Plain := fun o' mem => by
        cases List.mem_singleton.mp mem
        exact plain _ List.mem_cons_self
      have one : Store.execAll E ([o].flatMap Session.Op.direct) db = .ok mid := by
        rw [List.flatMap_singleton]
        exact first
      have served : (Store.handle o ⟨db, none⟩).2 = ⟨mid, none⟩ := Store.foldl_handle only one
      have here : (handle (.session o : Client.Op E L ε) ⟨⟨db, none⟩, x⟩).2 = ⟨⟨mid, none⟩, x⟩ := by
        show (⟨(Store.handle o ⟨db, none⟩).2, x⟩ : World E L) = _
        rw [served]
      rw [here]
      exact ih rest later

/-- A run without a transaction sends these statements. -/
abbrev Sends (p : Prog (Client E L ε) ε α) (w : World E L) (qs : List E.Stmt) : Prop :=
  p.Emits handle Client.Op.Plain Client.Op.direct w qs

/-- The statements the first `n` calls of a run send. -/
abbrev sent (n : ℕ) (p : Prog (Client E L ε) ε α) (w : World E L) : List E.Stmt :=
  p.emitted handle Client.Op.direct n w

/-- The statements the other calls send. -/
abbrev unsent (n : ℕ) (p : Prog (Client E L ε) ε α) (w : World E L) : List E.Stmt :=
  p.pending handle Client.Op.direct n w

/-- **A crash** leaves the database after the statements sent so far. -/
theorem Sends.crash (sends : Sends p ⟨⟨db, none⟩, x⟩ qs) (ok : Store.execAll E qs db = .ok db')
    (n : ℕ) : ∃ mid x', Store.execAll E (sent n p ⟨⟨db, none⟩, x⟩) db = .ok mid ∧
      p.crash handle n ⟨⟨db, none⟩, x⟩ = ⟨⟨mid, none⟩, x'⟩ := by
  rw [← sends.split n, Store.execAll_append_eq_ok] at ok
  obtain ⟨mid, first, _⟩ := ok
  obtain ⟨x', left⟩ := foldl_handle (x := x)
    (fun o mem => sends.plain o (List.mem_of_mem_take mem)) first
  refine ⟨mid, x', first, ?_⟩
  rw [Prog.crash_eq_foldl]
  exact left

/-- A session program sends what it does on the store alone. -/
theorem sends_lift {p : Prog (Session E) ε α} (sends : Store.Sends p db qs) :
    Sends (p.lift (ofSession E L ε)) ⟨⟨db, none⟩, x⟩ qs := by
  have calls : (p.lift (ofSession E L ε)).trace handle ⟨⟨db, none⟩, x⟩ =
      (p.trace Store.handle ⟨db, none⟩).map (ofSession E L ε).op :=
    Prog.trace_lift World.store (fun s w => { w with store := s }) (fun _ _ => ⟨rfl, rfl⟩)
      (fun _ _ => rfl) p ⟨⟨db, none⟩, x⟩
  refine ⟨fun o mem => ?_, ?_⟩
  · rw [calls] at mem
    obtain ⟨o', inTrace, rfl⟩ := List.mem_map.mp mem
    exact sends.plain o' inTrace
  · rw [calls, List.flatMap_map]
    exact sends.all

end World

end ChainGraph.Foundation

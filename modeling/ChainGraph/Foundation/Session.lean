import ChainGraph.Foundation.Prog

/-!
# A database session with one transaction slot

The session a client keeps with a transactional database: statements run either inside the
transaction in the slot or directly, each direct statement committed on its own. The database is
any type with statements that either transform it or are refused.

Statements in a transaction change its `view`; committing makes the view the database, rolling
back forgets it. A statement run directly while a transaction is open is committed at once, and
the open transaction sees it (read committed). Reads answer from the committed database.

`Client` adds what one process has beside its session: a local state, and tasks forked over the
same session and awaited in order. The handlers here run everything in one fixed order; the
orders in which forked tasks can really interleave are a separate reading of the same programs.
-/

namespace ChainGraph.Foundation

/-- A database, its statements, and why a statement or a connection fails. -/
structure Engine where
  Db : Type
  Stmt : Type
  Fault : Type
  exec : Stmt → Db → Except Fault Db

namespace Session

/-- The operations on a session. -/
inductive Op (E : Engine) where
  | read
  | inTxn
  | txnRun (q : E.Stmt)
  | autoRun (q : E.Stmt)
  | begin
  | commit
  | rollback

/-- The answers. A `Bool` says whether the slot was as the operation needs it: occupied for
`txnRun`, `commit` and `rollback`, free for `begin`. -/
@[reducible] def Reply (E : Engine) : Op E → Type
  | .read => Except E.Fault E.Db
  | .inTxn => Bool
  | .txnRun _ => Except E.Fault Bool
  | .autoRun _ => Except E.Fault Unit
  | .begin => Except E.Fault Bool
  | .commit => Except E.Fault Bool
  | .rollback => Except E.Fault Bool

/-- The operations that leave the transaction slot alone and send only statements in `P`. -/
def Op.Sends {E : Engine} (P : E.Stmt → Prop) : Op E → Prop
  | .read => True
  | .inTxn => True
  | .txnRun q => P q
  | .autoRun q => P q
  | .begin => False
  | .commit => False
  | .rollback => False

/-- The operations whose statement, if they send one, is in `P`. -/
def Op.Obeys {E : Engine} (P : E.Stmt → Prop) : Op E → Prop
  | .txnRun q => P q
  | .autoRun q => P q
  | _ => True

theorem Op.Sends.obeys {E : Engine} {P : E.Stmt → Prop} {o : Op E} (sends : o.Sends P) :
    o.Obeys P := by
  cases o with
  | txnRun q => exact sends
  | autoRun q => exact sends
  | _ => trivial

theorem Op.obeys_true {E : Engine} (o : Op E) : o.Obeys fun _ => True := by
  cases o <;> trivial

end Session

/-- The session's interface. -/
abbrev Session (E : Engine) : Interface := ⟨Session.Op E, Session.Reply E⟩

/-- A program over a session alone. -/
abbrev Task (E : Engine) (ε : Type) := Prog (Session E) ε Unit

/-- The committed database, and the view of the open transaction. -/
structure Store (E : Engine) where
  committed : E.Db
  active : Option E.Db

namespace Store

variable {E : Engine} {ε : Type}

/-- Statements one after the other; the first refusal is the outcome. -/
def execAll (E : Engine) (qs : List E.Stmt) (db : E.Db) : Except E.Fault E.Db :=
  qs.foldlM (fun db q => E.exec q db) db

@[simp] theorem execAll_nil (db : E.Db) : execAll E [] db = .ok db := rfl

theorem execAll_cons (q : E.Stmt) (qs : List E.Stmt) (db : E.Db) :
    execAll E (q :: qs) db = (E.exec q db >>= execAll E qs) := rfl

@[simp] theorem execAll_singleton (q : E.Stmt) (db : E.Db) : execAll E [q] db = E.exec q db := by
  rw [execAll_cons]
  cases E.exec q db <;> rfl

theorem execAll_append (qs rs : List E.Stmt) (db : E.Db) :
    execAll E (qs ++ rs) db = (execAll E qs db >>= execAll E rs) := by
  unfold execAll
  rw [List.foldlM_append]

/-- Statements in two parts succeed iff the first part does and then the second. -/
theorem execAll_append_eq_ok {qs rs : List E.Stmt} {db db' : E.Db} :
    execAll E (qs ++ rs) db = .ok db' ↔
      ∃ mid, execAll E qs db = .ok mid ∧ execAll E rs mid = .ok db' := by
  rw [execAll_append]
  cases first : execAll E qs db with
  | error f =>
    constructor
    · intro impossible
      cases impossible
    · rintro ⟨mid, impossible, _⟩
      cases impossible
  | ok mid =>
    constructor
    · intro rest
      exact ⟨mid, rfl, rest⟩
    · rintro ⟨mid', same, rest⟩
      cases same
      exact rest

/-- Statements succeed iff the first does and then the others. -/
theorem execAll_cons_eq_ok {q : E.Stmt} {qs : List E.Stmt} {db db' : E.Db} :
    execAll E (q :: qs) db = .ok db' ↔
      ∃ mid, E.exec q db = .ok mid ∧ execAll E qs mid = .ok db' := by
  rw [← List.singleton_append, execAll_append_eq_ok, execAll_singleton]

/-- The database after a statement, or as it was if the statement is refused. -/
def applied (q : E.Stmt) (db : E.Db) : E.Db :=
  match E.exec q db with
  | .ok db' => db'
  | .error _ => db

/-- Every call served by a live database. -/
def handle : Prog.Handler (Session E) (Store E)
  | .read, s => (.ok s.committed, s)
  | .inTxn, s => (s.active.isSome, s)
  | .txnRun q, s =>
    match s.active with
    | none => (.ok false, s)
    | some view =>
      match E.exec q view with
      | .ok view' => (.ok true, { s with active := some view' })
      | .error f => (.error f, s)
  | .autoRun q, s =>
    match E.exec q s.committed with
    | .ok db => (.ok (), ⟨db, s.active.map (applied q)⟩)
    | .error f => (.error f, s)
  | .begin, s =>
    match s.active with
    | none => (.ok true, { s with active := some s.committed })
    | some _ => (.ok false, s)
  | .commit, s =>
    match s.active with
    | none => (.ok false, s)
    | some view => (.ok true, ⟨view, none⟩)
  | .rollback, s =>
    match s.active with
    | none => (.ok false, s)
    | some _ => (.ok true, { s with active := none })

theorem handle_autoRun_ok {q : E.Stmt} {s : Store E} {db : E.Db}
    (h : E.exec q s.committed = .ok db) :
    handle (.autoRun q) s = (.ok (), ⟨db, s.active.map (applied q)⟩) := by
  simp only [handle, h]

theorem handle_autoRun_error {q : E.Stmt} {s : Store E} {f : E.Fault}
    (h : E.exec q s.committed = .error f) : handle (.autoRun q) s = (.error f, s) := by
  simp only [handle, h]

theorem handle_txnRun_ok {q : E.Stmt} {d view view' : E.Db} (h : E.exec q view = .ok view') :
    handle (.txnRun q) ⟨d, some view⟩ = (.ok true, ⟨d, some view'⟩) := by
  simp only [handle, h]

theorem handle_txnRun_error {q : E.Stmt} {d view : E.Db} {f : E.Fault}
    (h : E.exec q view = .error f) :
    handle (.txnRun q) ⟨d, some view⟩ = (.error f, ⟨d, some view⟩) := by
  simp only [handle, h]

theorem applied_ok {q : E.Stmt} {db db' : E.Db} (h : E.exec q db = .ok db') :
    applied q db = db' := by
  simp only [applied, h]

/-- What every statement keeps holds of the database and of the view in the slot. -/
structure Lawful (Inv : E.Db → Prop) (s : Store E) : Prop where
  committed : Inv s.committed
  view : ∀ view ∈ s.active, Inv view

/-- Without a transaction there is only the database. -/
theorem Lawful.idle {Inv : E.Db → Prop} {db : E.Db} (inv : Inv db) : Lawful Inv ⟨db, none⟩ where
  committed := inv
  view _ none := nomatch none

/-- What statements keep, a session that sends them keeps: starting and ending a transaction cannot
break it. -/
theorem Lawful.handle_obeys {Inv : E.Db → Prop} {P : E.Stmt → Prop}
    (stmt : ∀ q db db', P q → Inv db → E.exec q db = .ok db' → Inv db') (o : Session.Op E)
    (obeys : o.Obeys P) {s : Store E} (inv : Lawful Inv s) : Lawful Inv (Store.handle o s).2 := by
  obtain ⟨committed, active⟩ := s
  obtain ⟨hc, ha⟩ := inv
  cases o with
  | read => exact ⟨hc, ha⟩
  | inTxn => exact ⟨hc, ha⟩
  | txnRun q =>
    cases active with
    | none => exact ⟨hc, ha⟩
    | some view =>
      unfold Store.handle
      cases step : E.exec q view with
      | error f => simpa only [step] using ⟨hc, ha⟩
      | ok view' =>
        simp only [step]
        refine ⟨hc, fun v hv => ?_⟩
        cases hv
        exact stmt q view view' obeys (ha view rfl) step
  | autoRun q =>
    unfold Store.handle
    cases step : E.exec q committed with
    | error f => simpa only [step] using ⟨hc, ha⟩
    | ok db =>
      simp only [step]
      refine ⟨stmt q committed db obeys hc step, fun v hv => ?_⟩
      obtain ⟨view, hview, rfl⟩ := Option.map_eq_some_iff.mp hv
      unfold applied
      cases again : E.exec q view with
      | ok view' => exact stmt q view view' obeys (ha view hview) again
      | error f => exact ha view hview
  | begin =>
    cases active with
    | none =>
      refine ⟨hc, fun v hv => ?_⟩
      cases hv
      exact hc
    | some view => exact ⟨hc, ha⟩
  | commit =>
    cases active with
    | none => exact ⟨hc, ha⟩
    | some view => exact ⟨ha view rfl, fun v hv => by cases hv⟩
  | rollback =>
    cases active with
    | none => exact ⟨hc, ha⟩
    | some view => exact ⟨hc, fun v hv => by cases hv⟩

/-- What every statement keeps, every session keeps. -/
theorem Lawful.handle {Inv : E.Db → Prop}
    (stmt : ∀ q db db', Inv db → E.exec q db = .ok db' → Inv db') (o : Session.Op E)
    {s : Store E} (inv : Lawful Inv s) : Lawful Inv (Store.handle o s).2 :=
  inv.handle_obeys (fun q db db' _ => stmt q db db') o o.obeys_true

/-- What a program that only sends statements keeps: on the committed database and on the view, in
each what the statements keep there. The slot stays as it is. -/
structure Keeps (InvC InvV : E.Db → Prop) (occupied : Bool) (s : Store E) : Prop where
  committed : InvC s.committed
  view : ∀ view, s.active = some view → InvV view
  occupied : s.active.isSome = occupied

theorem Keeps.handle {InvC InvV : E.Db → Prop} {P : E.Stmt → Prop} {occupied : Bool}
    (onC : ∀ q db db', P q → InvC db → E.exec q db = .ok db' → InvC db')
    (onV : ∀ q db db', P q → InvV db → E.exec q db = .ok db' → InvV db') (o : Session.Op E)
    (s : Store E) (sends : o.Sends P) (inv : Keeps InvC InvV occupied s) :
    Keeps InvC InvV occupied (Store.handle o s).2 := by
  obtain ⟨db, active⟩ := s
  cases o with
  | read => exact inv
  | inTxn => exact inv
  | txnRun q =>
    cases active with
    | none => exact inv
    | some view =>
      cases step : E.exec q view with
      | error f =>
        rw [handle_txnRun_error step]
        exact inv
      | ok view' =>
        rw [handle_txnRun_ok step]
        refine ⟨inv.committed, fun v hv => ?_, inv.occupied⟩
        cases hv
        exact onV q view view' sends (inv.view view rfl) step
  | autoRun q =>
    cases step : E.exec q db with
    | error f =>
      rw [handle_autoRun_error step]
      exact inv
    | ok db' =>
      rw [handle_autoRun_ok step]
      refine ⟨onC q db db' sends inv.committed step, fun v hv => ?_, ?_⟩
      · obtain ⟨view, hview, rfl⟩ := Option.map_eq_some_iff.mp hv
        unfold applied
        cases again : E.exec q view with
        | ok view' => exact onV q view view' sends (inv.view view hview) again
        | error f => exact inv.view view hview
      · rw [← inv.occupied, Option.isSome_map]
  | begin => exact sends.elim
  | commit => exact sends.elim
  | rollback => exact sends.elim

/-! ## Programs that send statements

A program that sends a list of statements one after the other, and stops with an error at the
first refusal, is described by the list. Which database a statement reaches depends on how it is
sent, so there is one description for each way. -/

/-- Without a transaction, the statements are committed one by one. -/
structure Direct (p : Prog (Session E) ε Unit) (qs : List E.Stmt) : Prop where
  ok : ∀ {db db'}, execAll E qs db = .ok db' → p.run handle ⟨db, none⟩ = (.ok (), ⟨db', none⟩)
  error : ∀ {db f}, execAll E qs db = .error f →
    ∃ e db', p.run handle ⟨db, none⟩ = (.error e, ⟨db', none⟩)

/-- In a transaction, the statements change its view and nothing else. -/
structure Within (p : Prog (Session E) ε Unit) (qs : List E.Stmt) : Prop where
  ok : ∀ {db view view'}, execAll E qs view = .ok view' →
    p.run handle ⟨db, some view⟩ = (.ok (), ⟨db, some view'⟩)
  error : ∀ {d view f}, execAll E qs view = .error f →
    ∃ e view', p.run handle ⟨d, some view⟩ = (.error e, ⟨d, some view'⟩)

/-- Beside an open transaction, the statements are committed one by one and seen by it. -/
structure Beside (p : Prog (Session E) ε Unit) (qs : List E.Stmt) : Prop where
  ok : ∀ {db db' view view'}, execAll E qs db = .ok db' → execAll E qs view = .ok view' →
    p.run handle ⟨db, some view⟩ = (.ok (), ⟨db', some view'⟩)

theorem execAll_append_ok {qs rs : List E.Stmt} {db db' : E.Db}
    (h : execAll E qs db = .ok db') : execAll E (qs ++ rs) db = execAll E rs db' := by
  rw [execAll_append, h]
  rfl

theorem execAll_append_error {qs rs : List E.Stmt} {db : E.Db} {f : E.Fault}
    (h : execAll E qs db = .error f) : execAll E (qs ++ rs) db = .error f := by
  rw [execAll_append, h]
  rfl

variable {p p' : Prog (Session E) ε Unit} {qs qs' : List E.Stmt}

theorem Direct.done : Direct (pure () : Prog (Session E) ε Unit) [] where
  ok h := by
    cases h
    rfl
  error h := by cases h

theorem Within.done : Within (pure () : Prog (Session E) ε Unit) [] where
  ok h := by
    cases h
    rfl
  error h := by cases h

theorem Beside.done : Beside (pure () : Prog (Session E) ε Unit) [] where
  ok h h' := by
    cases h
    cases h'
    rfl

theorem Direct.seq (first : Direct p qs) (rest : Direct p' qs') :
    Direct (p >>= fun _ => p') (qs ++ qs') where
  ok {db db'} h := by
    cases mid : execAll E qs db with
    | error f =>
      rw [execAll_append_error mid] at h
      cases h
    | ok db₁ =>
      rw [execAll_append_ok mid] at h
      rw [Prog.run_bind_ok (first.ok mid), rest.ok h]
  error {db f} h := by
    cases mid : execAll E qs db with
    | error f' =>
      obtain ⟨e, db', ran⟩ := first.error mid
      exact ⟨e, db', Prog.run_bind_error ran⟩
    | ok db₁ =>
      rw [execAll_append_ok mid] at h
      obtain ⟨e, db', ran⟩ := rest.error h
      exact ⟨e, db', by rw [Prog.run_bind_ok (first.ok mid), ran]⟩

theorem Within.seq (first : Within p qs) (rest : Within p' qs') :
    Within (p >>= fun _ => p') (qs ++ qs') where
  ok {db view view'} h := by
    cases mid : execAll E qs view with
    | error f =>
      rw [execAll_append_error mid] at h
      cases h
    | ok view₁ =>
      rw [execAll_append_ok mid] at h
      rw [Prog.run_bind_ok (first.ok mid), rest.ok h]
  error {db view f} h := by
    cases mid : execAll E qs view with
    | error f' =>
      obtain ⟨e, view', ran⟩ := first.error (d := db) mid
      exact ⟨e, view', Prog.run_bind_error ran⟩
    | ok view₁ =>
      rw [execAll_append_ok mid] at h
      obtain ⟨e, view', ran⟩ := rest.error (d := db) h
      exact ⟨e, view', by rw [Prog.run_bind_ok (first.ok mid), ran]⟩

theorem Beside.seq (first : Beside p qs) (rest : Beside p' qs') :
    Beside (p >>= fun _ => p') (qs ++ qs') where
  ok {db db' view view'} h hv := by
    cases mid : execAll E qs db with
    | error f =>
      rw [execAll_append_error mid] at h
      cases h
    | ok db₁ =>
      cases midv : execAll E qs view with
      | error f =>
        rw [execAll_append_error midv] at hv
        cases hv
      | ok view₁ =>
        rw [execAll_append_ok mid] at h
        rw [execAll_append_ok midv] at hv
        rw [Prog.run_bind_ok (first.ok mid midv), rest.ok h hv]

end Store

/-! ## A client of a session -/

namespace Client

/-- Session operations, a local state, and tasks forked over the session. -/
inductive Op (E : Engine) (L ε : Type) where
  | session (o : Session.Op E)
  | get
  | set (x : L)
  | fork (tasks : List (Task E ε))

/-- The operations that leave the transaction slot alone and send only statements in `P`, in
forked tasks too. -/
def Op.Sends {E : Engine} {L ε : Type} (P : E.Stmt → Prop) : Op E L ε → Prop
  | .session o => o.Sends P
  | .get => True
  | .set _ => True
  | .fork tasks => ∀ t ∈ tasks, t.Always (Session.Op.Sends P)

/-- The operations all of whose statements are in `P`, those of forked tasks too. -/
def Op.Obeys {E : Engine} {L ε : Type} (P : E.Stmt → Prop) : Op E L ε → Prop
  | .session o => o.Obeys P
  | .get => True
  | .set _ => True
  | .fork tasks => ∀ t ∈ tasks, t.Always (Session.Op.Obeys P)

/-- A fork answers once every task has succeeded, or with the first failure in task order. -/
@[reducible] def Reply (E : Engine) (L ε : Type) : Op E L ε → Type
  | .session o => Session.Reply E o
  | .get => L
  | .set _ => Unit
  | .fork _ => Except ε Unit

end Client

/-- The client's interface. -/
abbrev Client (E : Engine) (L ε : Type) : Interface := ⟨Client.Op E L ε, Client.Reply E L ε⟩

/-- A session's store beside the client's local state. -/
structure World (E : Engine) (L : Type) where
  store : Store E
  memory : L

namespace World

variable {E : Engine} {L ε α : Type}

/-- Tasks run to the end one after the other; the first failure in their order is the answer. -/
def runTasks : List (Task E ε) → Store E → Except ε Unit × Store E
  | [], s => (.ok (), s)
  | t :: ts, s =>
    let first := t.run Store.handle s
    let rest := runTasks ts first.2
    (match first.1 with | .ok () => rest.1 | .error e => .error e, rest.2)

def handle : Prog.Handler (Client E L ε) (World E L)
  | .session o, w => ((Store.handle o w.store).1, { w with store := (Store.handle o w.store).2 })
  | .get, w => (w.memory, w)
  | .set x, w => ((), { w with memory := x })
  | .fork tasks, w => ((runTasks tasks w.store).1, { w with store := (runTasks tasks w.store).2 })

/-- Session operations are client operations. -/
def ofSession (E : Engine) (L ε : Type) : Prog.Embedding (Session E) (Client E L ε) :=
  ⟨.session, fun _ r => r⟩

/-- A session program runs on the store and leaves the local state alone. -/
theorem run_lift (p : Prog (Session E) ε α) (w : World E L) :
    (p.lift (ofSession E L ε)).run handle w =
      ((p.run Store.handle w.store).1, { w with store := (p.run Store.handle w.store).2 }) :=
  Prog.run_lift World.store (fun s w => { w with store := s }) (fun _ _ => ⟨rfl, rfl⟩)
    (fun _ _ => rfl) (fun _ _ _ => rfl) (fun _ => rfl) p w

theorem always_lift {P : E.Stmt → Prop} {p : Prog (Session E) ε α}
    (all : p.Always (Session.Op.Sends P)) :
    (p.lift (ofSession E L ε)).Always (Client.Op.Sends P) :=
  Prog.always_lift all

/-- Tasks that send statements in a transaction send them one task after the other. -/
theorem runTasks_within {tasks : List (Task E ε)} {qss : List (List E.Stmt)}
    (each : List.Forall₂ Store.Within tasks qss) {d view view' : E.Db}
    (ok : Store.execAll E qss.flatten view = .ok view') :
    runTasks tasks ⟨d, some view⟩ = (.ok (), ⟨d, some view'⟩) := by
  induction each generalizing view with
  | nil =>
    cases ok
    rfl
  | cons first _ ih =>
    rw [List.flatten_cons, Store.execAll_append_eq_ok] at ok
    obtain ⟨mid, sent, rest⟩ := ok
    simp only [runTasks, first.ok sent, ih rest]

section Keeps

variable {InvC InvV : E.Db → Prop} {P : E.Stmt → Prop} {occupied : Bool}

theorem keeps_runTasks
    (onC : ∀ q db db', P q → InvC db → E.exec q db = .ok db' → InvC db')
    (onV : ∀ q db db', P q → InvV db → E.exec q db = .ok db' → InvV db')
    {tasks : List (Task E ε)} (all : ∀ t ∈ tasks, t.Always (Session.Op.Sends P)) {s : Store E}
    (inv : s.Keeps InvC InvV occupied) : (runTasks tasks s).2.Keeps InvC InvV occupied := by
  induction tasks generalizing s with
  | nil => exact inv
  | cons t ts ih =>
    have first := (all t List.mem_cons_self).run (Store.Keeps.handle onC onV) inv
    exact ih (fun u hu => all u (List.mem_cons_of_mem t hu)) first

/-- What statements keep, a client that only sends them keeps. -/
theorem keeps_run
    (onC : ∀ q db db', P q → InvC db → E.exec q db = .ok db' → InvC db')
    (onV : ∀ q db db', P q → InvV db → E.exec q db = .ok db' → InvV db')
    {p : Prog (Client E L ε) ε α} (all : p.Always (Client.Op.Sends P)) {w : World E L}
    (inv : w.store.Keeps InvC InvV occupied) :
    (p.run handle w).2.store.Keeps InvC InvV occupied := by
  refine all.run (S := fun w : World E L => w.store.Keeps InvC InvV occupied)
    (fun o w sends inv => ?_) inv
  cases o with
  | session o => exact Store.Keeps.handle onC onV o w.store sends inv
  | get => exact inv
  | set x => exact inv
  | fork tasks => exact keeps_runTasks onC onV sends inv

/-- What statements keep, a client that sends them keeps, whatever it does to the slot. -/
theorem lawful_run_obeys {Inv : E.Db → Prop}
    (stmt : ∀ q db db', P q → Inv db → E.exec q db = .ok db' → Inv db')
    {p : Prog (Client E L ε) ε α} (all : p.Always (Client.Op.Obeys P)) {w : World E L}
    (inv : w.store.Lawful Inv) : (p.run handle w).2.store.Lawful Inv := by
  have tasks : ∀ (ts : List (Task E ε)) (s : Store E),
      (∀ t ∈ ts, t.Always (Session.Op.Obeys P)) → s.Lawful Inv → (runTasks ts s).2.Lawful Inv := by
    intro ts
    induction ts with
    | nil => exact fun s _ inv => inv
    | cons t ts ih =>
      intro s all inv
      refine ih _ (fun u mem => all u (List.mem_cons_of_mem t mem)) ?_
      exact (all t List.mem_cons_self).run (fun o s obeys inv => inv.handle_obeys stmt o obeys) inv
  refine all.run (S := fun w : World E L => w.store.Lawful Inv) (fun o w obeys inv => ?_) inv
  cases o with
  | session o => exact inv.handle_obeys stmt o obeys
  | get => exact inv
  | set x => exact inv
  | fork ts => exact tasks ts w.store obeys inv

/-- What every statement keeps, every client keeps. -/
theorem lawful_run {S : E.Db → Prop}
    (stmt : ∀ q db db', S db → E.exec q db = .ok db' → S db')
    (p : Prog (Client E L ε) ε α) {w : World E L} (inv : w.store.Lawful S) :
    (p.run handle w).2.store.Lawful S := by
  have all : p.Always (Client.Op.Obeys fun _ => True) := by
    refine Prog.Always.mono (fun o _ => ?_) (Prog.always_true p)
    cases o with
    | session o => exact o.obeys_true
    | get => trivial
    | set x => trivial
    | fork ts => exact fun t _ => Prog.Always.mono (fun o _ => o.obeys_true) (Prog.always_true t)
  exact lawful_run_obeys (fun q db db' _ => stmt q db db') all inv

end Keeps

end World

end ChainGraph.Foundation

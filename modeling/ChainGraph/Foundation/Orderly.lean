import ChainGraph.Foundation.Crashes
import ChainGraph.Foundation.Crew

/-!
# Orderly programs

What a program must keep to so that its statements stay in their transactions whatever the order of
its tasks. A confined program only reads and sends statements in the open transaction, and succeeds
only if none of its calls was answered with an error. An orderly main flow forks confined tasks in
a transaction, and commits the transaction only if nothing in it has failed.

With `once`, a failure is the last thing that happens: no transaction starts after it.
-/

namespace ChainGraph.Foundation

/-! ## Confined programs -/

/-- Beside an open transaction only reads and statements in it are made. The state says whether a
call was answered with an error. -/
def Session.confined (E : Engine) : Outcomes (Session E) Bool where
  allow
    | .read, _ => True
    | .inTxn, _ => True
    | .txnRun _, _ => True
    | _, _ => False
  serves
    | .read, failed, answer, failed' => failed' = (!answer.isOk || failed)
    | .inTxn, failed, answer, failed' => answer = true ∧ failed' = failed
    | .txnRun _, failed, answer, failed' =>
      answer ≠ .ok false ∧ failed' = (!answer.isOk || failed)
    | _, _, _, _ => True

/-- A program that makes no other call while a transaction is open, and passes on every error. -/
def Confined {E : Engine} {ε α : Type} (p : Prog (Session E) ε α) : Prop :=
  p.Holds (Session.confined E) (fun r failed => r.isOk → failed = false) false

section Confined

variable {E : Engine} {ε α β : Type}

theorem Confined.bind {p : Prog (Session E) ε α} {f : α → Prog (Session E) ε β}
    (first : Confined p) (rest : ∀ a, Confined (f a)) : Confined (p >>= f) := by
  refine Prog.Holds.bind first (fun a failed ok => ?_) fun e failed _ isOk => ?_
  · rw [ok rfl]
    exact rest a
  · cases isOk

theorem Confined.pure (a : α) : Confined (Pure.pure a : Prog (Session E) ε α) := fun _ => rfl

theorem Confined.throw (e : ε) : Confined (MonadExcept.throw e : Prog (Session E) ε α) :=
  fun isOk => by cases isOk

/-- An error that is passed on at once. -/
theorem holds_of_stops {p : Prog (Session E) ε α} {failed : Bool} (stops : ∃ e, p = .fail e) :
    p.Holds (Session.confined E) (fun r failed => r.isOk → failed = false) failed := by
  obtain ⟨e, rfl⟩ := stops
  intro isOk
  cases isOk

theorem Confined.txnRun {q : E.Stmt} {k : Except E.Fault Bool → Prog (Session E) ε α}
    (next : Confined (k (.ok true))) (stops : ∀ f, ∃ e, k (.error f) = .fail e) :
    Confined (.vis (.txnRun q) k) := by
  refine ⟨trivial, fun answer failed' ⟨sent, same⟩ => ?_⟩
  subst same
  cases answer with
  | ok b =>
    cases b with
    | true => exact next
    | false => exact (sent rfl).elim
  | error f => exact holds_of_stops (stops f)

theorem Confined.read {k : Except E.Fault E.Db → Prog (Session E) ε α}
    (next : ∀ db, Confined (k (.ok db))) (stops : ∀ f, ∃ e, k (.error f) = .fail e) :
    Confined (.vis .read k) := by
  refine ⟨trivial, fun answer failed' same => ?_⟩
  subst same
  cases answer with
  | ok db => exact next db
  | error f => exact holds_of_stops (stops f)

theorem Confined.inTxn {k : Bool → Prog (Session E) ε α} (next : Confined (k true)) :
    Confined (.vis .inTxn k) := by
  refine ⟨trivial, fun answer failed' ⟨opened, same⟩ => ?_⟩
  subst same
  subst opened
  exact next

end Confined

/-! ## Orderly main flows -/

/-- Whether a transaction is open, and whether something has failed. -/
structure Stage where
  opened : Bool
  failed : Bool

namespace Stage

variable (once : Bool) (s : Stage)

/-- After an error. Outside a transaction it is forgotten, except with `once`. -/
def fail : Stage := ⟨s.opened, s.opened || once || s.failed⟩

/-- After a transaction. What failed in it is forgotten, except with `once`. -/
def close : Stage := ⟨false, s.failed && once⟩

/-- After a call of the main flow. -/
def next {E : Engine} : (o : Session.Op E) → Session.Reply E o → Stage
  | .read, .ok _ => s
  | .read, .error _ => s.fail once
  | .inTxn, _ => s
  | .txnRun _, .ok _ => s
  | .txnRun _, .error _ => s.fail once
  | .autoRun _, .ok _ => s
  | .autoRun _, .error _ => s.fail once
  | .begin, .ok begun => ⟨s.opened || begun, s.failed⟩
  | .begin, .error _ => s.fail once
  | .commit, .ok _ => s.close once
  | .commit, .error _ => (s.close once).fail once
  | .rollback, .ok _ => s.close once
  | .rollback, .error _ => (s.close once).fail once

/-- What the slot answers. -/
def Answers {E : Engine} : (o : Session.Op E) → Session.Reply E o → Prop
  | .inTxn, answer => answer = s.opened
  | .txnRun _, answer => ∀ b, answer = .ok b → b = s.opened
  | _, _ => True

end Stage

/-- Statements go to the database directly only without a transaction. A transaction starts, forks
tasks and is committed only if nothing has failed. -/
def Client.orderly (once : Bool) (E : Engine) (L ε : Type) : Outcomes (Client E L ε) Stage where
  allow
    | .session (.autoRun _), s => s.opened = false ∧ once = false
    | .session .begin, s => s.failed = false
    | .session .commit, s => s.failed = false
    | .fork tasks, s => s = ⟨true, false⟩ ∧ ∀ t ∈ tasks, Confined t
    | _, _ => True
  serves
    | .session o, s, answer, s' => s.Answers o answer ∧ s' = s.next once o answer
    | .fork _, s, answer, s' => s' = if answer.isOk then s else s.fail once
    | _, s, _, s' => s' = s

section Rules

variable {once : Bool} {E : Engine} {L ε α : Type}

/-- In an open transaction a confined program is orderly. The transaction stays open, and nothing
has failed if the program succeeds. -/
theorem Confined.lift {p : Prog (Session E) ε α} (confined : Confined p) :
    (p.lift (World.ofSession E L ε)).Holds (Client.orderly once E L ε)
      (fun r s => s.opened = true ∧ (r.isOk → s.failed = false)) ⟨true, false⟩ := by
  refine Prog.Holds.lift ?_
  unfold Confined at confined
  -- in the induction an error may have been answered already
  suffices ∀ failed, p.Holds (Session.confined E)
      (fun r failed => r.isOk → failed = false) failed →
      p.Holds ((Client.orderly once E L ε).pull (World.ofSession E L ε))
        (fun r s => s.opened = true ∧ (r.isOk → s.failed = false)) ⟨true, failed⟩ from
    this false confined
  clear confined
  induction p with
  | ret a => exact fun failed ok => ⟨rfl, ok⟩
  | fail e => exact fun failed ok => ⟨rfl, ok⟩
  | vis o k ih =>
    intro failed ⟨allowed, rest⟩
    cases o with
    | read =>
      refine ⟨trivial, fun r s' ⟨r', ⟨_, stage⟩, answer⟩ => ?_⟩
      cases answer
      subst stage
      have next := ih r' _ (rest r' _ rfl)
      cases r' with
      | ok db => exact next
      | error f => exact next
    | inTxn =>
      refine ⟨trivial, fun r s' ⟨r', ⟨opened, stage⟩, answer⟩ => ?_⟩
      cases answer
      subst stage
      exact ih r' _ (rest r' _ ⟨opened, rfl⟩)
    | txnRun q =>
      refine ⟨trivial, fun r s' ⟨r', ⟨opened, stage⟩, answer⟩ => ?_⟩
      cases answer
      subst stage
      have sent : r' ≠ .ok false := by
        intro refused
        cases opened false refused
      have next := ih r' _ (rest r' _ ⟨sent, rfl⟩)
      cases r' with
      | ok b => exact next
      | error f => exact next
    | _ => exact allowed.elim

/-- Nothing is open, nothing has failed. -/
def Stage.idle : Stage := ⟨false, false⟩

/-- What is left without a transaction: a failure, if it is the last thing to happen. -/
structure Settled (once : Bool) {α : Type} (r : Except ε α) (s : Stage) : Prop where
  closed : s.opened = false
  ok : r.isOk → s.failed = false
  failed : s.failed = true → once = true

namespace Settled

variable {β : Type}

theorem idle (r : Except ε α) : Settled once r .idle :=
  ⟨rfl, fun _ => rfl, fun failed => by cases failed⟩

theorem stage {a : α} {s : Stage} (settled : Settled once (.ok a : Except ε α) s) :
    s = .idle := by
  obtain ⟨opened, failed⟩ := s
  obtain ⟨rfl, ok, _⟩ := settled
  exact congrArg (Stage.mk false) (ok rfl)

/-- Failures that are forgotten leave nothing. -/
theorem forgotten {r : Except ε α} {s : Stage} (settled : Settled false r s) : s = .idle := by
  obtain ⟨opened, failed⟩ := s
  obtain ⟨rfl, _, kept⟩ := settled
  cases failed with
  | false => rfl
  | true => cases kept rfl

theorem error {e : ε} {s : Stage} (settled : Settled once (.error e : Except ε α) s) :
    Settled once (.error e : Except ε β) s :=
  ⟨settled.closed, fun isOk => (by cases isOk), settled.failed⟩

end Settled

/-- Without a transaction a program that only reads, and passes on every error, is orderly. -/
theorem Confined.lift_reads {p : Prog (Session E) ε α} (confined : Confined p)
    (reads : p.Always fun o : Session.Op E => o = .read) : (p.lift (World.ofSession E L ε)).Holds
      (Client.orderly once E L ε) (Settled once) .idle := by
  refine Prog.Holds.lift ?_
  unfold Confined at confined
  suffices ∀ failed failed', (failed' = true → failed = true ∧ once = true) →
      p.Holds (Session.confined E) (fun r failed => r.isOk → failed = false) failed →
      p.Holds ((Client.orderly once E L ε).pull (World.ofSession E L ε)) (Settled once)
        ⟨false, failed'⟩ from this false false (fun impossible => by cases impossible) confined
  clear confined
  induction p with
  | ret a =>
    intro failed failed' imp ok
    refine ⟨rfl, fun isOk => ?_, fun h => (imp h).2⟩
    cases failed' with
    | false => rfl
    | true => exact absurd (ok isOk) (by simp [(imp rfl).1])
  | fail e =>
    exact fun failed failed' imp _ => ⟨rfl, fun isOk => (by cases isOk), fun h => (imp h).2⟩
  | vis o k ih =>
    intro failed failed' imp ⟨allowed, rest⟩
    obtain ⟨rfl, later⟩ := reads
    refine ⟨trivial, fun r s' ⟨r', ⟨_, stage⟩, answer⟩ => ?_⟩
    cases answer
    subst stage
    cases r' with
    | ok db => exact ih _ (later _) failed failed' imp (rest _ _ rfl)
    | error f =>
      refine ih _ (later _) true (once || failed') (fun h => ⟨rfl, ?_⟩) (rest _ _ rfl)
      cases once with
      | true => rfl
      | false => exact (imp h).2

/-- Without a transaction every program is orderly that neither starts one nor forks tasks, if
failures are forgotten. -/
theorem Client.holds_of_plain {p : Prog (Client E L ε) ε α} (plain : p.Always Client.Op.Plain) :
    p.Holds (Client.orderly false E L ε) (fun _ s => s = .idle) .idle := by
  induction p with
  | ret a => rfl
  | fail e => rfl
  | vis o k ih =>
    obtain ⟨here, later⟩ := plain
    cases o with
    | session o =>
      cases o with
      | read =>
        refine ⟨trivial, fun r s' ⟨_, stage⟩ => ?_⟩
        cases stage
        cases r <;> exact ih _ (later _)
      | inTxn =>
        refine ⟨trivial, fun r s' ⟨_, stage⟩ => ?_⟩
        cases stage
        exact ih r (later r)
      | txnRun q =>
        refine ⟨trivial, fun r s' ⟨_, stage⟩ => ?_⟩
        cases stage
        cases r <;> exact ih _ (later _)
      | autoRun q =>
        refine ⟨⟨rfl, rfl⟩, fun r s' ⟨_, stage⟩ => ?_⟩
        cases stage
        cases r <;> exact ih _ (later _)
      | begin => exact here.elim
      | commit => exact here.elim
      | rollback => exact here.elim
    | get =>
      refine ⟨trivial, fun r s' stage => ?_⟩
      cases stage
      exact ih r (later r)
    | set x =>
      refine ⟨trivial, fun r s' stage => ?_⟩
      cases stage
      exact ih r (later r)
    | fork tasks => exact here.elim

end Rules

/-! ## What a careful schedule keeps -/

namespace Store

variable {E : Engine} {s : Store E} {o : Session.Op E} {fault : Option E.Fault}

variable (fault) in
/-- A confined program is answered as `confined` says. -/
theorem serve_confined {failed : Bool} (allowed : (Session.confined E).allow o failed)
    (opened : s.active.isSome) :
    ∃ failed', (Session.confined E).serves o failed (serve fault o s).1 failed' := by
  cases o with
  | inTxn => exact ⟨failed, by cases fault <;> exact opened, rfl⟩
  | txnRun q =>
    refine ⟨_, fun answer => ?_, rfl⟩
    have := serve_txnRun answer
    rw [opened] at this
    cases this
  | read => exact ⟨_, rfl⟩
  | _ => exact allowed.elim

variable (fault) in
theorem serve_answers (failed : Bool) :
    (⟨s.active.isSome, failed⟩ : Stage).Answers o (serve fault o s).1 := by
  cases o with
  | inTxn => cases fault <;> rfl
  | txnRun q => exact fun b answer => serve_txnRun answer
  | _ => trivial

/-- The stage tells whether the slot is occupied. -/
theorem serve_next (once failed : Bool) :
    ((⟨s.active.isSome, failed⟩ : Stage).next once o (serve fault o s).1).opened =
      (serve fault o s).2.active.isSome := by
  cases o with
  | begin => obtain ⟨db, active⟩ := s; cases active <;> cases fault <;> rfl
  | commit =>
    rw [serve_ended fault (Or.inl rfl)]
    cases (serve fault .commit s).1 <;> rfl
  | rollback =>
    rw [serve_ended fault (Or.inr rfl)]
    cases (serve fault .rollback s).1 <;> rfl
  | inTxn => cases fault <;> rfl
  | read =>
    rw [serve_same (by simp) (by simp) (by simp)]
    cases (serve fault .read s).1 <;> rfl
  | txnRun q =>
    rw [serve_same (by simp) (by simp) (by simp)]
    cases (serve fault (.txnRun q) s).1 <;> rfl
  | autoRun q =>
    rw [serve_same (by simp) (by simp) (by simp)]
    cases (serve fault (.autoRun q) s).1 <;> rfl

end Store

namespace Stage

variable {once : Bool} {s : Stage} {E : Engine} {o : Session.Op E} {answer : Session.Reply E o}

/-- Only the end of a transaction forgets a failure. -/
theorem failed_of_next (forgets : (s.next once o answer).failed = false) :
    s.failed = false ∨ o = .commit ∨ o = .rollback := by
  have raised : (s.fail once).failed = false → s.failed = false :=
    fun h => (Bool.or_eq_false_iff.mp h).2
  cases o with
  | commit => exact Or.inr (Or.inl rfl)
  | rollback => exact Or.inr (Or.inr rfl)
  | inTxn => exact Or.inl forgets
  | _ =>
    cases answer with
    | ok _ => exact Or.inl forgets
    | error _ => exact Or.inl (raised forgets)

/-- With `once` no failure is forgotten. -/
theorem failed_next_once (failed : s.failed = true) : (s.next true o answer).failed = true := by
  obtain ⟨opened, _⟩ := s
  subst failed
  cases o with
  | inTxn => rfl
  | _ =>
    cases answer with
    | ok _ => rfl
    | error _ => cases opened <;> rfl

end Stage

namespace Crew

variable {once : Bool} {E : Engine} {L ε α : Type} {c : Crew E L ε α}

/-- What the main flow has still to do, given which tasks have ended. -/
def Orderly (once : Bool) (c : Crew E L ε α) : Prop :=
  match c.flow with
  | .going p => ∃ failed, (failed = false → c.Joined) ∧
      p.Holds (Client.orderly once E L ε) (fun _ _ => True) ⟨c.store.active.isSome, failed⟩
  | .waiting places k => c.store.active.isSome ∧
      (∀ i t, c.tasks[i]? = some t → i ∉ places → t.Ended) ∧
      (k (.ok ())).Holds (Client.orderly once E L ε) (fun _ _ => True) ⟨true, false⟩ ∧
      ∀ e, (k (.error e)).Holds (Client.orderly once E L ε) (fun _ _ => True) ⟨true, true⟩

/-- A task that has not ended is confined to the open transaction, in which it was forked. -/
structure Contains (once : Bool) (c : Crew E L ε α) : Prop extends c.Numbered where
  tasks : ∀ t ∈ c.tasks, t.Ended ∨ ((∃ n, c.txn = some n ∧ t.owner = some n) ∧
    ∃ failed, t.rest.Holds (Session.confined E) (fun r failed => r.isOk → failed = false) failed)
  orderly : c.Orderly once

theorem Contains.start {p : Prog (Client E L ε) ε α} {db : E.Db} {memory : L}
    (holds : p.Holds (Client.orderly once E L ε) (fun _ _ => True) .idle) :
    (start p db memory).Contains once where
  log := ⟨fun _ _ _ mem => (List.not_mem_nil mem).elim, List.Pairwise.nil⟩
  ended _ mem := (List.not_mem_nil mem).elim
  tasks _ mem := (List.not_mem_nil mem).elim
  orderly := ⟨false, fun _ _ mem => (List.not_mem_nil mem).elim, holds⟩

/-- A task goes on. -/
theorem Contains.stepTask (h : c.Contains once) (place : ℕ) (fault : Option E.Fault) :
    (c.stepTask place fault).Contains once := by
  unfold Crew.stepTask
  split
  · rename_i owner o k found
    have live := h.tasks _ (List.mem_of_getElem? found)
    obtain ended | ⟨⟨n, number, own⟩, failed, allowed, later⟩ := live
    · exact ended.elim
    obtain ⟨opened, same⟩ := txn_eq_some.mp number
    obtain ⟨failed', served⟩ := Store.serve_confined fault allowed opened
    have goes : (k (c.call fault owner o).1).Holds (Session.confined E)
        (fun r failed => r.isOk → failed = false) failed' := later _ _ served
    have numbered : (c.call fault owner o).2.Numbered :=
      h.toNumbered.call (fun m own' => by rw [number, ← own, own']) fun q same => by
        subst same
        exact allowed.elim
    have kept : (c.call fault owner o).2.txn = c.txn := by
      refine txn_call owner opened ?_ ?_
      · rintro rfl
        exact allowed
      · rintro rfl
        exact allowed
    have stays : (c.call fault owner o).2.store.active.isSome :=
      (txn_eq_some.mp (kept.trans number)).1
    refine ⟨⟨numbered.log, numbered.ended⟩, fun t mem => ?_, ?_⟩
    · rcases List.mem_or_eq_of_mem_set mem with other | rfl
      · exact (h.tasks t other).imp_right fun ⟨⟨m, open', own'⟩, rest⟩ =>
          ⟨⟨m, kept.trans open', own'⟩, rest⟩
      · exact Or.inr ⟨⟨n, kept.trans number, own⟩, failed', goes⟩
    · have orderly := h.orderly
      have running : ¬ (⟨owner, .vis o k⟩ : Forked E ε).Ended := id
      unfold Orderly at orderly ⊢
      have flow : (c.call fault owner o).2.flow = c.flow := rfl
      dsimp only
      rw [flow]
      cases shape : c.flow with
      | going p =>
        simp only [shape] at orderly
        obtain ⟨failed, joined, holds⟩ := orderly
        refine ⟨failed, fun none => ?_, ?_⟩
        · exact absurd (joined none _ (List.mem_of_getElem? found)) running
        · rw [stays]
          rw [opened] at holds
          exact holds
      | waiting places k' =>
        simp only [shape] at orderly
        obtain ⟨_, others, rest⟩ := orderly
        refine ⟨stays, fun i t at_i away => ?_, rest⟩
        rw [List.getElem?_set] at at_i
        split at at_i
        · rename_i same
          subst same
          exact absurd (others place _ found away) running
        · exact others i t at_i away
  · exact h

/-- The main flow makes a call. -/
theorem Contains.mainCall {o : Session.Op E}
    {k : Session.Reply E o → Prog (Client E L ε) ε α} (h : c.Contains once)
    (flow : c.flow = .going (.vis (.session o) k)) (fault : Option E.Fault)
    (careful : o = .rollback → c.Joined) :
    ({ (c.call fault c.txn o).2 with flow := .going (k (c.call fault c.txn o).1) } :
      Crew E L ε α).Contains once := by
  have orderly := h.orderly
  unfold Orderly at orderly
  simp only [flow] at orderly
  obtain ⟨failed, joined, allowed, rest⟩ := orderly
  have joins : o = .commit ∨ o = .rollback → c.Joined := by
    rintro (rfl | rfl)
    · exact joined allowed
    · exact careful rfl
  have numbered : (c.call fault c.txn o).2.Numbered := by
    refine h.toNumbered.call (fun _ own => own) fun q same => ?_
    subst same
    have closed : c.store.active.isSome = false := allowed.1
    unfold txn
    rw [closed]
    rfl
  refine ⟨⟨numbered.log, numbered.ended⟩, fun t mem => ?_, ?_⟩
  · rcases h.tasks t mem with ended | ⟨⟨n, number, own⟩, confined⟩
    · exact Or.inl ended
    · by_cases ends : o = .commit ∨ o = .rollback
      · exact Or.inl (joins ends t mem)
      · refine Or.inr ⟨⟨n, ?_, own⟩, confined⟩
        rw [← number]
        have other := not_or.mp ends
        exact txn_call c.txn (txn_eq_some.mp number).1 other.1 other.2
  · generalize eq : (⟨c.store.active.isSome, failed⟩ : Stage).next once o
      (Store.serve fault o c.store).1 = stage
    have opened : ((⟨c.store.active.isSome, failed⟩ : Stage).next once o
        (Store.serve fault o c.store).1).opened = (Store.serve fault o c.store).2.active.isSome :=
      Store.serve_next once failed
    have answers := Store.serve_answers (s := c.store) (o := o) fault failed
    have goes := rest _ stage ⟨answers, eq.symm⟩
    obtain ⟨occupied, failed'⟩ := stage
    rw [eq] at opened
    have slot : occupied = (Store.serve fault o c.store).2.active.isSome := opened
    subst slot
    refine ⟨failed', fun forgets => ?_, goes⟩
    have forgotten := (congrArg Stage.failed eq).trans forgets
    rcases Stage.failed_of_next forgotten with before | ends
    · exact joined before
    · exact joins ends

/-- The main flow goes on, and rolls back only after its tasks. -/
theorem Contains.stepMain (h : c.Contains once) (fault : Option E.Fault)
    (careful : c.Careful (.main fault)) : (c.stepMain fault).Contains once := by
  have orderly := h.orderly
  unfold Orderly at orderly
  unfold Careful at careful
  unfold Crew.stepMain
  cases flow : c.flow with
  | going p =>
    cases p with
    | ret a => exact h
    | fail e => exact h
    | vis o k =>
      cases o with
      | session o =>
        refine h.mainCall flow fault fun same => careful ?_
        subst same
        rw [flow]
        rfl
      | get =>
        simp only [flow] at orderly
        obtain ⟨failed, joined, _, rest⟩ := orderly
        exact ⟨⟨h.log, h.ended⟩, h.tasks, failed, joined, rest _ _ rfl⟩
      | set x =>
        simp only [flow] at orderly
        obtain ⟨failed, joined, _, rest⟩ := orderly
        exact ⟨⟨h.log, h.ended⟩, h.tasks, failed, joined, rest _ _ rfl⟩
      | fork tasks =>
        simp only [flow] at orderly
        obtain ⟨failed, joined, ⟨stage, confined⟩, rest⟩ := orderly
        obtain ⟨opened, rfl⟩ := Stage.mk.inj stage
        refine ⟨⟨h.log, h.ended⟩, fun t mem => ?_, opened, fun i t found away => ?_, ?_, ?_⟩
        · rcases List.mem_append.mp mem with old | new
          · exact Or.inl (joined rfl t old)
          · obtain ⟨task, spawned, rfl⟩ := List.mem_map.mp new
            have number : c.txn = some c.begun := txn_eq_some.mpr ⟨opened, rfl⟩
            exact Or.inr ⟨⟨c.begun, number, number⟩, false, confined task spawned⟩
        · by_cases old : i < c.tasks.length
          · rw [List.getElem?_append_left old] at found
            exact joined rfl t (List.mem_of_getElem? found)
          · have short := (List.getElem?_eq_some_iff.mp found).1
            rw [List.length_append, List.length_map] at short
            exact absurd (List.mem_range'_1.mpr ⟨Nat.not_lt.mp old, short⟩) away
        · rw [← opened]
          exact rest (.ok ()) _ rfl
        · refine fun e => rest (.error e) _ ?_
          rw [opened]
          rfl
  | waiting places k =>
    simp only [flow] at orderly
    obtain ⟨opened, others, onOk, onError⟩ := orderly
    cases places with
    | nil =>
      refine ⟨⟨h.log, h.ended⟩, h.tasks, false, fun _ t mem => ?_, ?_⟩
      · obtain ⟨i, found⟩ := List.mem_iff_getElem?.mp mem
        exact others i t found List.not_mem_nil
      · rw [opened]
        exact onOk
    | cons place places =>
      cases found : c.tasks[place]? with
      | none =>
        simp only [found, Option.map_none]
        exact h
      | some t =>
        obtain ⟨owner, rest⟩ := t
        simp only [found, Option.map_some]
        cases rest with
        | ret a =>
          refine ⟨⟨h.log, h.ended⟩, h.tasks, opened, fun i t at_i away => ?_, onOk, onError⟩
          by_cases here : i = place
          · subst here
            rw [at_i] at found
            cases found
            trivial
          · exact others i t at_i (List.not_mem_cons_of_ne_of_not_mem here away)
        | fail e =>
          refine ⟨⟨h.log, h.ended⟩, h.tasks, true, fun quiet => ?_, ?_⟩
          · cases quiet
          show (k (.error e)).Holds (Client.orderly once E L ε) (fun _ _ => True)
            ⟨c.store.active.isSome, true⟩
          rw [opened]
          exact onError e
        | vis o k' => exact h

/-- **A careful schedule** keeps every program in its transaction. -/
theorem Contains.run (h : c.Contains once) {turns : List (Turn E)} (careful : c.CarefulRun turns) :
    (c.run turns).Contains once := by
  induction turns generalizing c with
  | nil => exact h
  | cons turn turns ih =>
    refine ih ?_ careful.2
    cases turn with
    | main fault => exact h.stepMain fault careful.1
    | task place fault => exact h.stepTask place fault

end Crew

end ChainGraph.Foundation

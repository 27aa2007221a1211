import ChainGraph.Foundation.Faults
import ChainGraph.Foundation.Outcomes

/-!
# Tasks that run beside the main flow

The reading of a client's program in which forked tasks interleave. A crew is the main flow of a
process, which runs or waits for tasks in order, and every task it has forked. Whose turn is next,
and whether the call made then fails, is up to the schedule. A wait that ends with the failure of
one task leaves the others running.

Transactions are numbered. The log has every statement that reached the database, with the
transaction its sender belongs to and the one it was executed in, and the end of every transaction.
-/

namespace ChainGraph.Foundation

/-- A call that fails if it can and is to, and is served otherwise. -/
def Store.serve {E : Engine} (fault : Option E.Fault) (o : Session.Op E) (s : Store E) :
    Session.Reply E o × Store E :=
  match fault with
  | none => Store.handle o s
  | some f => (Store.failed f o s).getD (Store.handle o s)

/-- What the log says of a call. A statement is its sender's (`owner`) and has a `place`; either may
be no transaction. -/
inductive Event (E : Engine) where
  | sent (q : E.Stmt) (owner place : Option ℕ)
  | ended (txn : ℕ)

/-- A task, and the transaction that was open when it was forked. -/
structure Forked (E : Engine) (ε : Type) where
  owner : Option ℕ
  rest : Task E ε

/-- The main flow runs, or waits for the tasks at some places in order. -/
inductive Flow (E : Engine) (L ε α : Type) where
  | going (p : Prog (Client E L ε) ε α)
  | waiting (places : List ℕ) (k : Except ε Unit → Prog (Client E L ε) ε α)

/-- The next call of the main flow is a rollback. -/
def Flow.rollsBack {E : Engine} {L ε α : Type} : Flow E L ε α → Bool
  | .going (.vis (.session .rollback) _) => true
  | _ => false

/-- The main flow and its tasks, the session and the local state, the number of the last
transaction, and the log. -/
structure Crew (E : Engine) (L ε α : Type) where
  store : Store E
  memory : L
  begun : ℕ
  flow : Flow E L ε α
  tasks : List (Forked E ε)
  log : List (Event E)

/-- Who goes on, and whether the call fails. -/
inductive Turn (E : Engine) where
  | main (fault : Option E.Fault)
  | task (place : ℕ) (fault : Option E.Fault)

namespace Forked

variable {E : Engine} {ε : Type}

/-- The task has returned or failed. -/
def Ended (t : Forked E ε) : Prop :=
  match t.rest with
  | .vis _ _ => False
  | _ => True

instance (t : Forked E ε) : Decidable t.Ended :=
  match t with
  | ⟨_, .vis _ _⟩ => isFalse id
  | ⟨_, .ret _⟩ => isTrue trivial
  | ⟨_, .fail _⟩ => isTrue trivial

end Forked

namespace Crew

variable {E : Engine} {L ε α : Type}

/-- A process that starts without a transaction. -/
def start (p : Prog (Client E L ε) ε α) (db : E.Db) (memory : L) : Crew E L ε α :=
  ⟨⟨db, none⟩, memory, 0, .going p, [], []⟩

/-- The number of the open transaction. -/
def txn (c : Crew E L ε α) : Option ℕ := if c.store.active.isSome then some c.begun else none

/-- What a call adds to the log. A statement for a transaction is not sent if there is none. -/
def events (c : Crew E L ε α) (owner : Option ℕ) : Session.Op E → List (Event E)
  | .txnRun q => (c.txn.map fun n => Event.sent q owner (some n)).toList
  | .autoRun q => [.sent q owner none]
  | .commit => (c.txn.map Event.ended).toList
  | .rollback => (c.txn.map Event.ended).toList
  | _ => []

/-- A call by the main flow or a task. -/
def call (c : Crew E L ε α) (fault : Option E.Fault) (owner : Option ℕ) (o : Session.Op E) :
    Session.Reply E o × Crew E L ε α :=
  let served := Store.serve fault o c.store
  (served.1, { c with
    store := served.2
    begun := if c.store.active.isNone ∧ served.2.active.isSome then c.begun + 1 else c.begun
    log := c.log ++ c.events owner o })

/-- The main flow goes on: with a call, or with the wait for the next task. -/
def stepMain (fault : Option E.Fault) (c : Crew E L ε α) : Crew E L ε α :=
  match c.flow with
  | .going (.vis (.session o) k) =>
    let called := c.call fault c.txn o
    { called.2 with flow := .going (k called.1) }
  | .going (.vis .get k) => { c with flow := .going (k c.memory) }
  | .going (.vis (.set x) k) => { c with memory := x, flow := .going (k ()) }
  | .going (.vis (.fork tasks) k) =>
    { c with
      flow := .waiting (List.range' c.tasks.length tasks.length) k
      tasks := c.tasks ++ tasks.map (⟨c.txn, ·⟩) }
  | .going _ => c
  | .waiting [] k => { c with flow := .going (k (.ok ())) }
  | .waiting (place :: places) k =>
    match (c.tasks[place]?).map Forked.rest with
    | some (.ret _) => { c with flow := .waiting places k }
    | some (.fail e) => { c with flow := .going (k (.error e)) }
    | _ => c

/-- A task makes its next call. -/
def stepTask (place : ℕ) (fault : Option E.Fault) (c : Crew E L ε α) : Crew E L ε α :=
  match c.tasks[place]? with
  | some ⟨owner, .vis o k⟩ =>
    let called := c.call fault owner o
    { called.2 with tasks := c.tasks.set place ⟨owner, k called.1⟩ }
  | _ => c

def step : Turn E → Crew E L ε α → Crew E L ε α
  | .main fault, c => c.stepMain fault
  | .task place fault, c => c.stepTask place fault

/-- The turns of a schedule, one after the other. -/
def run (turns : List (Turn E)) (c : Crew E L ε α) : Crew E L ε α :=
  turns.foldl (fun c turn => c.step turn) c

/-- Every task has ended. -/
def Joined (c : Crew E L ε α) : Prop := ∀ t ∈ c.tasks, t.Ended

instance (c : Crew E L ε α) : Decidable c.Joined :=
  inferInstanceAs (Decidable (∀ t ∈ c.tasks, t.Ended))

/-- If the turn is a rollback of the main flow, then every task has ended. -/
def Careful (c : Crew E L ε α) : Turn E → Prop
  | .main _ => c.flow.rollsBack → c.Joined
  | .task _ _ => True

instance (c : Crew E L ε α) (turn : Turn E) : Decidable (c.Careful turn) :=
  match turn with
  | .main _ => inferInstanceAs (Decidable (c.flow.rollsBack → c.Joined))
  | .task _ _ => isTrue trivial

/-- Every turn of a schedule is careful. -/
def CarefulRun (c : Crew E L ε α) : List (Turn E) → Prop
  | [] => True
  | turn :: turns => c.Careful turn ∧ (c.step turn).CarefulRun turns

/-- Whether every turn is careful can be computed. -/
def decideCarefulRun : (turns : List (Turn E)) → (c : Crew E L ε α) → Decidable (c.CarefulRun turns)
  | [], _ => isTrue trivial
  | turn :: turns, c =>
    have := decideCarefulRun turns (c.step turn)
    inferInstanceAs (Decidable (c.Careful turn ∧ (c.step turn).CarefulRun turns))

instance (c : Crew E L ε α) (turns : List (Turn E)) : Decidable (c.CarefulRun turns) :=
  decideCarefulRun turns c

end Crew

/-- What belongs to a transaction is executed in it, and nothing after it has ended. -/
def Contained {E : Engine} (log : List (Event E)) : Prop :=
  (∀ q n place, Event.sent q (some n) place ∈ log → place = some n) ∧
    log.Pairwise fun earlier later =>
      ∀ n q place, earlier = .ended n → later ≠ .sent q (some n) place

/-- The statement belongs to a transaction and was executed elsewhere. -/
def Event.escaped {E : Engine} : Event E → Bool
  | .sent _ (some n) place => place != some n
  | _ => false

theorem Contained.not_escaped {E : Engine} {log : List (Event E)} (h : Contained log) :
    log.any Event.escaped = false := by
  rw [List.any_eq_false]
  intro e mem
  cases e with
  | ended n => exact Bool.false_ne_true
  | sent q owner place =>
    cases owner with
    | none => exact Bool.false_ne_true
    | some n =>
      rw [h.1 q n place mem]
      simp [Event.escaped]

/-! ## What a call does with the slot and the log -/

section Contained

variable {E : Engine} {log : List (Event E)}

theorem Contained.ended {n : ℕ} (h : Contained log) : Contained (log ++ [.ended n]) := by
  refine ⟨fun q m place mem => ?_,
    List.pairwise_append.mpr ⟨h.2, List.pairwise_singleton _ _, ?_⟩⟩
  · rcases List.mem_append.mp mem with old | new
    · exact h.1 q m place old
    · cases List.mem_singleton.mp new
  · intro earlier _ later mem n q place _ same
    rw [List.mem_singleton.mp mem] at same
    cases same

/-- A statement in its sender's transaction, which has not ended. -/
theorem Contained.sent {q : E.Stmt} {owner place : Option ℕ} (h : Contained log)
    (here : ∀ n, owner = some n → place = some n ∧ Event.ended n ∉ log) :
    Contained (log ++ [.sent q owner place]) := by
  refine ⟨fun q' m place' mem => ?_,
    List.pairwise_append.mpr ⟨h.2, List.pairwise_singleton _ _, ?_⟩⟩
  · rcases List.mem_append.mp mem with old | new
    · exact h.1 q' m place' old
    · cases List.mem_singleton.mp new
      exact (here m rfl).1
  · intro earlier mem later new n q' place' closed same
    rw [List.mem_singleton.mp new] at same
    cases same
    exact (here n rfl).2 (closed ▸ mem)

end Contained

namespace Store

variable {E : Engine} {s : Store E} {o : Session.Op E} {fault : Option E.Fault}

variable (fault) in
/-- Only its end closes a transaction. -/
theorem serve_opened (opened : s.active.isSome) (commit : o ≠ .commit) (rollback : o ≠ .rollback) :
    (serve fault o s).2.active.isSome := by
  obtain ⟨db, active⟩ := s
  cases active with
  | none => cases opened
  | some view =>
    cases o with
    | txnRun q =>
      cases fault with
      | none =>
        show (handle (.txnRun q) ⟨db, some view⟩).2.active.isSome
        cases step : E.exec q view with
        | error f => simp [handle_txnRun_error step]
        | ok view' => simp [handle_txnRun_ok step]
      | some f => rfl
    | autoRun q =>
      cases fault with
      | none =>
        show (handle (.autoRun q) ⟨db, some view⟩).2.active.isSome
        cases step : E.exec q db with
        | error f => simp [handle_autoRun_error (s := ⟨db, some view⟩) step]
        | ok db' => simp [handle_autoRun_ok (s := ⟨db, some view⟩) step]
      | some f => rfl
    | commit => exact absurd rfl commit
    | rollback => exact absurd rfl rollback
    | _ => cases fault <;> rfl

/-- A statement outside a transaction does not open one. -/
theorem serve_closed (closed : s.active = none) (begin : o ≠ .begin) :
    (serve fault o s).2.active = none := by
  obtain ⟨db, active⟩ := s
  subst closed
  cases o with
  | autoRun q =>
    cases fault with
    | none =>
      show (handle (.autoRun q) ⟨db, none⟩).2.active = none
      cases step : E.exec q db with
      | error f => simp [handle_autoRun_error (s := ⟨db, none⟩) step]
      | ok db' => simp [handle_autoRun_ok (s := ⟨db, none⟩) step]
    | some f => rfl
  | begin => exact absurd rfl begin
  | _ => cases fault <;> rfl

variable (fault) in
/-- A transaction that ends is closed, whether or not its end succeeds. -/
theorem serve_ended (ends : o = .commit ∨ o = .rollback) : (serve fault o s).2.active = none := by
  obtain ⟨db, active⟩ := s
  rcases ends with rfl | rfl <;> cases active <;> cases fault <;> rfl

theorem serve_txnRun {q : E.Stmt} {b : Bool} (answer : (serve fault (.txnRun q) s).1 = .ok b) :
    b = s.active.isSome := by
  obtain ⟨db, active⟩ := s
  cases active with
  | none => cases fault <;> · cases answer; rfl
  | some view =>
    cases fault with
    | none =>
      change (handle (.txnRun q) ⟨db, some view⟩).1 = .ok b at answer
      cases step : E.exec q view with
      | error f => simp [handle_txnRun_error step] at answer
      | ok view' => simpa [handle_txnRun_ok step, eq_comm] using answer
    | some f => cases answer

/-- The other calls leave the slot as it is. -/
theorem serve_same (begin : o ≠ .begin) (commit : o ≠ .commit) (rollback : o ≠ .rollback) :
    (serve fault o s).2.active.isSome = s.active.isSome := by
  cases slot : s.active with
  | none => rw [serve_closed slot begin]
  | some view =>
    refine serve_opened fault ?_ commit rollback
    rw [slot]
    rfl

end Store

namespace Crew

variable {E : Engine} {L ε α : Type} {c : Crew E L ε α}

theorem txn_eq_some {n : ℕ} : c.txn = some n ↔ c.store.active.isSome ∧ c.begun = n := by
  unfold txn
  split
  · rename_i opened
    simp [opened]
  · rename_i closed
    simp [closed]

/-- While a transaction stays open, its number does not change. -/
theorem txn_call {fault : Option E.Fault} (owner : Option ℕ) {o : Session.Op E}
    (opened : c.store.active.isSome) (commit : o ≠ .commit) (rollback : o ≠ .rollback) :
    (c.call fault owner o).2.txn = c.txn := by
  have stays := Store.serve_opened fault opened commit rollback
  obtain ⟨view, slot⟩ := Option.isSome_iff_exists.mp opened
  unfold txn call
  simp [stays, slot]

/-- The log is contained, and a transaction in it that has ended is not the open one. -/
structure Numbered (c : Crew E L ε α) : Prop where
  log : Contained c.log
  ended : ∀ n, .ended n ∈ c.log → n ≤ c.begun ∧ c.txn ≠ some n

/-- The numbers of new transactions are new. -/
theorem begun_call {fault : Option E.Fault} {owner : Option ℕ} {o : Session.Op E} {n : ℕ}
    (le : n ≤ c.begun) (other : c.txn ≠ some n) :
    n ≤ (c.call fault owner o).2.begun ∧ (c.call fault owner o).2.txn ≠ some n := by
  rw [Ne, txn_eq_some] at other ⊢
  unfold call
  dsimp only
  split
  · omega
  · rename_i same
    refine ⟨le, fun ⟨opened, number⟩ => same ⟨?_, opened⟩⟩
    cases slot : c.store.active with
    | none => rfl
    | some view => exact absurd ⟨by rw [slot]; rfl, number⟩ other

theorem Numbered.call {fault : Option E.Fault} {owner : Option ℕ} {o : Session.Op E}
    (h : c.Numbered) (place : ∀ n, owner = some n → c.txn = some n)
    (direct : ∀ q, o = .autoRun q → owner = none) : (c.call fault owner o).2.Numbered := by
  have old : ∀ n, .ended n ∈ c.log →
      n ≤ (c.call fault owner o).2.begun ∧ (c.call fault owner o).2.txn ≠ some n :=
    fun n mem => begun_call (h.ended n mem).1 (h.ended n mem).2
  have quiet : c.events owner o = [] → (c.call fault owner o).2.Numbered := by
    intro none
    have same : (c.call fault owner o).2.log = c.log := by
      show c.log ++ c.events owner o = c.log
      rw [none, List.append_nil]
    exact ⟨same ▸ h.log, same ▸ old⟩
  have sent : ∀ q place', c.events owner o = [.sent q owner place'] →
      (∀ n, owner = some n → place' = some n) → (c.call fault owner o).2.Numbered := by
    intro q place' one here
    have log : (c.call fault owner o).2.log = c.log ++ [.sent q owner place'] := by
      show c.log ++ c.events owner o = _
      rw [one]
    refine ⟨?_, fun n mem => ?_⟩
    · rw [log]
      exact h.log.sent fun n own => ⟨here n own, fun mem => (h.ended n mem).2 (place n own)⟩
    · rw [log] at mem
      rcases List.mem_append.mp mem with before | new
      · exact old n before
      · cases List.mem_singleton.mp new
  have ended : c.events owner o = (c.txn.map Event.ended).toList →
      o = .commit ∨ o = .rollback → (c.call fault owner o).2.Numbered := by
    intro entry ends
    cases number : c.txn with
    | none => exact quiet (by rw [entry, number]; rfl)
    | some n =>
      have log : (c.call fault owner o).2.log = c.log ++ [.ended n] := by
        show c.log ++ c.events owner o = _
        rw [entry, number]
        rfl
      refine ⟨by rw [log]; exact h.log.ended, fun m mem => ?_⟩
      rw [log] at mem
      rcases List.mem_append.mp mem with before | new
      · exact old m before
      · cases List.mem_singleton.mp new
        obtain ⟨opened, rfl⟩ := txn_eq_some.mp number
        have closed := Store.serve_ended (s := c.store) fault ends
        unfold Crew.call txn
        simp [closed]
  cases o with
  | txnRun q =>
    cases number : c.txn with
    | none =>
      refine quiet ?_
      unfold events
      rw [number]
      rfl
    | some n =>
      refine sent q (some n) ?_ fun m own => ?_
      · unfold events
        rw [number]
        rfl
      · rw [← number]
        exact place m own
  | autoRun q =>
    refine sent q none rfl fun n own => ?_
    rw [direct q rfl] at own
    cases own
  | commit => exact ended rfl (Or.inl rfl)
  | rollback => exact ended rfl (Or.inr rfl)
  | read => exact quiet rfl
  | inTxn => exact quiet rfl
  | begin => exact quiet rfl

end Crew

end ChainGraph.Foundation

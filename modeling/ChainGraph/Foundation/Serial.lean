import ChainGraph.Foundation.Orderly
import Mathlib.Data.List.Basic
import Mathlib.Data.List.Forall2

/-!
# Interleaved tasks as one task after the other

Tasks that send fixed statements in a transaction, where statements of different tasks commute,
leave in every order what they leave one after the other. So what a crew has committed is what the
same program, served by a live database call by call, has committed at some moment. Failing calls
only decide at which.
-/

namespace ChainGraph.Foundation

namespace Prog

variable {I : Interface} {ε α σ : Type} {h : Handler I σ}

/-- One more call. -/
theorem after_succ {n : ℕ} {p : Prog I ε α} {s t : σ} {o : I.Op} {k : I.Reply o → Prog I ε α}
    (left : p.after h n s = (vis o k, t)) :
    p.after h (n + 1) s = (k (h o t).1, (h o t).2) := by
  induction n generalizing p s with
  | zero =>
    cases p with
    | vis o' k' =>
      cases left
      show after h 0 (k (h o t).1) (h o t).2 = _
      cases k (h o t).1 <;> rfl
    | _ => cases left
  | succ n ih =>
    cases p with
    | vis o' k' => exact ih left
    | _ => cases left

/-- A run gets to a program in a state. -/
def Reaches (h : Handler I σ) (p : Prog I ε α) (s : σ) (q : Prog I ε α) (t : σ) : Prop :=
  ∃ n, p.after h n s = (q, t)

theorem Reaches.refl (p : Prog I ε α) (s : σ) : Reaches h p s p s :=
  ⟨0, by cases p <;> rfl⟩

theorem Reaches.call {p : Prog I ε α} {s t : σ} {o : I.Op} {k : I.Reply o → Prog I ε α}
    (reaches : Reaches h p s (vis o k) t) : Reaches h p s (k (h o t).1) (h o t).2 := by
  obtain ⟨n, left⟩ := reaches
  exact ⟨n + 1, after_succ left⟩

/-- A run that gets to the end. -/
theorem Reaches.ret {p : Prog I ε α} {s t : σ} {a : α} (reaches : Reaches h p s (ret a) t) :
    p.run h s = (.ok a, t) := by
  obtain ⟨n, left⟩ := reaches
  induction n generalizing p s with
  | zero =>
    cases p <;> cases left
    rfl
  | succ n ih =>
    cases p with
    | vis o k => exact ih (p := k (h o s).1) (s := (h o s).2) left
    | ret b =>
      cases left
      rfl
    | fail e => cases left

theorem Reaches.crash {p q : Prog I ε α} {s t : σ} (reaches : Reaches h p s q t) :
    ∃ n, p.crash h n s = t := by
  obtain ⟨n, left⟩ := reaches
  exact ⟨n, by rw [← after_snd, left]⟩

end Prog

namespace Store

variable {E : Engine} {ε : Type}

/-- The order of two statements does not matter. -/
def Swaps (q r : E.Stmt) : Prop := ∀ db, execAll E [q, r] db = execAll E [r, q] db

/-- A statement that commutes with those before it may come first. -/
theorem execAll_past {q : E.Stmt} {qs rs : List E.Stmt} (commute : ∀ r ∈ qs, Swaps r q)
    (db : E.Db) : execAll E (qs ++ q :: rs) db = execAll E (q :: (qs ++ rs)) db := by
  induction qs generalizing db with
  | nil => rfl
  | cons r qs ih =>
    have others := ih fun r mem => commute r (List.mem_cons_of_mem _ mem)
    have later : execAll E (r :: (qs ++ q :: rs)) db = execAll E (r :: q :: (qs ++ rs)) db := by
      rw [execAll_cons, execAll_cons, funext others]
    have swap : execAll E ([r, q] ++ (qs ++ rs)) db = execAll E ([q, r] ++ (qs ++ rs)) db := by
      rw [execAll_append, execAll_append, commute r List.mem_cons_self db]
    exact later.trans swap

/-- In a transaction the task sends the statements in order, and stops at the first error. -/
inductive Queue : Task E ε → List E.Stmt → Prop where
  | done : Queue (.ret ()) []
  | inTxn {k : Bool → Task E ε} {qs : List E.Stmt} (next : Queue (k true) qs) :
      Queue (.vis .inTxn k) qs
  | txnRun {q : E.Stmt} {k : Except E.Fault Bool → Task E ε} {qs : List E.Stmt}
      (next : Queue (k (.ok true)) qs) (stops : ∀ f, ∃ e, k (.error f) = .fail e) :
      Queue (.vis (.txnRun q) k) (q :: qs)

namespace Queue

variable {t u : Prog (Session E) ε Unit} {qs rs : List E.Stmt}

theorem seq (first : Queue t qs) (rest : Queue u rs) :
    Queue (t >>= fun _ => u : Prog (Session E) ε Unit) (qs ++ rs) := by
  induction first with
  | done => exact rest
  | inTxn _ ih => exact .inTxn ih
  | txnRun _ stops ih =>
    refine .txnRun ih fun f => ?_
    obtain ⟨e, stop⟩ := stops f
    exact ⟨e, by rw [stop]; rfl⟩

/-- What it leaves when it is served alone. -/
theorem within (queue : Queue t qs) : Within t qs := by
  induction queue with
  | done => exact .done
  | inTxn _ ih => exact ⟨fun ok => ih.ok ok, fun error => ih.error error⟩
  | @txnRun q k qs _ stops ih =>
    refine ⟨fun {db view view'} ok => ?_, fun {d view f} error => ?_⟩
    · obtain ⟨mid, step, later⟩ := execAll_cons_eq_ok.mp ok
      show (k _).run handle _ = _
      rw [handle_txnRun_ok step]
      exact ih.ok later
    · show ∃ e view', (k _).run handle _ = _
      cases step : E.exec q view with
      | error f' =>
        rw [handle_txnRun_error step]
        obtain ⟨e, stop⟩ := stops f'
        exact ⟨e, view, by rw [stop]; rfl⟩
      | ok mid =>
        rw [handle_txnRun_ok step]
        rw [execAll_cons, step] at error
        exact ih.error error

/-- Its statements are among those it could send. -/
theorem sends {P : E.Stmt → Prop} (queue : Queue t qs) (all : t.Always (Session.Op.Sends P)) :
    ∀ q ∈ qs, P q := by
  induction queue with
  | done => exact fun q mem => (List.not_mem_nil mem).elim
  | inTxn _ ih => exact ih (all.2 true)
  | txnRun _ _ ih =>
    intro q mem
    rcases List.mem_cons.mp mem with rfl | later
    · exact all.1
    · exact ih (all.2 (.ok true)) q later

end Queue

/-- Tasks that may run in any order: in every database their statements are accepted one task after
the other, and statements of two of them commute. -/
def Serial (tasks : List (Task E ε)) : Prop :=
  ∃ qss, List.Forall₂ Queue tasks qss ∧
    qss.Pairwise (fun qs rs => ∀ q ∈ qs, ∀ r ∈ rs, Swaps q r) ∧
    ∀ db, ∃ db', execAll E qss.flatten db = .ok db'

end Store

/-! ## What waiting tasks still owe -/

/-- The tasks at the places have queues of statements that commute with each other's, and lead from
the view to the target one after the other. -/
structure Owing {E : Engine} {ε : Type} (tasks : List (Forked E ε)) (places : List ℕ)
    (queues : ℕ → List E.Stmt) (view target : E.Db) : Prop where
  nodup : places.Nodup
  queue : ∀ i ∈ places, ∃ t, tasks[i]? = some t ∧ Store.Queue t.rest (queues i)
  commute : ∀ i ∈ places, ∀ j ∈ places, i ≠ j →
    ∀ q ∈ queues i, ∀ r ∈ queues j, Store.Swaps q r
  leads : Store.execAll E (places.flatMap queues) view = .ok target

namespace Owing

open Store

variable {E : Engine} {ε : Type} {tasks : List (Forked E ε)} {places : List ℕ}
  {queues : ℕ → List E.Stmt} {view target : E.Db} {i : ℕ} {owner : Option ℕ}

/-- Reading a list place by place, from a first place on. -/
theorem flatMap_range' {α : Type} (first : ℕ) (l : List (List α)) :
    (List.range' first l.length).flatMap (fun i => l[i - first]?.getD []) = l.flatten := by
  rw [List.range'_eq_map_range, List.flatMap_map, List.flatMap_def]
  congr 1
  refine List.ext_getElem? fun i => ?_
  rw [List.getElem?_map]
  by_cases inside : i < l.length
  · rw [List.getElem?_range inside, List.getElem?_eq_getElem inside]
    simp [inside]
  · rw [List.getElem?_eq_none (by simpa using inside),
      List.getElem?_eq_none (by simpa using inside)]
    rfl

/-- Forked tasks owe everything. -/
theorem forked {forked : List (Task E ε)} {qss : List (List E.Stmt)}
    (each : List.Forall₂ Queue forked qss)
    (apart : qss.Pairwise fun qs rs => ∀ q ∈ qs, ∀ r ∈ rs, Swaps q r)
    (leads : execAll E qss.flatten view = .ok target) :
    Owing (tasks ++ forked.map (⟨owner, ·⟩)) (List.range' tasks.length forked.length)
      (fun i => qss[i - tasks.length]?.getD []) view target := by
  obtain ⟨length, each⟩ := List.forall₂_iff_get.mp each
  have place : ∀ i ∈ List.range' tasks.length forked.length,
      ∃ j, ∃ inside : j < forked.length, ∃ inside' : j < qss.length, i = tasks.length + j ∧
        qss[i - tasks.length]?.getD [] = qss[j] := by
    intro i mem
    obtain ⟨low, high⟩ := List.mem_range'_1.mp mem
    refine ⟨i - tasks.length, by omega, by omega, by omega, ?_⟩
    rw [List.getElem?_eq_getElem (by omega), Option.getD_some]
  refine ⟨List.nodup_range', fun i mem => ?_, fun i mem i' mem' other => ?_, ?_⟩
  · obtain ⟨j, inside, inside', rfl, same⟩ := place i mem
    refine ⟨⟨owner, forked.get ⟨j, inside⟩⟩, ?_, ?_⟩
    · rw [List.getElem?_append_right (Nat.le_add_right ..), Nat.add_sub_cancel_left,
        List.getElem?_map, List.getElem?_eq_getElem inside]
      rfl
    · rw [same]
      exact each j inside inside'
  · obtain ⟨j, _, inside, rfl, same⟩ := place i mem
    obtain ⟨j', _, inside', rfl, same'⟩ := place i' mem'
    rw [same, same']
    have commute := List.pairwise_iff_getElem.mp apart
    rcases Nat.lt_or_gt_of_ne fun eq => other (congrArg (tasks.length + ·) eq) with lt | gt
    · exact commute j j' inside inside' lt
    · exact fun q mem r mem' db => (commute j' j inside' inside gt r mem' q mem db).symm
  · rw [length, flatMap_range']
    exact leads

theorem finished (owing : Owing tasks [] queues view target) : view = target := by
  cases owing.leads
  rfl

/-- A task that has returned owes nothing. -/
theorem returned (owing : Owing tasks (i :: places) queues view target)
    (found : tasks[i]? = some ⟨owner, .ret ()⟩) : Owing tasks places queues view target := by
  obtain ⟨t, at_i, queue⟩ := owing.queue i List.mem_cons_self
  rw [found] at at_i
  cases at_i
  refine ⟨(List.nodup_cons.mp owing.nodup).2,
    fun j mem => owing.queue j (List.mem_cons_of_mem _ mem),
    fun j mem k mem' => owing.commute j (List.mem_cons_of_mem _ mem) k
      (List.mem_cons_of_mem _ mem'), ?_⟩
  have leads := owing.leads
  rw [List.flatMap_cons] at leads
  generalize queues i = qs at leads queue
  cases queue
  exact leads

/-- No task has failed. -/
theorem not_failed (owing : Owing tasks places queues view target) (mem : i ∈ places) {e : ε}
    (found : tasks[i]? = some ⟨owner, .fail e⟩) : False := by
  obtain ⟨t, at_i, queue⟩ := owing.queue i mem
  rw [found] at at_i
  cases at_i
  generalize queues i = qs at queue
  cases queue

/-- A task that asks whether a transaction is open is told that one is. -/
theorem asked (owing : Owing tasks places queues view target)
    {k : Bool → Task E ε} (found : tasks[i]? = some ⟨owner, .vis .inTxn k⟩) :
    Owing (tasks.set i ⟨owner, k true⟩) places queues view target := by
  refine ⟨owing.nodup, fun j inside => ?_, owing.commute, owing.leads⟩
  obtain ⟨t, at_j, queue⟩ := owing.queue j inside
  by_cases same : i = j
  · subst same
    rw [found] at at_j
    cases at_j
    refine ⟨_, List.getElem?_set_self (List.getElem?_eq_some_iff.mp found).1, ?_⟩
    generalize queues i = qs at queue ⊢
    cases queue with
    | inTxn next => exact next
  · exact ⟨t, by rw [List.getElem?_set_ne same]; exact at_j, queue⟩

/-- A task that sends a statement finds it accepted, whatever the others have sent. -/
theorem sent (owing : Owing tasks places queues view target) (mem : i ∈ places) {q : E.Stmt}
    {k : Except E.Fault Bool → Task E ε}
    (found : tasks[i]? = some ⟨owner, .vis (.txnRun q) k⟩) :
    (∀ f, ∃ e, k (.error f) = .fail e) ∧ ∃ qs view', E.exec q view = .ok view' ∧
      Owing (tasks.set i ⟨owner, k (.ok true)⟩) places (Function.update queues i qs) view'
        target := by
  obtain ⟨t, at_i, queue⟩ := owing.queue i mem
  rw [found] at at_i
  cases at_i
  obtain ⟨all, eq⟩ : ∃ all, queues i = all := ⟨_, rfl⟩
  rw [eq] at queue
  cases queue with
  | @txnRun _ _ qs next stops =>
    obtain ⟨l, r, rfl⟩ := List.append_of_mem mem
    have distinct := List.nodup_append.mp owing.nodup
    have before : i ∉ l := fun inside => distinct.2.2 i inside i List.mem_cons_self rfl
    have after : i ∉ r := (List.nodup_cons.mp distinct.2.1).1
    have leads := owing.leads
    rw [List.flatMap_append, List.flatMap_cons, eq, List.cons_append, execAll_past] at leads
    · obtain ⟨view', accepted, rest⟩ := execAll_cons_eq_ok.mp leads
      refine ⟨stops, qs, view', accepted, owing.nodup, fun j inside => ?_, ?_, ?_⟩
      · by_cases same : i = j
        · subst same
          refine ⟨_, List.getElem?_set_self (List.getElem?_eq_some_iff.mp found).1, ?_⟩
          rw [Function.update_self]
          exact next
        · obtain ⟨t, at_j, queue⟩ := owing.queue j inside
          refine ⟨t, by rw [List.getElem?_set_ne same]; exact at_j, ?_⟩
          rw [Function.update_of_ne (Ne.symm same)]
          exact queue
      · have among : ∀ j q', q' ∈ Function.update queues i qs j → q' ∈ queues j := by
          intro j q' inside
          by_cases same : j = i
          · subst same
            rw [Function.update_self] at inside
            rw [eq]
            exact List.mem_cons_of_mem _ inside
          · rwa [Function.update_of_ne same] at inside
        intro j inside j' inside' other q' mem r' mem'
        exact owing.commute j inside j' inside' other q' (among j q' mem) r' (among j' r' mem')
      · have others : ∀ {places : List ℕ}, i ∉ places →
            places.flatMap (Function.update queues i qs) = places.flatMap queues := by
          intro places away
          refine List.flatMap_congr fun j inside => ?_
          rw [Function.update_of_ne]
          rintro rfl
          exact away inside
        rw [List.flatMap_append, List.flatMap_cons, others before, others after,
          Function.update_self]
        exact rest
    · intro r' inside
      obtain ⟨j, mem', inside⟩ := List.mem_flatMap.mp inside
      refine owing.commute j (List.mem_append_left _ mem') i mem ?_ r' inside q ?_
      · rintro rfl
        exact before mem'
      · rw [eq]
        exact List.mem_cons_self

end Owing

/-! ## A crew in step with a run -/

/-- Forked tasks may run in any order. -/
def Client.Op.Serial {E : Engine} {L ε : Type} : Client.Op E L ε → Prop
  | .fork tasks => Store.Serial tasks
  | _ => True

namespace Store

variable {E : Engine} {s : Store E} {o : Session.Op E} {fault : Option E.Fault}

variable (fault) in
/-- Only a direct statement and a commit change the database. -/
theorem serve_committed (direct : ∀ q, o ≠ .autoRun q) (commit : o ≠ .commit) :
    (serve fault o s).2.committed = s.committed := by
  obtain ⟨db, active⟩ := s
  cases o with
  | autoRun q => exact absurd rfl (direct q)
  | commit => exact absurd rfl commit
  | txnRun q =>
    cases active with
    | none => cases fault <;> rfl
    | some view =>
      cases fault with
      | none =>
        show (handle (.txnRun q) ⟨db, some view⟩).2.committed = db
        cases step : E.exec q view with
        | error f => rw [handle_txnRun_error step]
        | ok view' => rw [handle_txnRun_ok step]
      | some f => rfl
  | read => cases fault <;> rfl
  | inTxn => cases fault <;> rfl
  | begin => cases active <;> cases fault <;> rfl
  | rollback => cases active <;> cases fault <;> rfl

/-- A call fails without an effect on the database, or it is served. -/
theorem serve_cases (fault : Option E.Fault) (o : Session.Op E) (s : Store E) :
    serve fault o s = handle o s ∨
      ((serve fault o s).2.committed = s.committed ∧ ∀ failed : Bool,
        ((⟨s.active.isSome, failed⟩ : Stage).next true o (serve fault o s).1).failed = true) := by
  cases fault with
  | none => exact Or.inl rfl
  | some f =>
    obtain ⟨db, active⟩ := s
    cases o <;> cases active <;>
      first
        | exact Or.inl rfl
        | exact Or.inr ⟨rfl, fun failed => by cases failed <;> rfl⟩

end Store

namespace Crew

variable {E : Engine} {L ε α : Type} {p₀ : Prog (Client E L ε) ε α} {w₀ : World E L}
  {c : Crew E L ε α} {post : Except ε α → Stage → Prop}

/-- At some moment of the run this database was committed. -/
def Past (p₀ : Prog (Client E L ε) ε α) (w₀ : World E L) (db : E.Db) : Prop :=
  ∃ n, (p₀.crash World.handle n w₀).store.committed = db

theorem Past.of_reaches {p : Prog (Client E L ε) ε α} {w : World E L}
    (reaches : p₀.Reaches World.handle w₀ p w) : Past p₀ w₀ w.store.committed := by
  obtain ⟨n, same⟩ := reaches.crash
  exact ⟨n, by rw [same]⟩

/-- The main flow is where a run of the program gets to, or something has failed and the database is
that of a moment past. While it waits, the run gets to the fork, and the tasks owe what is left of
their statements, unless one that is waited for has failed. -/
def InStep (post : Except ε α → Stage → Prop) (p₀ : Prog (Client E L ε) ε α) (w₀ : World E L)
    (c : Crew E L ε α) : Prop :=
  match c.flow with
  | .going p => p.Always Client.Op.Serial ∧
      ((c.Joined ∧ p₀.Reaches World.handle w₀ p ⟨c.store, c.memory⟩ ∧
          p.Holds (Client.orderly true E L ε) post ⟨c.store.active.isSome, false⟩) ∨
        (Past p₀ w₀ c.store.committed ∧
          p.Holds (Client.orderly true E L ε) post ⟨c.store.active.isSome, true⟩))
  | .waiting places k => (∀ r, (k r).Always Client.Op.Serial) ∧
      (k (.ok ())).Holds (Client.orderly true E L ε) post ⟨true, false⟩ ∧
      (∀ e, (k (.error e)).Holds (Client.orderly true E L ε) post ⟨true, true⟩) ∧
      (∀ i t, c.tasks[i]? = some t → i ∉ places → t.Ended) ∧
      ∃ forked view target,
        p₀.Reaches World.handle w₀ (.vis (.fork forked) k)
          ⟨⟨c.store.committed, some view⟩, c.memory⟩ ∧
        World.runTasks forked ⟨c.store.committed, some view⟩ =
          (.ok (), ⟨c.store.committed, some target⟩) ∧
        ((∃ queues view', c.store.active = some view' ∧
            Owing c.tasks places queues view' target) ∨
          (c.store.active.isSome ∧
            ∃ i ∈ places, ∃ owner e, c.tasks[i]? = some ⟨owner, .fail e⟩))

theorem InStep.past (h : c.InStep post p₀ w₀) : Past p₀ w₀ c.store.committed := by
  unfold InStep at h
  split at h
  · rcases h.2 with ⟨_, reaches, _⟩ | ⟨past, _⟩
    · exact .of_reaches reaches
    · exact past
  · obtain ⟨_, _, _, _, forked, view, target, reaches, _⟩ := h
    exact .of_reaches reaches

/-- A task that goes on owes less, or has failed. -/
theorem owes_step {tasks : List (Forked E ε)} {places : List ℕ} {store : Store E} {target : E.Db}
    {place : ℕ} {owner : Option ℕ} {o : Session.Op E} {k : Session.Reply E o → Task E ε}
    {fault : Option E.Fault} (waited : place ∈ places)
    (found : tasks[place]? = some ⟨owner, .vis o k⟩)
    (stays : (Store.serve fault o store).2.active.isSome)
    (owes : (∃ queues view, store.active = some view ∧ Owing tasks places queues view target) ∨
      (store.active.isSome ∧ ∃ i ∈ places, ∃ owner e, tasks[i]? = some ⟨owner, .fail e⟩)) :
    (∃ queues view, (Store.serve fault o store).2.active = some view ∧
        Owing (tasks.set place ⟨owner, k (Store.serve fault o store).1⟩) places queues view
          target) ∨
      ((Store.serve fault o store).2.active.isSome ∧ ∃ i ∈ places, ∃ owner' e,
        (tasks.set place ⟨owner, k (Store.serve fault o store).1⟩)[i]? =
          some ⟨owner', .fail e⟩) := by
  have here := (List.getElem?_eq_some_iff.mp found).1
  rcases owes with ⟨queues, view, slot, owing⟩ | ⟨_, i, mem, owner', e, failed⟩
  · obtain ⟨db, active⟩ := store
    cases slot
    obtain ⟨t, at_place, queue⟩ := owing.queue place waited
    rw [found] at at_place
    cases at_place
    generalize queues place = qs at queue
    cases queue with
    | inTxn _ =>
      have served : Store.serve fault .inTxn ⟨db, some view⟩ = (true, ⟨db, some view⟩) := by
        cases fault <;> rfl
      rw [served]
      exact Or.inl ⟨queues, view, rfl, owing.asked found⟩
    | @txnRun q _ _ _ _ =>
      obtain ⟨stops, qs, view', accepted, rest⟩ := owing.sent waited found
      cases fault with
      | none =>
        have served : Store.serve none (.txnRun q) ⟨db, some view⟩ =
            (.ok true, ⟨db, some view'⟩) := Store.handle_txnRun_ok accepted
        rw [served]
        exact Or.inl ⟨_, view', rfl, rest⟩
      | some f =>
        obtain ⟨e, stop⟩ := stops f
        refine Or.inr ⟨stays, place, waited, owner, e, ?_⟩
        rw [List.getElem?_set_self here]
        exact congrArg (fun rest => some (Forked.mk owner rest)) stop
  · refine Or.inr ⟨stays, i, mem, owner', e, ?_⟩
    rw [List.getElem?_set_ne, failed]
    rintro rfl
    rw [found] at failed
    cases failed

/-- A task goes on. -/
theorem InStep.stepTask (h : c.InStep post p₀ w₀) (contains : c.Contains true) (place : ℕ)
    (fault : Option E.Fault) : (c.stepTask place fault).InStep post p₀ w₀ := by
  unfold Crew.stepTask
  split
  case h_2 => exact h
  rename_i owner o k found
  obtain ended | ⟨⟨n, number, _⟩, failed, allowed, _⟩ :=
    contains.tasks _ (List.mem_of_getElem? found)
  · exact ended.elim
  have opened := (txn_eq_some.mp number).1
  have running : ¬ (⟨owner, .vis o k⟩ : Forked E ε).Ended := id
  have committed : (Store.serve fault o c.store).2.committed = c.store.committed := by
    refine Store.serve_committed fault (fun q same => ?_) fun same => ?_
    · subst same
      exact allowed
    · subst same
      exact allowed
  have stays : (Store.serve fault o c.store).2.active.isSome := by
    refine Store.serve_opened fault opened (fun same => ?_) fun same => ?_
    · subst same
      exact allowed
    · subst same
      exact allowed
  unfold InStep at h ⊢
  dsimp only
  have flow : (c.call fault owner o).2.flow = c.flow := rfl
  have store : (c.call fault owner o).2.store = (Store.serve fault o c.store).2 := rfl
  rw [flow, store]
  cases shape : c.flow with
  | going p =>
    simp only [shape] at h
    obtain ⟨serial, ⟨joined, _⟩ | ⟨past, holds⟩⟩ := h
    · exact absurd (joined _ (List.mem_of_getElem? found)) running
    · refine ⟨serial, Or.inr ⟨committed ▸ past, ?_⟩⟩
      rw [stays]
      rw [opened] at holds
      exact holds
  | waiting places k' =>
    simp only [shape] at h
    obtain ⟨serial, onOk, onError, others, forked, view, target, reaches, ran, owes⟩ := h
    have waited : place ∈ places := by
      by_contra away
      exact running (others place _ found away)
    refine ⟨serial, onOk, onError, fun i t at_i away => ?_, forked, view, target, ?_, ?_, ?_⟩
    · rw [List.getElem?_set] at at_i
      split at at_i
      · rename_i same
        subst same
        exact absurd waited away
      · exact others i t at_i away
    · rw [committed]
      exact reaches
    · rw [committed]
      exact ran
    · exact owes_step waited found stays owes

/-- The main flow makes a call. -/
theorem InStep.mainCall {o : Session.Op E} {k : Session.Reply E o → Prog (Client E L ε) ε α}
    (h : c.InStep post p₀ w₀) (flow : c.flow = .going (.vis (.session o) k))
    (fault : Option E.Fault) :
    ({ (c.call fault c.txn o).2 with flow := .going (k (c.call fault c.txn o).1) } :
      Crew E L ε α).InStep post p₀ w₀ := by
  unfold InStep at h ⊢
  simp only [flow] at h
  obtain ⟨⟨_, serial⟩, inStep⟩ := h
  refine ⟨serial _, ?_⟩
  show (c.Joined ∧ p₀.Reaches World.handle w₀ (k (Store.serve fault o c.store).1)
      ⟨(Store.serve fault o c.store).2, c.memory⟩ ∧ _) ∨
    (Past p₀ w₀ (Store.serve fault o c.store).2.committed ∧ _)
  -- the stage after the call, as the program knows it
  have stage : ∀ failed,
      (∀ r s', (Client.orderly true E L ε).serves (.session o)
          ⟨c.store.active.isSome, failed⟩ r s' →
        (k r).Holds (Client.orderly true E L ε) post s') →
      (k (Store.serve fault o c.store).1).Holds (Client.orderly true E L ε) post
        ⟨(Store.serve fault o c.store).2.active.isSome,
          ((⟨c.store.active.isSome, failed⟩ : Stage).next true o
            (Store.serve fault o c.store).1).failed⟩ := by
    intro failed rest
    rw [← Store.serve_next true failed]
    exact rest _ _ ⟨Store.serve_answers fault failed, rfl⟩
  rcases inStep with ⟨joined, reaches, _, rest⟩ | ⟨past, allowed, rest⟩
  · have goes := stage false rest
    rcases Store.serve_cases fault o c.store with served | ⟨same, fails⟩
    · have called := reaches.call
      cases failed : ((⟨c.store.active.isSome, false⟩ : Stage).next true o
          (Store.serve fault o c.store).1).failed with
      | false =>
        rw [failed] at goes
        refine Or.inl ⟨joined, ?_, goes⟩
        rw [served]
        exact called
      | true =>
        rw [failed] at goes
        refine Or.inr ⟨?_, goes⟩
        rw [served]
        exact Past.of_reaches called
    · rw [fails false] at goes
      refine Or.inr ⟨?_, goes⟩
      rw [same]
      exact Past.of_reaches reaches
  · have goes := stage true rest
    rw [Stage.failed_next_once rfl] at goes
    refine Or.inr ⟨?_, goes⟩
    rw [Store.serve_committed]
    · exact past
    · rintro q rfl
      cases allowed.2
    · rintro rfl
      cases allowed

/-- The main flow forks tasks. -/
theorem InStep.fork {tasks : List (Task E ε)} {k : Except ε Unit → Prog (Client E L ε) ε α}
    (h : c.InStep post p₀ w₀) (flow : c.flow = .going (.vis (.fork tasks) k)) :
    ({ c with
      flow := .waiting (List.range' c.tasks.length tasks.length) k
      tasks := c.tasks ++ tasks.map (⟨c.txn, ·⟩) } : Crew E L ε α).InStep post p₀ w₀ := by
  unfold InStep at h ⊢
  simp only [flow] at h
  obtain ⟨⟨serial, later⟩, ⟨joined, reaches, ⟨stage, _⟩, rest⟩ | ⟨_, ⟨stage, _⟩, _⟩⟩ := h
  · obtain ⟨qss, each, apart, total⟩ := serial
    have opened : c.store.active.isSome := (Stage.mk.inj stage).1
    obtain ⟨view, slot⟩ := Option.isSome_iff_exists.mp opened
    obtain ⟨target, leads⟩ := total view
    have ran := World.runTasks_within (d := c.store.committed)
      (each.imp fun _ _ queue => queue.within) leads
    refine ⟨later, ?_, fun e => ?_, fun i t found away => ?_, tasks, view, target, ?_, ran, ?_⟩
    · have goes := rest (.ok ()) _ rfl
      rw [opened] at goes
      exact goes
    · have goes := rest (.error e) _ rfl
      rw [opened] at goes
      exact goes
    · by_cases old : i < c.tasks.length
      · rw [List.getElem?_append_left old] at found
        exact joined t (List.mem_of_getElem? found)
      · have short := (List.getElem?_eq_some_iff.mp found).1
        rw [List.length_append, List.length_map] at short
        exact absurd (List.mem_range'_1.mpr ⟨Nat.not_lt.mp old, short⟩) away
    · rw [← slot]
      exact reaches
    · exact Or.inl ⟨_, view, slot, Owing.forked each apart leads⟩
  · cases (Stage.mk.inj stage).2

/-- The main flow goes on. -/
theorem InStep.stepMain (h : c.InStep post p₀ w₀) (fault : Option E.Fault) :
    (c.stepMain fault).InStep post p₀ w₀ := by
  unfold Crew.stepMain
  cases flow : c.flow with
  | going p =>
    cases p with
    | ret a => exact h
    | fail e => exact h
    | vis o k =>
      cases o with
      | session o => exact h.mainCall flow fault
      | get =>
        unfold InStep at h ⊢
        simp only [flow] at h
        obtain ⟨⟨_, later⟩, ⟨joined, reaches, _, rest⟩ | ⟨past, _, rest⟩⟩ := h
        · exact ⟨later _, Or.inl ⟨joined, reaches.call, rest _ _ rfl⟩⟩
        · exact ⟨later _, Or.inr ⟨past, rest _ _ rfl⟩⟩
      | set x =>
        unfold InStep at h ⊢
        simp only [flow] at h
        obtain ⟨⟨_, later⟩, ⟨joined, reaches, _, rest⟩ | ⟨past, _, rest⟩⟩ := h
        · exact ⟨later _, Or.inl ⟨joined, reaches.call, rest _ _ rfl⟩⟩
        · exact ⟨later _, Or.inr ⟨past, rest _ _ rfl⟩⟩
      | fork tasks => exact h.fork flow
  | waiting places k =>
    unfold InStep at h
    simp only [flow] at h
    obtain ⟨serial, onOk, onError, others, forked, view, target, reaches, ran, owes⟩ := h
    cases places with
    | nil =>
      rcases owes with ⟨queues, view', slot, owing⟩ | ⟨_, i, mem, _⟩
      · have same := owing.finished
        subst same
        have store : c.store = ⟨c.store.committed, some view'⟩ := by rw [← slot]
        have called := reaches.call
        have served : World.handle (.fork forked : Client.Op E L ε)
            ⟨⟨c.store.committed, some view⟩, c.memory⟩ = (.ok (), ⟨c.store, c.memory⟩) := by
          show ((World.runTasks forked _).1, (⟨(World.runTasks forked _).2, _⟩ : World E L)) = _
          rw [ran, ← store]
        rw [served] at called
        refine ⟨serial _, Or.inl ⟨fun t mem => ?_, called, ?_⟩⟩
        · obtain ⟨i, found⟩ := List.mem_iff_getElem?.mp mem
          exact others i t found List.not_mem_nil
        · dsimp only
          rw [slot]
          exact onOk
      · cases mem
    | cons place places =>
      have again : c.InStep post p₀ w₀ := by
        unfold InStep
        simp only [flow]
        exact ⟨serial, onOk, onError, others, forked, view, target, reaches, ran, owes⟩
      cases found : c.tasks[place]? with
      | none =>
        simp only [found, Option.map_none]
        exact again
      | some t =>
        obtain ⟨owner, rest⟩ := t
        simp only [found, Option.map_some]
        cases rest with
        | vis o k' => exact again
        | ret a =>
          refine ⟨serial, onOk, onError, fun i t at_i away => ?_, forked, view, target, reaches,
            ran, ?_⟩
          · by_cases here : i = place
            · subst here
              rw [at_i] at found
              cases found
              trivial
            · exact others i t at_i (List.not_mem_cons_of_ne_of_not_mem here away)
          · rcases owes with ⟨queues, view', slot, owing⟩ | ⟨opened, i, mem, owner', e, failed⟩
            · exact Or.inl ⟨queues, view', slot, owing.returned found⟩
            · refine Or.inr ⟨opened, i, ?_, owner', e, failed⟩
              rcases List.mem_cons.mp mem with rfl | later
              · rw [found] at failed
                cases failed
              · exact later
        | fail e =>
          rcases owes with ⟨queues, view', slot, owing⟩ | ⟨opened, _⟩
          · exact (owing.not_failed List.mem_cons_self found).elim
          · refine ⟨serial _, Or.inr ⟨.of_reaches reaches, ?_⟩⟩
            dsimp only
            rw [opened]
            exact onError e

/-- A careful schedule of an orderly program keeps it in step with its run. -/
theorem inStep_run {p : Prog (Client E L ε) ε α} {db : E.Db} {memory : L}
    (holds : p.Holds (Client.orderly true E L ε) post .idle)
    (serial : p.Always Client.Op.Serial) {turns : List (Turn E)}
    (careful : (start p db memory).CarefulRun turns) :
    ((start p db memory).run turns).InStep post p ⟨⟨db, none⟩, memory⟩ := by
  suffices ∀ (turns : List (Turn E)) (c : Crew E L ε α), c.Contains true →
      c.InStep post p ⟨⟨db, none⟩, memory⟩ → c.CarefulRun turns →
      (c.run turns).InStep post p ⟨⟨db, none⟩, memory⟩ by
    refine this turns _ (.start (holds.mono fun _ _ _ => trivial)) ?_ careful
    exact ⟨serial, Or.inl ⟨fun _ mem => (List.not_mem_nil mem).elim, .refl _ _, holds⟩⟩
  clear careful turns
  intro turns
  induction turns with
  | nil => exact fun c _ inStep _ => inStep
  | cons turn turns ih =>
    intro c contains inStep careful
    cases turn with
    | main fault =>
      exact ih _ (contains.stepMain fault careful.1) (inStep.stepMain fault) careful.2
    | task place fault =>
      exact ih _ (contains.stepTask place fault) (inStep.stepTask contains place fault) careful.2

/-- **What is committed** by a careful schedule of an orderly program, a run of the program without
failures has committed at some moment. -/
theorem past_run {p : Prog (Client E L ε) ε α} {db : E.Db} {memory : L}
    (holds : p.Holds (Client.orderly true E L ε) (fun _ _ => True) .idle)
    (serial : p.Always Client.Op.Serial) {turns : List (Turn E)}
    (careful : (start p db memory).CarefulRun turns) :
    Past p ⟨⟨db, none⟩, memory⟩ ((start p db memory).run turns).store.committed :=
  (inStep_run holds serial careful).past

/-- **A careful schedule that ends with success**, where no failure allows it, has done what the
program does without failures. -/
theorem finished_run {p : Prog (Client E L ε) ε α} {db : E.Db} {memory : L} {a : α}
    (holds : p.Holds (Client.orderly true E L ε) post .idle)
    (refuted : ∀ opened, ¬ post (.ok a) ⟨opened, true⟩)
    (serial : p.Always Client.Op.Serial) {turns : List (Turn E)}
    (careful : (start p db memory).CarefulRun turns)
    (finished : ((start p db memory).run turns).flow = .going (.ret a)) :
    p.run World.handle ⟨⟨db, none⟩, memory⟩ =
      (.ok a, ⟨((start p db memory).run turns).store, ((start p db memory).run turns).memory⟩) := by
  have inStep := inStep_run holds serial careful
  unfold InStep at inStep
  rw [finished] at inStep
  obtain ⟨_, ⟨_, reaches, _⟩ | ⟨_, failed⟩⟩ := inStep
  · exact reaches.ret
  · exact absurd failed (refuted _)

end Crew

/-! ## Without failures -/

section Served

variable {E : Engine} {L ε α : Type}

/-- A confined program served in a transaction leaves the database and the transaction there. -/
theorem Store.run_confined {p : Prog (Session E) ε α} {failed : Bool}
    (confined : p.Holds (Session.confined E) (fun r failed => r.isOk → failed = false) failed)
    {s : Store E} (opened : s.active.isSome) :
    (p.run Store.handle s).2.committed = s.committed ∧
      (p.run Store.handle s).2.active.isSome := by
  induction p generalizing s failed with
  | ret a => exact ⟨rfl, opened⟩
  | fail e => exact ⟨rfl, opened⟩
  | vis o k ih =>
    obtain ⟨allowed, rest⟩ := confined
    obtain ⟨failed', served⟩ := Store.serve_confined none allowed opened
    have other : (∀ q, o ≠ .autoRun q) ∧ o ≠ .commit ∧ o ≠ .rollback := by
      refine ⟨fun q same => ?_, fun same => ?_, fun same => ?_⟩
      all_goals
        subst same
        exact allowed
    have stays := Store.serve_opened none opened other.2.1 other.2.2
    obtain ⟨committed, still⟩ := ih _ (rest _ failed' served) stays
    exact ⟨committed.trans (Store.serve_committed none other.1 other.2.1), still⟩

theorem World.runTasks_confined {tasks : List (Task E ε)} (confined : ∀ t ∈ tasks, Confined t)
    {s : Store E} (opened : s.active.isSome) :
    (World.runTasks tasks s).2.committed = s.committed ∧
      (World.runTasks tasks s).2.active.isSome := by
  induction tasks generalizing s with
  | nil => exact ⟨rfl, opened⟩
  | cons t ts ih =>
    obtain ⟨first, still⟩ := Store.run_confined (confined t List.mem_cons_self) opened
    obtain ⟨rest, open'⟩ := ih (fun u mem => confined u (List.mem_cons_of_mem _ mem)) still
    exact ⟨rest.trans first, open'⟩

/-- Until its first commit an orderly program leaves the database as it is. -/
theorem Client.keeps_committed {p : Prog (Client E L ε) ε α}
    {post : Except ε α → Stage → Prop} {w : World E L} {failed : Bool}
    (holds : p.Holds (Client.orderly true E L ε) post ⟨w.store.active.isSome, failed⟩)
    (never : p.Always fun o : Client.Op E L ε => o ≠ .session .commit) :
    p.Keeps World.handle (fun _ _ => True) (fun w' => w'.store.committed = w.store.committed)
      (fun a w' => ∃ failed', post (.ok a) ⟨w'.store.active.isSome, failed'⟩) w := by
  suffices ∀ db : E.Db, w.store.committed = db → p.Keeps World.handle (fun _ _ => True)
      (fun w' => w'.store.committed = db)
      (fun a w' => ∃ failed', post (.ok a) ⟨w'.store.active.isSome, failed'⟩) w from
    this _ rfl
  intro db here
  induction p generalizing w failed with
  | ret a => exact ⟨here, failed, holds⟩
  | fail e => exact here
  | vis o k ih =>
    obtain ⟨allowed, rest⟩ := holds
    refine ⟨here, fun _ => ?_⟩
    cases o with
    | session o =>
      have other : o ≠ .commit := fun same => never.1 (congrArg _ same)
      have goes : (k (Store.serve none o w.store).1).Holds (Client.orderly true E L ε) post
          ⟨(Store.serve none o w.store).2.active.isSome,
            ((⟨w.store.active.isSome, failed⟩ : Stage).next true o
              (Store.serve none o w.store).1).failed⟩ := by
        rw [← Store.serve_next true failed]
        exact rest _ _ ⟨Store.serve_answers (s := w.store) none failed, rfl⟩
      refine ih (Store.serve none o w.store).1
        (w := ⟨(Store.serve none o w.store).2, w.memory⟩) goes (never.2 _) ?_
      refine (Store.serve_committed none ?_ other).trans here
      rintro q rfl
      cases allowed.2
    | get => exact ih _ (rest _ _ rfl) (never.2 _) here
    | set x => exact ih _ (rest _ _ rfl) (never.2 _) here
    | fork tasks =>
      obtain ⟨stage, confined⟩ := allowed
      obtain ⟨committed, opened⟩ := World.runTasks_confined (s := w.store) confined
        (Stage.mk.inj stage).1
      obtain ⟨failed', goes⟩ : ∃ failed',
          (k (World.runTasks tasks w.store).1).Holds (Client.orderly true E L ε) post
            ⟨true, failed'⟩ := by
        have goes := rest (World.runTasks tasks w.store).1 _ rfl
        rw [stage] at goes
        cases answer : (World.runTasks tasks w.store).1 with
        | ok u =>
          rw [answer] at goes
          exact ⟨false, goes⟩
        | error e =>
          rw [answer] at goes
          exact ⟨true, goes⟩
      have still : (k (World.runTasks tasks w.store).1).Holds (Client.orderly true E L ε) post
          ⟨(World.runTasks tasks w.store).2.active.isSome, failed'⟩ := by
        rw [opened]
        exact goes
      exact ih (World.runTasks tasks w.store).1
        (w := ⟨(World.runTasks tasks w.store).2, w.memory⟩) still (never.2 _) (committed.trans here)

end Served

end ChainGraph.Foundation

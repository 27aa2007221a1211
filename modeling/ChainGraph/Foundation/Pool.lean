import ChainGraph.Foundation.Runs
import Mathlib.Data.Multiset.ZeroCons
import Mathlib.Logic.Hydra

/-!
# Programs that run side by side

A pool holds programs of which at most `limit` are under way at a time. Their calls reach one state
in any order, and a program that is done gives its result at the place its end has among the others.

`Ends` says that every run comes to a halt, and where. `ends_of_meets` is what a user needs: if each
program meets its specification alone, whatever its calls are answered, then every run of the pool
halts with one result for each of them.
-/

namespace ChainGraph.Foundation

/-! ## Runs that halt -/

/-- Every run from a state halts, in a state where `P` holds. -/
inductive Ends {S : Type} (step : S → S → Prop) (P : S → Prop) : S → Prop where
  | halt {s : S} (still : ∀ t, ¬ step s t) (here : P s) : Ends step P s
  | go {s t : S} (moves : step s t) (all : ∀ u, step s u → Ends step P u) : Ends step P s

section Ends

variable {S : Type} {step : S → S → Prop} {P Q : S → Prop} {s : S}

theorem Ends.mono (ends : Ends step P s) (imp : ∀ t, P t → Q t) : Ends step Q s := by
  induction ends with
  | halt still here => exact .halt still (imp _ here)
  | go moves _ ih => exact .go moves ih

/-- Two statements about where the runs halt hold together somewhere. -/
theorem Ends.meet (first : Ends step P s) (second : Ends step Q s) : ∃ t, P t ∧ Q t := by
  induction first with
  | halt still here =>
    cases second with
    | halt _ there => exact ⟨_, here, there⟩
    | go moves _ => exact absurd moves (still _)
  | @go s t moves _ ih =>
    cases second with
    | halt still _ => exact absurd moves (still t)
    | go _ all => exact ih t moves (all t moves)

/-- The rule for `Ends`: a measure that falls, an invariant, and what a halt under it means. -/
theorem Ends.of_invariant {M : Type} {below : M → M → Prop} (wf : WellFounded below)
    (measure : S → M) (Inv : S → Prop) (falls : ∀ s t, step s t → below (measure t) (measure s))
    (keeps : ∀ s t, Inv s → step s t → Inv t) (halts : ∀ s, Inv s → (∃ t, step s t) ∨ P s)
    (inv : Inv s) : Ends step P s := by
  induction acc : measure s using wf.induction generalizing s with
  | _ m ih =>
    subst acc
    by_cases moves : ∃ t, step s t
    · obtain ⟨t, moved⟩ := moves
      exact .go moved fun u next => ih _ (falls s u next) (keeps s u inv next) rfl
    · apply Ends.halt
      · exact fun t moved => moves ⟨t, moved⟩
      · exact (halts s inv).resolve_left moves

end Ends

/-! ## Pools -/

/-- Programs that wait, programs under way, and the results so far. The source of the programs is
exhausted once it has been asked in vain. -/
structure Pool (I : Interface) (ε α : Type) where
  waiting : List (Prog I ε α)
  inFlight : Multiset (Prog I ε α)
  done : List (Except ε α)
  exhausted : Bool

namespace Pool

open Prog

variable {I : Interface} {ε α σ ι : Type} {h : Handler I σ} {limit : ℕ}

def start (programs : List (Prog I ε α)) : Pool I ε α := ⟨programs, 0, [], false⟩

/-- Nothing is left to do. -/
def Finished (pool : Pool I ε α) : Prop :=
  pool.waiting = [] ∧ pool.inFlight = 0 ∧ pool.exhausted = true

/-- One thing that can happen next. -/
inductive Step (h : Handler I σ) (limit : ℕ) : Pool I ε α × σ → Pool I ε α × σ → Prop where
  | enter {p waiting inFlight done s} (room : Multiset.card inFlight < limit) :
      Step h limit (⟨p :: waiting, inFlight, done, false⟩, s)
        (⟨waiting, p ::ₘ inFlight, done, false⟩, s)
  | exhaust {inFlight done s} (room : Multiset.card inFlight < limit) :
      Step h limit (⟨[], inFlight, done, false⟩, s) (⟨[], inFlight, done, true⟩, s)
  | call {o k waiting rest done exhausted s} :
      Step h limit (⟨waiting, vis o k ::ₘ rest, done, exhausted⟩, s)
        (⟨waiting, k (h o s).1 ::ₘ rest, done, exhausted⟩, (h o s).2)
  | ret {a waiting rest done exhausted s} :
      Step h limit (⟨waiting, ret a ::ₘ rest, done, exhausted⟩, s)
        (⟨waiting, rest, done ++ [.ok a], exhausted⟩, s)
  | fail {e waiting rest done exhausted s} :
      Step h limit (⟨waiting, fail e ::ₘ rest, done, exhausted⟩, s)
        (⟨waiting, rest, done ++ [.error e], exhausted⟩, s)

/-! ## Every run is finite -/

/-- What is left of a program after a call. -/
inductive Rest : Prog I ε α → Prog I ε α → Prop where
  | after {o : I.Op} {k : I.Reply o → Prog I ε α} (r : I.Reply o) : Rest (k r) (vis o k)

theorem wellFounded_rest : WellFounded (@Rest I ε α) := by
  refine ⟨fun p => ⟨p, ?_⟩⟩
  induction p with
  | ret a =>
    intro q rest
    cases rest
  | fail e =>
    intro q rest
    cases rest
  | vis o k ih =>
    intro q rest
    cases rest with
    | after r => exact ⟨_, ih r⟩

instance : Std.Irrefl (@Rest I ε α) := wellFounded_rest.irrefl

/-- The programs that are not done, how many of them wait, and whether the source can be asked. -/
def measure (x : Pool I ε α × σ) : Multiset (Prog I ε α) × ℕ :=
  (x.1.waiting + x.1.inFlight, x.1.waiting.length + if x.1.exhausted then 0 else 1)

/-- A program less, or one of them shorter, or one of them admitted. -/
def Below : Multiset (Prog I ε α) × ℕ → Multiset (Prog I ε α) × ℕ → Prop :=
  Prod.Lex (Relation.CutExpand Rest) (· < ·)

theorem wellFounded_below : WellFounded (@Below I ε α) :=
  WellFounded.prod_lex wellFounded_rest.cutExpand wellFounded_lt

theorem measure_falls (x y : Pool I ε α × σ) (step : Step h limit x y) :
    Below (measure y) (measure x) := by
  cases step with
  | @enter p waiting inFlight done s room =>
    have same : ((waiting : Multiset (Prog I ε α)) + p ::ₘ inFlight) =
        (p :: waiting : List (Prog I ε α)) + inFlight := by
      rw [← Multiset.cons_coe, Multiset.cons_add, Multiset.add_cons]
    unfold Below measure
    simp only [same]
    apply Prod.Lex.right
    simp
  | exhaust room => exact Prod.Lex.right _ (by simp)
  | @call o k waiting rest done exhausted s =>
    apply Prod.Lex.left
    refine ⟨{k (h o s).1}, vis o k, ?_, ?_⟩
    · intro p among
      rw [Multiset.mem_singleton.mp among]
      exact .after _
    · simp only [← Multiset.singleton_add]
      ac_rfl
  | @ret a waiting rest done exhausted s =>
    apply Prod.Lex.left
    refine ⟨0, ret a, ?_, ?_⟩
    · intro p among
      exact absurd among (Multiset.notMem_zero p)
    · simp only [← Multiset.singleton_add]
      ac_rfl
  | @fail e waiting rest done exhausted s =>
    apply Prod.Lex.left
    refine ⟨0, fail e, ?_, ?_⟩
    · intro p among
      exact absurd among (Multiset.notMem_zero p)
    · simp only [← Multiset.singleton_add]
      ac_rfl

/-! ## What the results are -/

/-- Whatever the calls are answered, the outcome of the program meets `spec`. -/
def Meets (A : (o : I.Op) → I.Reply o → Prop) (spec : Except ε α → Prop) (p : Prog I ε α) : Prop :=
  Yields A (fun e => spec (.error e)) (fun a => spec (.ok a)) p

/-- A program that runs alone. -/
theorem Meets.run {A : (o : I.Op) → I.Reply o → Prop} {spec : Except ε α → Prop} {p : Prog I ε α}
    (meets : Meets A spec p) (answers : ∀ o s, A o (h o s).1) (s : σ) : spec (p.run h s).1 := by
  obtain ⟨ok, error⟩ := Yields.run meets answers s
  cases outcome : (p.run h s).1 with
  | ok a => exact ok a outcome
  | error e => exact error e outcome

variable (A : (o : I.Op) → I.Reply o → Prop) (spec : ι → Except ε α → Prop)

/-- The results and the programs that are left stand for the items, and each meets what is specified
for its item. -/
structure Owes (items : Multiset ι) (pool : Pool I ε α) : Prop where
  shared : ∃ waiting inFlight done : Multiset ι,
    Multiset.Rel (fun p i => Meets A (spec i) p) pool.waiting waiting ∧
    Multiset.Rel (fun p i => Meets A (spec i) p) pool.inFlight inFlight ∧
    Multiset.Rel (fun r i => spec i r) pool.done done ∧
    waiting + inFlight + done = items
  asked : pool.exhausted = true → pool.waiting = []

variable {A spec} {items : Multiset ι}

theorem owes_start {program : ι → Prog I ε α} {order : List ι}
    (meets : ∀ i ∈ order, Meets A (spec i) (program i)) :
    Owes A spec order (start (order.map program)) := by
  refine ⟨⟨order, 0, 0, ?_, Multiset.rel_zero_left.mpr rfl, Multiset.rel_zero_left.mpr rfl, ?_⟩, ?_⟩
  · unfold start
    rw [← Multiset.map_coe, Multiset.rel_map_left]
    exact Multiset.rel_refl_of_refl_on fun i among => meets i (Multiset.mem_coe.mp among)
  · simp
  · intro no
    cases no

/-- A result more, for an item of a program under way. -/
theorem rel_done {done : List (Except ε α)} {made : Multiset ι} {r : Except ε α} {i : ι}
    (rel : Multiset.Rel (fun r i => spec i r) done made) (met : spec i r) :
    Multiset.Rel (fun r i => spec i r) (done ++ [r] : List (Except ε α)) (made + {i}) := by
  rw [← Multiset.coe_add]
  exact rel.add (Multiset.rel_cons_left.mpr ⟨i, 0, met, Multiset.rel_zero_left.mpr rfl, rfl⟩)

/-- A step keeps what a pool owes. -/
theorem Owes.step (answers : ∀ o s, A o (h o s).1) {x y : Pool I ε α × σ}
    (step : Step h limit x y) (owes : Owes A spec items x.1) : Owes A spec items y.1 := by
  obtain ⟨⟨waiting, inFlight, done, waits, flies, made, all⟩, asked⟩ := owes
  cases step with
  | enter room =>
    obtain ⟨i, left, met, waits', rfl⟩ := Multiset.rel_cons_left.mp (Multiset.cons_coe _ _ ▸ waits)
    refine ⟨⟨left, i ::ₘ inFlight, done, waits', Multiset.Rel.cons met flies, made, ?_⟩, ?_⟩
    · rw [← all, Multiset.cons_add, Multiset.add_cons]
    · intro no
      cases no
  | exhaust room => exact ⟨⟨waiting, inFlight, done, waits, flies, made, all⟩, fun _ => rfl⟩
  | call =>
    obtain ⟨i, left, met, flies', rfl⟩ := Multiset.rel_cons_left.mp flies
    refine ⟨⟨waiting, i ::ₘ left, done, waits, Multiset.Rel.cons ?_ flies', made, all⟩, asked⟩
    exact met _ (answers _ _)
  | ret =>
    obtain ⟨i, left, met, flies', rfl⟩ := Multiset.rel_cons_left.mp flies
    refine ⟨⟨waiting, left, done + {i}, waits, flies', rel_done made met, ?_⟩, asked⟩
    rw [← all, ← Multiset.singleton_add]
    ac_rfl
  | fail =>
    obtain ⟨i, left, met, flies', rfl⟩ := Multiset.rel_cons_left.mp flies
    refine ⟨⟨waiting, left, done + {i}, waits, flies', rel_done made met, ?_⟩, asked⟩
    rw [← all, ← Multiset.singleton_add]
    ac_rfl

/-- A pool with room for a program makes a step until it is finished. -/
theorem Owes.exists_step (room : 0 < limit) {x : Pool I ε α × σ} (owes : Owes A spec items x.1) :
    (∃ y, Step h limit x y) ∨ x.1.Finished := by
  obtain ⟨⟨waiting, inFlight, done, exhausted⟩, s⟩ := x
  induction inFlight using Multiset.induction with
  | cons p rest _ =>
    left
    cases p with
    | ret a => exact ⟨_, .ret⟩
    | fail e => exact ⟨_, .fail⟩
    | vis o k => exact ⟨_, .call⟩
  | empty =>
    cases exhausted with
    | true => exact Or.inr ⟨owes.asked rfl, rfl, rfl⟩
    | false =>
      left
      cases waiting with
      | nil => exact ⟨_, .exhaust room⟩
      | cons p waiting => exact ⟨_, .enter room⟩

/-- The results of a finished pool are one for each item. -/
theorem Owes.finished {pool : Pool I ε α} (owes : Owes A spec items pool)
    (finished : pool.Finished) : Multiset.Rel (fun r i => spec i r) pool.done items := by
  obtain ⟨⟨waiting, inFlight, done, waits, flies, made, rfl⟩, _⟩ := owes
  rw [finished.1, Multiset.coe_nil, Multiset.rel_zero_left] at waits
  rw [finished.2.1, Multiset.rel_zero_left] at flies
  rw [waits, flies, zero_add, zero_add]
  exact made

/-- Programs that meet their specifications alone do so side by side. -/
theorem ends_of_meets (answers : ∀ o s, A o (h o s).1) (room : 0 < limit)
    {program : ι → Prog I ε α} {order : List ι}
    (meets : ∀ i ∈ order, Meets A (spec i) (program i)) (s : σ) :
    Ends (Step h limit)
      (fun x => x.1.Finished ∧ Multiset.Rel (fun r i => spec i r) x.1.done order)
      (start (order.map program), s) := by
  apply Ends.of_invariant wellFounded_below measure (fun x => Owes A spec order x.1)
    measure_falls
  · exact fun x y owes step => owes.step answers step
  · intro x owes
    exact (owes.exists_step room).imp_right fun finished => ⟨finished, owes.finished finished⟩
  · exact owes_start meets

/-- Results that are one for each item, in the order of the items. -/
theorem aligned_of_rel {results : List (Except ε α)} {order : List ι}
    (rel : Multiset.Rel (fun r i => spec i r) results order) :
    ∃ aligned : List (Except ε α), results.Perm aligned ∧
      List.Forall₂ (fun r i => spec i r) aligned order := by
  induction order generalizing results with
  | nil =>
    have none : results = [] := Multiset.coe_eq_zero _ |>.mp (Multiset.rel_zero_right.mp rel)
    exact ⟨[], none ▸ List.Perm.nil, .nil⟩
  | cons i rest ih =>
    obtain ⟨r, left, met, others, same⟩ :=
      Multiset.rel_cons_right.mp (Multiset.cons_coe i rest ▸ rel)
    obtain ⟨results', rfl⟩ := Quot.exists_rep left
    obtain ⟨aligned, perm, each⟩ := ih others
    exact ⟨r :: aligned, (Multiset.coe_eq_coe.mp same).trans (perm.cons r), .cons met each⟩

/-- Without room only a program that is under way moves. -/
theorem Step.inFlight_ne_zero {x y : Pool I ε α × σ} (step : Step h 0 x y) :
    x.1.inFlight ≠ 0 := by
  cases step with
  | enter room => exact absurd room (Nat.not_lt_zero _)
  | exhaust room => exact absurd room (Nat.not_lt_zero _)
  | call => exact Multiset.cons_ne_zero
  | ret => exact Multiset.cons_ne_zero
  | fail => exact Multiset.cons_ne_zero

/-- A pool without room halts before it has begun. -/
theorem not_ends_of_no_room {P : Pool I ε α × σ → Prop} (finishes : ∀ x, P x → x.1.Finished)
    (programs : List (Prog I ε α)) (s : σ) : ¬ Ends (Step h 0) P (start programs, s) := by
  intro ends
  cases ends with
  | halt _ here =>
    have exhausted := (finishes _ here).2.2
    cases exhausted
  | go moves _ => exact moves.inFlight_ne_zero rfl

end Pool

end ChainGraph.Foundation

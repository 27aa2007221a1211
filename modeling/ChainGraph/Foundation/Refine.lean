import Mathlib.Logic.Basic
import Mathlib.Tactic.Common

/-!
# Services and what they are for

A service takes events and answers them. What it is for is said by a specification: which events may
come in a state, and what may be answered and become of the state then. The specification may leave
several answers open, where the service has one.

Code refines a specification under a relation between their states when it serves one event as the
specification says and ends up related again. So it serves every list of events that may come: its
answers are those of a run of the specification, which ends in a related state. What every step of
the specification keeps is then true of the code's state at the end.

How an event goes may be up to more than the specification knows of, such as the order in which
parts of the code run. What the code relies on there is a condition on the event and its own state.
-/

namespace ChainGraph.Foundation

/-- What a service is for. -/
structure Spec (E O A : Type) where
  /-- The event may come. -/
  accepts : A → E → Prop
  /-- The event may be answered so, and lead there. -/
  step : A → E → O → A → Prop

namespace Spec

variable {E O A C : Type} {spec : Spec E O A} {a a' : A}

variable (spec) in
/-- The events may come one after the other, whatever is answered. -/
def AcceptsAll : List E → A → Prop
  | [], _ => True
  | e :: es, a => spec.accepts a e ∧ ∀ o a', spec.step a e o a' → AcceptsAll es a'

variable (spec) in
/-- Steps one after the other, with their events and answers. -/
inductive Steps : A → List (E × O) → A → Prop
  | nil (a : A) : Steps a [] a
  | cons {a a₁ a' : A} {e : E} {o : O} {rest : List (E × O)} (step : spec.step a e o a₁)
      (steps : Steps a₁ rest a') : Steps a ((e, o) :: rest) a'

/-- What every step keeps, a run keeps. -/
theorem Steps.keeps {P : A → Prop} {l : List (E × O)} (steps : spec.Steps a l a')
    (keeps : ∀ a e o a', (e, o) ∈ l → spec.step a e o a' → P a → P a') (here : P a) : P a' := by
  induction steps with
  | nil a => exact here
  | cons step steps ih =>
    have next := keeps _ _ _ _ List.mem_cons_self step here
    exact ih (fun a e o a' mem => keeps a e o a' (List.mem_cons_of_mem _ mem)) next

/-- The first of the steps. -/
theorem Steps.first {l : List (E × O)} {e : E} {es : List E} (steps : spec.Steps a l a')
    (events : l.map Prod.fst = e :: es) :
    ∃ o a₁ rest, spec.step a e o a₁ ∧ spec.Steps a₁ rest a' ∧ rest.map Prod.fst = es := by
  cases steps with
  | nil => cases events
  | cons step steps =>
    obtain ⟨rfl, later⟩ := List.cons.inj events
    exact ⟨_, _, _, step, steps, later⟩

theorem AcceptsAll.left {es es' : List E} (accepted : spec.AcceptsAll (es ++ es') a) :
    spec.AcceptsAll es a := by
  induction es generalizing a with
  | nil => trivial
  | cons e es ih => exact ⟨accepted.1, fun o a' step => ih (accepted.2 o a' step)⟩

/-- A step of a run that leads to `Q`, which later steps keep. -/
theorem Steps.reaches {P Q : A → Prop} {l : List (E × O)} {e : E} {o : O}
    (steps : spec.Steps a l a')
    (keeps : ∀ a e o a', (e, o) ∈ l → spec.step a e o a' → P a → P a' ∧ (Q a → Q a'))
    (mem : (e, o) ∈ l) (leads : ∀ a a', spec.step a e o a' → P a → Q a') (here : P a) : Q a' := by
  induction steps with
  | nil a => cases mem
  | cons step steps ih =>
    have later := fun a e o a' mem => keeps a e o a' (List.mem_cons_of_mem _ mem)
    obtain ⟨next, -⟩ := keeps _ _ _ _ List.mem_cons_self step here
    rcases List.mem_cons.mp mem with same | inRest
    · cases same
      have both := steps.keeps (P := fun a => P a ∧ Q a)
        (fun a e o a' mem step both =>
          ⟨(later a e o a' mem step both.1).1, (later a e o a' mem step both.1).2 both.2⟩)
        ⟨next, leads _ _ step here⟩
      exact both.2
    · exact ih later inRest next

/-- Code serves events one after the other: the answers, beside their events, and its last state. -/
def serveAll (code : E → C → O × C) : List E → C → List (E × O) × C
  | [], c => ([], c)
  | e :: es, c =>
    let served := code e c
    let rest := serveAll code es served.2
    ((e, served.1) :: rest.1, rest.2)

theorem map_fst_serveAll (code : E → C → O × C) (es : List E) (c : C) :
    (serveAll code es c).1.map Prod.fst = es := by
  induction es generalizing c with
  | nil => rfl
  | cons e es ih => exact congrArg (e :: ·) (ih _)

/-- Each event meets a condition in the state in which the code serves it. -/
def MeetAll (code : E → C → O × C) (meets : E → C → Prop) : List E → C → Prop
  | [], _ => True
  | e :: es, c => meets e c ∧ MeetAll code meets es (code e c).2

instance decideMeetAll {code : E → C → O × C} {meets : E → C → Prop}
    [decide : ∀ e c, Decidable (meets e c)] :
    (es : List E) → (c : C) → Decidable (MeetAll code meets es c)
  | [], _ => isTrue trivial
  | e :: es, c =>
    have : Decidable (MeetAll code meets es (code e c).2) := decideMeetAll es _
    inferInstanceAs (Decidable (meets e c ∧ MeetAll code meets es (code e c).2))

end Spec

/-- Code that serves one event as the specification says, if the event meets a condition. -/
structure Refines {E O A C : Type} (spec : Spec E O A) (code : E → C → O × C)
    (meets : E → C → Prop) (R : A → C → Prop) : Prop where
  serves : ∀ a c e, R a c → spec.accepts a e → meets e c →
    ∃ a', spec.step a e (code e c).1 a' ∧ R a' (code e c).2

/-- **Refinement over runs.** All events that may come and meet the condition are served as the
specification says. -/
theorem Refines.serveAll {E O A C : Type} {spec : Spec E O A} {code : E → C → O × C}
    {meets : E → C → Prop} {R : A → C → Prop} (refines : Refines spec code meets R) {es : List E}
    {a : A} {c : C} (related : R a c) (accepted : spec.AcceptsAll es a)
    (met : Spec.MeetAll code meets es c) :
    ∃ a', spec.Steps a (Spec.serveAll code es c).1 a' ∧ R a' (Spec.serveAll code es c).2 := by
  induction es generalizing a c with
  | nil => exact ⟨a, .nil a, related⟩
  | cons e es ih =>
    obtain ⟨a₁, step, related₁⟩ := refines.serves a c e related accepted.1 met.1
    obtain ⟨a', steps, related'⟩ := ih related₁ (accepted.2 _ _ step) met.2
    exact ⟨a', .cons step steps, related'⟩

end ChainGraph.Foundation

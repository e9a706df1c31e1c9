import Mathlib.Data.List.Basic

/-!
# Runs of a state machine

A run folds a step function over a list of events.  `Guarded` says that each
event of a run meets a guard in the state in which it happens; an invariant that
guarded steps keep holds in every state that a guarded run reaches.
-/

namespace Runs

variable {σ ε : Type*}

/-- The state that a run of events reaches. -/
def run (step : σ → ε → σ) (state : σ) (events : List ε) : σ :=
  events.foldl step state

@[simp] theorem run_nil (step : σ → ε → σ) (state : σ) : run step state [] = state := rfl

@[simp] theorem run_cons (step : σ → ε → σ) (state : σ) (event : ε) (events : List ε) :
    run step state (event :: events) = run step (step state event) events := rfl

/-- Each event of a run meets the guard in the state in which it happens. -/
def Guarded (guard : σ → ε → Prop) (step : σ → ε → σ) : σ → List ε → Prop
  | _, [] => True
  | state, event :: events => guard state event ∧ Guarded guard step (step state event) events

instance decidableGuarded (guard : σ → ε → Prop) [∀ state event, Decidable (guard state event)]
    (step : σ → ε → σ) : ∀ state events, Decidable (Guarded guard step state events)
  | _, [] => inferInstanceAs (Decidable True)
  | state, event :: events =>
      have := decidableGuarded guard step (step state event) events
      inferInstanceAs (Decidable (guard state event ∧ _))

@[simp] theorem run_append (step : σ → ε → σ) (state : σ) (first second : List ε) :
    run step state (first ++ second) = run step (run step state first) second :=
  List.foldl_append

theorem guarded_append {guard : σ → ε → Prop} {step : σ → ε → σ} {state : σ}
    {first second : List ε} :
    Guarded guard step state (first ++ second) ↔
      Guarded guard step state first ∧ Guarded guard step (run step state first) second := by
  induction first generalizing state with
  | nil => exact (and_iff_right trivial).symm
  | cons event first ih => exact (and_congr_right fun _ => ih).trans and_assoc.symm

/-- A guard that looks at the events only. -/
theorem guarded_of_forall {allowed : ε → Prop} (step : σ → ε → σ) (state : σ) {events : List ε}
    (each : ∀ event ∈ events, allowed event) :
    Guarded (fun _ event => allowed event) step state events := by
  induction events generalizing state with
  | nil => trivial
  | cons event events ih =>
      exact ⟨each event List.mem_cons_self,
        ih _ fun other member => each other (List.mem_cons_of_mem _ member)⟩

/-- An invariant that knows the events ahead: each guarded step takes one of them. -/
theorem Guarded.invariant_ahead {guard : σ → ε → Prop} {step : σ → ε → σ}
    {inv : σ → List ε → Prop}
    (preserved : ∀ state event ahead, inv state (event :: ahead) → guard state event →
      inv (step state event) ahead)
    {state : σ} {events : List ε} (guarded : Guarded guard step state events)
    (initially : inv state events) : inv (run step state events) [] := by
  induction events generalizing state with
  | nil => exact initially
  | cons event events ih =>
      exact ih guarded.2 (preserved state event events initially guarded.1)

/-- An invariant of guarded steps is an invariant of guarded runs. -/
theorem Guarded.invariant {guard : σ → ε → Prop} {step : σ → ε → σ} {inv : σ → Prop}
    (preserved : ∀ state event, inv state → guard state event → inv (step state event))
    {state : σ} {events : List ε} (guarded : Guarded guard step state events)
    (initially : inv state) : inv (run step state events) := by
  have ahead : ∀ state event (_ : List ε), inv state → guard state event →
      inv (step state event) := fun state event _ => preserved state event
  exact @Guarded.invariant_ahead σ ε guard step (fun state _ => inv state) ahead state events
    guarded initially

/-- Two guards of a run are one guard. -/
theorem Guarded.and {first second : σ → ε → Prop} {step : σ → ε → σ} {state : σ}
    {events : List ε} (firsts : Guarded first step state events)
    (seconds : Guarded second step state events) :
    Guarded (fun state event => first state event ∧ second state event) step state events := by
  induction events generalizing state with
  | nil => trivial
  | cons event events ih => exact ⟨⟨firsts.1, seconds.1⟩, ih firsts.2 seconds.2⟩

/-- A property holds in every state of a run, the first and the last included. -/
def Throughout (property : σ → Prop) (step : σ → ε → σ) : σ → List ε → Prop
  | state, [] => property state
  | state, event :: events => property state ∧ Throughout property step (step state event) events

instance decidableThroughout (property : σ → Prop) [DecidablePred property]
    (step : σ → ε → σ) : ∀ state events, Decidable (Throughout property step state events)
  | state, [] => inferInstanceAs (Decidable (property state))
  | state, event :: events =>
      have := decidableThroughout property step (step state event) events
      inferInstanceAs (Decidable (property state ∧ _))

theorem Throughout.initially {property : σ → Prop} {step : σ → ε → σ} {state : σ}
    {events : List ε} (throughout : Throughout property step state events) :
    property state := by
  cases events with
  | nil => exact throughout
  | cons event events => exact throughout.1

theorem Throughout.finally {property : σ → Prop} {step : σ → ε → σ} {state : σ}
    {events : List ε} (throughout : Throughout property step state events) :
    property (run step state events) := by
  induction events generalizing state with
  | nil => exact throughout
  | cons event events ih => exact ih throughout.2

/-- A property that an invariant of guarded steps implies holds throughout guarded runs. -/
theorem Guarded.throughout {guard : σ → ε → Prop} {step : σ → ε → σ} {inv property : σ → Prop}
    (holds : ∀ state, inv state → property state)
    (preserved : ∀ state event, inv state → guard state event → inv (step state event))
    {state : σ} {events : List ε} (guarded : Guarded guard step state events)
    (initially : inv state) : Throughout property step state events := by
  induction events generalizing state with
  | nil => exact holds state initially
  | cons event events ih =>
      exact ⟨holds state initially, ih guarded.2 (preserved state event initially guarded.1)⟩

/-- A property that an invariant of the steps implies holds throughout every run. -/
theorem throughout_of_invariant {step : σ → ε → σ} {inv property : σ → Prop}
    (holds : ∀ state, inv state → property state)
    (preserved : ∀ state event, inv state → inv (step state event))
    {state : σ} (initially : inv state) (events : List ε) :
    Throughout property step state events := by
  induction events generalizing state with
  | nil => exact holds state initially
  | cons event events ih => exact ⟨holds state initially, ih (preserved state event initially)⟩

/-- A property holds throughout a run exactly when the run is guarded, if guarded steps
keep an invariant that implies the property, and no unguarded step reaches a state
with the property. -/
theorem throughout_iff_guarded {guard : σ → ε → Prop} {step : σ → ε → σ}
    {inv property : σ → Prop} (holds : ∀ state, inv state → property state)
    (preserved : ∀ state event, inv state → guard state event → inv (step state event))
    (needed : ∀ state event, inv state → property (step state event) → guard state event)
    {state : σ} (initially : inv state) (events : List ε) :
    Throughout property step state events ↔ Guarded guard step state events := by
  refine ⟨fun throughout => ?_, fun guarded => guarded.throughout holds preserved initially⟩
  induction events generalizing state with
  | nil => trivial
  | cons event events ih =>
      have guarded := needed state event initially throughout.2.initially
      exact ⟨guarded, ih (preserved state event initially guarded) throughout.2⟩

/-- Guards that agree under an invariant of guarded steps guard the same runs. -/
theorem guarded_congr {first second : σ → ε → Prop} {step : σ → ε → σ} {inv : σ → List ε → Prop}
    (agree : ∀ state event ahead, inv state (event :: ahead) →
      (first state event ↔ second state event))
    (preserved : ∀ state event ahead, inv state (event :: ahead) → second state event →
      inv (step state event) ahead)
    {state : σ} {events : List ε} (initially : inv state events) :
    Guarded first step state events ↔ Guarded second step state events := by
  induction events generalizing state with
  | nil => exact Iff.rfl
  | cons event events ih =>
      rw [Guarded, Guarded, agree state event events initially]
      exact and_congr_right fun guarded => ih (preserved state event events initially guarded)

/-- Each state of a run is related to every later one. -/
def Ordered (relation : σ → σ → Prop) (step : σ → ε → σ) (state : σ) (events : List ε) : Prop :=
  ∀ earlier later, earlier ++ later <+: events →
    relation (run step state earlier) (run step state (earlier ++ later))

/-- A preorder relates the states of a run when it relates the two of each step. -/
theorem ordered_iff_guarded {relation : σ → σ → Prop} (refl : ∀ state, relation state state)
    (trans : ∀ first second third, relation first second → relation second third →
      relation first third)
    {step : σ → ε → σ} {state : σ} {events : List ε} :
    Ordered relation step state events ↔
      Guarded (fun state event => relation state (step state event)) step state events := by
  constructor
  · intro ordered
    induction events generalizing state with
    | nil => trivial
    | cons event events ih =>
        constructor
        · exact ordered [] [event] (by simp)
        · apply ih
          intro earlier later reached
          exact ordered (event :: earlier) later (by simpa using reached)
  · rintro guarded earlier later ⟨rest, rfl⟩
    have last := (guarded_append.mp (guarded_append.mp guarded).1).2
    rw [run_append]
    exact last.invariant (fun second event related next => trans _ _ _ related next)
      (refl (run step state earlier))

end Runs

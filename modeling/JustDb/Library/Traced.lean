import JustDb.Library.Stateful
import JustDb.Library.Runs

/-!
# Actions as runs of events

An action with an exception state is traced by a kind of events if, however it ends, it
leaves the state that some run of them reaches.  Sequences, choices and loops of traced
actions are traced, so a program is cut into events by the cuts of its calls.
-/

namespace Stateful

variable {ε σ α β ι : Type}

/-- Whatever its outcome, the action leaves a state that a run of events reaches. -/
def Traced (step : σ → ι → σ) (action : EStateM ε σ α) : Prop :=
  ∀ state, ∃ events, final (action state) = Runs.run step state events

variable {step : σ → ι → σ}

theorem traced_of_event {action : EStateM ε σ α} (event : ι)
    (same : ∀ state, final (action state) = step state event) : Traced step action :=
  fun state => ⟨[event], same state⟩

/-- An action that leaves every state as it is. -/
theorem traced_of_unchanged {action : EStateM ε σ α}
    (same : ∀ state, final (action state) = state) : Traced step action :=
  fun state => ⟨[], same state⟩

theorem traced_pure (value : α) : Traced step (pure value : EStateM ε σ α) :=
  traced_of_unchanged fun _ => rfl

theorem traced_lift (result : Except ε α) : Traced step (lift result : EStateM ε σ α) := by
  apply traced_of_unchanged
  intro state
  cases result <;> rfl

theorem Traced.bind {action : EStateM ε σ α} {next : α → EStateM ε σ β}
    (first : Traced step action) (second : ∀ value, Traced step (next value)) :
    Traced step (action >>= next) := by
  intro state
  obtain ⟨events, reached⟩ := first state
  rw [bind_eq]
  cases ran : action state with
  | ok value middle =>
      rw [ran] at reached
      obtain ⟨later, last⟩ := second value middle
      refine ⟨events ++ later, last.trans ?_⟩
      rw [Runs.run_append, ← reached]
      rfl
  | error failure middle =>
      rw [ran] at reached
      exact ⟨events, reached⟩

/-- What follows a look at the state may depend on it. -/
theorem traced_get_bind {next : σ → EStateM ε σ β} (traced : ∀ state, Traced step (next state)) :
    Traced step (get >>= next) :=
  (traced_of_unchanged fun _ => rfl).bind traced

theorem Traced.ite {condition : Prop} [Decidable condition] {yes no : EStateM ε σ α}
    (first : Traced step yes) (second : Traced step no) :
    Traced step (if condition then yes else no) := by
  split
  · exact first
  · exact second

theorem Traced.forM {action : α → EStateM ε σ PUnit} {items : List α}
    (each : ∀ item, Traced step (action item)) : Traced step (items.forM action) := by
  induction items with
  | nil => exact traced_pure _
  | cons item items ih => exact (each item).bind fun _ => ih

theorem Traced.foldlM {action : β → α → EStateM ε σ β} {items : List α}
    (each : ∀ found item, Traced step (action found item)) (found : β) :
    Traced step (items.foldlM action found) := by
  induction items generalizing found with
  | nil => exact traced_pure _
  | cons item items ih =>
      rw [List.foldlM_cons]
      exact (each found item).bind ih

end Stateful

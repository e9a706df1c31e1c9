/-!
# Fallible state transformers

Inversion and invariant rules for `EStateM`, whose actions either return a value
or fail, and keep the state reached in both cases.  A run that succeeded is
taken apart with `bind_eq_ok`, a run that failed with `bind_eq_error`.  `Keeps`
says that an action leaves a view of the state alone, `Ensures` that it keeps an
invariant or fails in a given way; both are built up along the code of an action.
Loops over a list are covered by the rules for `List.forM`.
-/

namespace Stateful

variable {ε σ α β : Type}

/-- Run a pure fallible computation without touching the state. -/
def lift (result : Except ε α) : EStateM ε σ α := fun state =>
  match result with
  | .ok value => .ok value state
  | .error failure => .error failure state

/-- The final state of a run, successful or not. -/
def final : EStateM.Result ε σ α → σ
  | .ok _ state => state
  | .error _ state => state

/-- What a run returned, without the state reached. -/
def outcome : EStateM.Result ε σ α → Except ε α
  | .ok value _ => .ok value
  | .error failure _ => .error failure

/-- Whether a run returned a value. -/
def succeeded : EStateM.Result ε σ α → Bool
  | .ok _ _ => true
  | .error _ _ => false

/-- A run that succeeds with a unit returned it in its final state. -/
theorem eq_ok_of_succeeded {result : EStateM.Result ε σ Unit}
    (returned : succeeded result = true) : result = .ok () (final result) := by
  cases result with
  | ok _ _ => rfl
  | error _ _ => cases returned

/-- A run that succeeds returns some value in its final state. -/
theorem exists_ok_of_succeeded {result : EStateM.Result ε σ α}
    (returned : succeeded result = true) : ∃ value, result = .ok value (final result) := by
  cases result with
  | ok value _ => exact ⟨value, rfl⟩
  | error _ _ => cases returned

@[simp] theorem final_ok (value : α) (state : σ) :
    final (.ok value state : EStateM.Result ε σ α) = state := rfl

@[simp] theorem final_error (failure : ε) (state : σ) :
    final (.error failure state : EStateM.Result ε σ α) = state := rfl

theorem bind_eq (action : EStateM ε σ α) (next : α → EStateM ε σ β) (state : σ) :
    (action >>= next) state =
      match action state with
      | .ok value reached => next value reached
      | .error failure reached => .error failure reached := rfl

@[simp] theorem pure_apply (value : α) (state : σ) :
    (pure value : EStateM ε σ α) state = .ok value state := rfl

@[simp] theorem get_apply (state : σ) :
    (get : EStateM ε σ σ) state = .ok state state := rfl

@[simp] theorem set_apply (next state : σ) :
    (set next : EStateM ε σ PUnit) state = .ok ⟨⟩ next := rfl

@[simp] theorem modify_apply (change : σ → σ) (state : σ) :
    (modify change : EStateM ε σ PUnit) state = .ok ⟨⟩ (change state) := rfl

@[simp] theorem throw_apply (failure : ε) (state : σ) :
    (throw failure : EStateM ε σ α) state = .error failure state := rfl

@[simp] theorem lift_ok (value : α) (state : σ) :
    (lift (.ok value) : EStateM ε σ α) state = .ok value state := rfl

@[simp] theorem lift_error (failure : ε) (state : σ) :
    (lift (.error failure) : EStateM ε σ α) state = .error failure state := rfl

theorem lift_eq_ok {result : Except ε α} {state reached : σ} {value : α} :
    lift result state = .ok value reached ↔ result = .ok value ∧ state = reached := by
  cases result <;> simp [lift]

theorem lift_eq_error {result : Except ε α} {state reached : σ} {failure : ε} :
    lift result state = .error failure reached ↔
      result = .error failure ∧ state = reached := by
  cases result <;> simp [lift]

/-- A sequence succeeds exactly when both parts do. -/
theorem bind_eq_ok {action : EStateM ε σ α} {next : α → EStateM ε σ β}
    {state reached : σ} {result : β} :
    (action >>= next) state = .ok result reached ↔
      ∃ value middle, action state = .ok value middle ∧
        next value middle = .ok result reached := by
  rw [bind_eq]
  cases action state with
  | ok value middle =>
      constructor
      · intro ran
        exact ⟨value, middle, rfl, ran⟩
      · rintro ⟨value, middle, equal, ran⟩
        cases equal
        exact ran
  | error failure middle => simp

/-- A sequence fails in its first part or, past it, in its second. -/
theorem bind_eq_error {action : EStateM ε σ α} {next : α → EStateM ε σ β}
    {state reached : σ} {failure : ε} :
    (action >>= next) state = .error failure reached ↔
      action state = .error failure reached ∨
        ∃ value middle, action state = .ok value middle ∧
          next value middle = .error failure reached := by
  rw [bind_eq]
  cases action state with
  | ok value middle =>
      constructor
      · intro ran
        exact .inr ⟨value, middle, rfl, ran⟩
      · rintro (failed | ⟨value, middle, equal, ran⟩)
        · cases failed
        · cases equal
          exact ran
  | error failure middle => simp

theorem bind_of_ok {action : EStateM ε σ α} {next : α → EStateM ε σ β}
    {state reached : σ} {value : α} (ran : action state = .ok value reached) :
    (action >>= next) state = next value reached := by
  rw [bind_eq, ran]

theorem bind_of_error {action : EStateM ε σ α} {next : α → EStateM ε σ β}
    {state reached : σ} {failure : ε}
    (ran : action state = .error failure reached) :
    (action >>= next) state = .error failure reached := by
  rw [bind_eq, ran]

/-- What is made of a result does not matter to the state. -/
theorem final_bind_pure (action : EStateM ε σ α) (use : α → β) (state : σ) :
    final ((action >>= fun value => pure (use value)) state) = final (action state) := by
  rw [bind_eq]
  cases action state <;> rfl

/-! ## Views that an action keeps -/

/-- Whether it succeeds or fails, the action leaves a view of the state as it was. -/
def Keeps {τ : Type} (view : σ → τ) (action : EStateM ε σ α) : Prop :=
  ∀ state, view (final (action state)) = view state

section Keeps

variable {τ : Type} {view : σ → τ}

theorem Keeps.of_ok {action : EStateM ε σ α} (kept : Keeps view action) {state reached : σ}
    {value : α} (ran : action state = .ok value reached) : view reached = view state := by
  have same := kept state
  rwa [ran] at same

theorem keeps_pure (value : α) : Keeps view (pure value : EStateM ε σ α) :=
  fun _ => rfl

theorem keeps_get : Keeps view (get : EStateM ε σ σ) :=
  fun _ => rfl

theorem keeps_lift (result : Except ε α) : Keeps view (lift result : EStateM ε σ α) := by
  intro state
  cases result <;> rfl

theorem Keeps.bind {action : EStateM ε σ α} {next : α → EStateM ε σ β}
    (first : Keeps view action) (second : ∀ value, Keeps view (next value)) :
    Keeps view (action >>= next) := by
  intro state
  have kept := first state
  rw [bind_eq]
  cases ran : action state with
  | ok value reached =>
      rw [ran] at kept
      exact (second value reached).trans kept
  | error failure reached =>
      rw [ran] at kept
      exact kept

theorem Keeps.ite {condition : Prop} [Decidable condition] {yes no : EStateM ε σ α}
    (first : Keeps view yes) (second : Keeps view no) :
    Keeps view (if condition then yes else no) := by
  split
  · exact first
  · exact second

theorem Keeps.forM {step : α → EStateM ε σ PUnit} {items : List α}
    (each : ∀ item, Keeps view (step item)) : Keeps view (items.forM step) := by
  induction items with
  | nil => exact keeps_pure _
  | cons item items ih => exact (each item).bind fun _ => ih

theorem Keeps.foldlM {step : β → α → EStateM ε σ β} {items : List α}
    (each : ∀ gathered item, Keeps view (step gathered item)) (start : β) :
    Keeps view (items.foldlM step start) := by
  induction items generalizing start with
  | nil => exact keeps_pure _
  | cons item items ih =>
      rw [List.foldlM_cons]
      exact (each start item).bind ih

end Keeps

/-! ## Invariants and failures -/

/-- From a state with the invariant, the action succeeds in a state with the invariant
or fails with an exit condition. -/
def Ensures (invariant : σ → Prop) (exit : ε → σ → Prop) (action : EStateM ε σ α) : Prop :=
  ∀ state, invariant state →
    match action state with
    | .ok _ reached => invariant reached
    | .error failure reached => exit failure reached

section Ensures

variable {invariant : σ → Prop} {exit : ε → σ → Prop}

theorem Ensures.of_ok {action : EStateM ε σ α} (ensured : Ensures invariant exit action)
    {state reached : σ} {value : α} (holds : invariant state)
    (ran : action state = .ok value reached) : invariant reached := by
  have kept := ensured state holds
  rwa [ran] at kept

theorem Ensures.of_error {action : EStateM ε σ α} (ensured : Ensures invariant exit action)
    {state reached : σ} {failure : ε} (holds : invariant state)
    (ran : action state = .error failure reached) : exit failure reached := by
  have failed := ensured state holds
  rwa [ran] at failed

theorem ensures_pure (value : α) : Ensures invariant exit (pure value : EStateM ε σ α) :=
  fun _ holds => holds

theorem ensures_lift {result : Except ε α}
    (admitted : ∀ failure state, result = .error failure → invariant state → exit failure state) :
    Ensures invariant exit (lift result : EStateM ε σ α) := by
  intro state holds
  cases result with
  | ok value => exact holds
  | error failure => exact admitted failure state rfl holds

theorem ensures_set {next : σ} (holds : invariant next) :
    Ensures invariant exit (set next : EStateM ε σ PUnit) :=
  fun _ _ => holds

theorem ensures_modify {change : σ → σ}
    (kept : ∀ state, invariant state → invariant (change state)) :
    Ensures invariant exit (modify change : EStateM ε σ PUnit) :=
  kept

theorem Ensures.bind {action : EStateM ε σ α} {next : α → EStateM ε σ β}
    (first : Ensures invariant exit action)
    (second : ∀ value, Ensures invariant exit (next value)) :
    Ensures invariant exit (action >>= next) := by
  intro state holds
  have kept := first state holds
  rw [bind_eq]
  cases ran : action state with
  | ok value reached =>
      rw [ran] at kept
      exact second value reached kept
  | error failure reached =>
      rw [ran] at kept
      exact kept

/-- What is read from the state has the invariant. -/
theorem ensures_get_bind {next : σ → EStateM ε σ β}
    (second : ∀ state, invariant state → Ensures invariant exit (next state)) :
    Ensures invariant exit (get >>= next) :=
  fun state holds => second state holds state holds

theorem Ensures.ite {condition : Prop} [Decidable condition] {yes no : EStateM ε σ α}
    (first : Ensures invariant exit yes) (second : Ensures invariant exit no) :
    Ensures invariant exit (if condition then yes else no) := by
  split
  · exact first
  · exact second

theorem Ensures.forM {step : α → EStateM ε σ PUnit} {items : List α}
    (each : ∀ item ∈ items, Ensures invariant exit (step item)) :
    Ensures invariant exit (items.forM step) := by
  induction items with
  | nil => exact ensures_pure _
  | cons item items ih =>
      exact (each item List.mem_cons_self).bind fun _ =>
        ih fun other member => each other (List.mem_cons_of_mem _ member)

theorem Ensures.foldlM {step : β → α → EStateM ε σ β} {items : List α}
    (each : ∀ gathered item, Ensures invariant exit (step gathered item)) (start : β) :
    Ensures invariant exit (items.foldlM step start) := by
  induction items generalizing start with
  | nil => exact ensures_pure _
  | cons item items ih =>
      rw [List.foldlM_cons]
      exact (each start item).bind ih

end Ensures

/-- The action keeps an invariant, whether it succeeds or fails. -/
abbrev Maintains (invariant : σ → Prop) (action : EStateM ε σ α) : Prop :=
  Ensures invariant (fun _ => invariant) action

theorem Maintains.final {invariant : σ → Prop} {action : EStateM ε σ α}
    (maintains : Maintains invariant action) {state : σ} (holds : invariant state) :
    invariant (final (action state)) := by
  have kept := maintains state holds
  cases ran : action state with
  | ok value reached =>
      rw [ran] at kept
      exact kept
  | error failure reached =>
      rw [ran] at kept
      exact kept

theorem maintains_of_final {invariant : σ → Prop} {action : EStateM ε σ α}
    (kept : ∀ state, invariant state → invariant (Stateful.final (action state))) :
    Maintains invariant action := by
  intro state holds
  have reached := kept state holds
  cases ran : action state with
  | ok value next =>
      rw [ran] at reached
      exact reached
  | error failure next =>
      rw [ran] at reached
      exact reached

/-! ## Invariants and returned values -/

/-- From a state with the invariant, the action returns a value with a property in a state
with the invariant, or fails with an exit condition. -/
def Yields (invariant : σ → Prop) (exit : ε → σ → Prop) (property : α → Prop)
    (action : EStateM ε σ α) : Prop :=
  ∀ state, invariant state →
    match action state with
    | .ok value reached => invariant reached ∧ property value
    | .error failure reached => exit failure reached

section Yields

variable {invariant : σ → Prop} {exit : ε → σ → Prop} {property : α → Prop} {other : β → Prop}

theorem yields_pure {value : α} (holds : property value) :
    Yields invariant exit property (pure value : EStateM ε σ α) :=
  fun _ kept => ⟨kept, holds⟩

theorem yields_lift {result : Except ε α}
    (holds : ∀ state value, invariant state → result = .ok value → property value)
    (admitted : ∀ failure state, result = .error failure → invariant state → exit failure state) :
    Yields invariant exit property (lift result : EStateM ε σ α) := by
  intro state kept
  cases result with
  | ok value => exact ⟨kept, holds state value kept rfl⟩
  | error failure => exact admitted failure state rfl kept

theorem Yields.bind {action : EStateM ε σ α} {next : α → EStateM ε σ β}
    (first : Yields invariant exit property action)
    (second : ∀ value, property value → Yields invariant exit other (next value)) :
    Yields invariant exit other (action >>= next) := by
  intro state holds
  have kept := first state holds
  rw [bind_eq]
  cases ran : action state with
  | ok value reached =>
      rw [ran] at kept
      exact second value kept.2 reached kept.1
  | error failure reached =>
      rw [ran] at kept
      exact kept

/-- What is read from the state has the invariant. -/
theorem yields_get_bind {next : σ → EStateM ε σ β}
    (second : ∀ state, invariant state → Yields invariant exit other (next state)) :
    Yields invariant exit other (get >>= next) :=
  fun state holds => second state holds state holds

theorem Yields.ite {condition : Prop} [Decidable condition] {yes no : EStateM ε σ α}
    (first : condition → Yields invariant exit property yes)
    (second : ¬condition → Yields invariant exit property no) :
    Yields invariant exit property (if condition then yes else no) := by
  split
  next holds => exact first holds
  next fails => exact second fails

theorem Yields.ensures {action : EStateM ε σ α}
    (yields : Yields invariant exit property action) : Ensures invariant exit action := by
  intro state holds
  have kept := yields state holds
  cases ran : action state with
  | ok value reached =>
      rw [ran] at kept
      exact kept.1
  | error failure reached =>
      rw [ran] at kept
      exact kept

theorem Ensures.yields {action : EStateM ε σ α} (ensured : Ensures invariant exit action) :
    Yields invariant exit (fun _ => True) action := by
  intro state holds
  have kept := ensured state holds
  cases ran : action state with
  | ok value reached =>
      rw [ran] at kept
      exact ⟨kept, trivial⟩
  | error failure reached =>
      rw [ran] at kept
      exact kept

/-- A loop that gathers a value keeps what each of its steps keeps. -/
theorem Yields.foldlM {step : β → α → EStateM ε σ β} {items : List α}
    (each : ∀ gathered item, item ∈ items → other gathered →
      Yields invariant exit other (step gathered item))
    {start : β} (holds : other start) :
    Yields invariant exit other (items.foldlM step start) := by
  induction items generalizing start with
  | nil => exact yields_pure holds
  | cons item items ih =>
      rw [List.foldlM_cons]
      refine (each start item List.mem_cons_self holds).bind fun gathered holds => ?_
      exact ih (fun gathered other member => each gathered other (List.mem_cons_of_mem _ member))
        holds

end Yields

/-! ## Loops over a list -/

theorem forM_cons (step : α → EStateM ε σ PUnit) (head : α) (tail : List α) :
    (head :: tail).forM step = (do step head; tail.forM step) := rfl

theorem forM_append (step : α → EStateM ε σ PUnit) (first second : List α) :
    (first ++ second).forM step = (do first.forM step; second.forM step) :=
  List.forM_append

/-- A loop whose steps leave the state alone leaves it alone. -/
theorem forM_of_unchanged {step : α → EStateM ε σ PUnit} {state : σ}
    (unchanged : ∀ item, step item state = .ok ⟨⟩ state) (items : List α) :
    items.forM step state = .ok ⟨⟩ state := by
  induction items with
  | nil => rfl
  | cons item items ih => rw [forM_cons, bind_of_ok (unchanged item), ih]

/-- Only the items of the list matter. -/
theorem forM_of_unchanged_of_mem {step : α → EStateM ε σ PUnit} {state : σ} {items : List α}
    (unchanged : ∀ item ∈ items, step item state = .ok ⟨⟩ state) :
    items.forM step state = .ok ⟨⟩ state := by
  induction items with
  | nil => rfl
  | cons item items ih =>
      obtain ⟨first, rest⟩ := List.forall_mem_cons.mp unchanged
      rw [forM_cons, bind_of_ok first, ih rest]

/-- A successful loop keeps every relation that its steps keep. -/
theorem forM_ok_induction {step : α → EStateM ε σ PUnit}
    {invariant : List α → σ → Prop}
    (preserved : ∀ done item before after, invariant done before →
      step item before = .ok ⟨⟩ after → invariant (done ++ [item]) after)
    {items : List α} {done : List α} {start reached : σ}
    (initially : invariant done start)
    (ran : items.forM step start = .ok ⟨⟩ reached) :
    invariant (done ++ items) reached := by
  induction items generalizing done start with
  | nil =>
      cases ran
      simpa using initially
  | cons item items ih =>
      obtain ⟨⟨⟩, middle, stepped, rest⟩ := bind_eq_ok.mp ran
      have kept := ih (preserved done item start middle initially stepped) rest
      simpa using kept

/-- A loop fails at one of its items, after the steps before it have succeeded. -/
theorem forM_eq_error {step : α → EStateM ε σ PUnit} {items : List α} {start reached : σ}
    {failure : ε} (ran : items.forM step start = .error failure reached) :
    ∃ done item rest before, items = done ++ item :: rest ∧
      done.forM step start = .ok ⟨⟩ before ∧ step item before = .error failure reached := by
  induction items generalizing start with
  | nil => cases ran
  | cons item items ih =>
      rw [forM_cons, bind_eq_error] at ran
      cases ran with
      | inl failed => exact ⟨[], item, items, start, rfl, rfl, failed⟩
      | inr later =>
          obtain ⟨⟨⟩, middle, stepped, failed⟩ := later
          obtain ⟨done, other, rest, before, split, succeeded, failed⟩ := ih failed
          refine ⟨item :: done, other, rest, before, by rw [split]; rfl, ?_, failed⟩
          rw [forM_cons, bind_of_ok stepped]
          exact succeeded

end Stateful

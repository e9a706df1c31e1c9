import JustDb.Library.Runs
import JustDb.Library.Stateful

/-!
# Write-behind logs

A recorder takes items one after another, keeps the latest of them in memory and moves
them to durable storage from the oldest on.  If every step keeps the log that way, then
whenever a run stops, what is durable is a prefix of the items, and an item that is not
in the prefix was in memory from when it was taken.
-/

namespace WriteBehind

open Stateful

variable {ε σ ι : Type}

/-- The state that taking an item leaves behind. -/
def after (record : ι → EStateM ε σ PUnit) (state : σ) (item : ι) : σ :=
  final (record item state)

theorem guarded_of_taken {record : ι → EStateM ε σ PUnit} {guard : σ → ι → Prop} {item : ι}
    {items : List ι} {state middle : σ}
    (guarded : Runs.Guarded guard (after record) state (item :: items))
    (taken : record item state = .ok ⟨⟩ middle) :
    Runs.Guarded guard (after record) middle items := by
  have ahead := guarded.2
  rwa [after, taken] at ahead

/-- A recorder of items.  `logged durable pending` describes the states between two items,
`recoverable durable` what a step may leave behind when it fails, and `Holds` the items
that are in memory. -/
structure Recorder (record : ι → EStateM ε σ PUnit) (guard : σ → ι → Prop)
    (Holds : σ → ι → Prop) (logged : List ι → List ι → σ → Prop)
    (recoverable : List ι → σ → Prop) : Prop where
  recover : ∀ {durable pending state}, logged durable pending state → recoverable durable state
  held : ∀ {durable pending state}, logged durable pending state →
    ∀ item ∈ pending, Holds state item
  recorded : ∀ {durable pending state item reached}, logged durable pending state →
    guard state item → record item state = .ok ⟨⟩ reached →
    ∃ moved left, pending ++ [item] = moved ++ left ∧ logged (durable ++ moved) left reached
  broken : ∀ {durable pending state item failure reached}, logged durable pending state →
    guard state item → record item state = .error failure reached →
    ∃ moved, moved <+: pending ∧ recoverable (durable ++ moved) reached

namespace Recorder

variable {record : ι → EStateM ε σ PUnit} {guard Holds : σ → ι → Prop}
  {logged : List ι → List ι → σ → Prop} {recoverable : List ι → σ → Prop}

/-- A run that takes every item moves some of them. -/
theorem run (recorder : Recorder record guard Holds logged recoverable)
    {durable pending items : List ι} {state reached : σ} (start : logged durable pending state)
    (guarded : Runs.Guarded guard (after record) state items)
    (ran : items.forM record state = .ok ⟨⟩ reached) :
    ∃ moved left, pending ++ items = moved ++ left ∧
      logged (durable ++ moved) left reached := by
  induction items generalizing durable pending state with
  | nil =>
      cases ran
      exact ⟨[], pending, List.append_nil _, by rwa [List.append_nil]⟩
  | cons item items ih =>
      obtain ⟨⟨⟩, middle, stepped, rest⟩ := bind_eq_ok.mp ran
      obtain ⟨first, between, split, now⟩ := recorder.recorded start guarded.1 stepped
      obtain ⟨second, left, later, reachedLog⟩ := ih now (guarded_of_taken guarded stepped) rest
      refine ⟨first ++ second, left, ?_, ?_⟩
      · calc
          pending ++ item :: items = pending ++ [item] ++ items := by simp
          _ = first ++ (between ++ items) := by rw [split, List.append_assoc]
          _ = first ++ second ++ left := by rw [later, List.append_assoc]
      · rwa [← List.append_assoc]

/-- Before anything is taken, what is pending is in memory. -/
theorem untaken (recorder : Recorder record guard Holds logged recoverable)
    {durable pending : List ι} {state before : σ} (start : logged durable pending state)
    (moved : List ι) (ran : [].forM record state = .ok ⟨⟩ before) :
    ∀ item ∈ (pending ++ []).drop moved.length, Holds before item := by
  intro item member
  cases ran
  rw [List.append_nil] at member
  exact recorder.held start item (List.mem_of_mem_drop member)

/-- Wherever a run stops, a prefix of the items is durable, and the items behind it were
in memory at every point of the run where they had been taken. -/
theorem stopped (recorder : Recorder record guard Holds logged recoverable)
    {durable pending items : List ι} {state : σ} (start : logged durable pending state)
    (guarded : Runs.Guarded guard (after record) state items) :
    ∃ moved, moved <+: pending ++ items ∧
      recoverable (durable ++ moved) (final (items.forM record state)) ∧
      ∀ taken before, taken <+: items → taken.forM record state = .ok ⟨⟩ before →
        ∀ item ∈ (pending ++ taken).drop moved.length, Holds before item := by
  induction items generalizing durable pending state with
  | nil =>
      refine ⟨[], List.nil_prefix, ?_, fun taken before none ran => ?_⟩
      · rw [List.append_nil]
        exact recorder.recover start
      · cases List.prefix_nil.mp none
        exact recorder.untaken start [] ran
  | cons item items ih =>
      cases stepped : record item state with
      | error failure reached =>
          obtain ⟨moved, oldest, left⟩ := recorder.broken start guarded.1 stepped
          refine ⟨moved, oldest.trans (List.prefix_append _ _), ?_, ?_⟩
          · rw [forM_cons, bind_of_error stepped]
            exact left
          · intro taken before some ran
            cases taken with
            | nil => exact recorder.untaken start moved ran
            | cons first taken =>
                cases (List.cons_prefix_cons.mp some).1
                rw [forM_cons, bind_of_error stepped] at ran
                cases ran
      | ok _ middle =>
          obtain ⟨first, between, split, now⟩ := recorder.recorded start guarded.1 stepped
          obtain ⟨second, oldest, left, held⟩ := ih now (guarded_of_taken guarded stepped)
          have joined : ∀ others, pending ++ item :: others = first ++ (between ++ others) := by
            intro others
            rw [← List.append_assoc, ← split, List.append_assoc]
            rfl
          refine ⟨first ++ second, ?_, ?_, ?_⟩
          · rw [joined]
            exact (List.prefix_append_right_inj first).mpr oldest
          · rw [forM_cons, bind_of_ok stepped, ← List.append_assoc]
            exact left
          · intro taken before some ran
            cases taken with
            | nil => exact recorder.untaken start _ ran
            | cons other taken =>
                obtain ⟨rfl, rest⟩ := List.cons_prefix_cons.mp some
                rw [forM_cons, bind_of_ok stepped] at ran
                rw [joined, List.length_append, ← List.drop_drop, List.drop_left]
                exact held taken before rest ran

end Recorder

end WriteBehind

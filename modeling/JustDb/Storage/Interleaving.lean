import JustDb.Storage.InMemory
import JustDb.Storage.Compaction
import JustDb.Library.Runs

/-!
# A compaction of level 0 among flushes

The compaction takes its locks twice: to copy the table lists, and to put the
merged tables in their place.  Flushes push tables in between.  Here the
compaction runs one atomic step at a time, and any number of pushes may come
between two of its steps.
-/

namespace JustDb

open Stateful Machine

variable {World Table : Type}

/-- Where a compaction of level 0 stands between its atomic steps. -/
inductive Phase (Table : Type) where
  | idle
  | snapshotted (l0Tables l1Tables : List Table)
  | built (l0Tables l1Tables newL1Tables : List Table)
  | swapped (oldTables : List Table)
  | finished
  deriving DecidableEq

/-- The machine that the tasks share, the compaction's progress, the level-0 tables of
its snapshot, and every table pushed to level 0 so far. -/
structure Shared (World Table : Type) where
  machine : Machine World Table
  phase : Phase Table
  snapshot : List Table
  pushed : List Table

/-- What happens next: the compaction takes its next step, or a flush pushes its table
in a world that other tasks have changed meanwhile. -/
inductive Event (World Table : Type) where
  | compaction
  | push (table : Table) (world : World)

namespace Shared

variable (platform : Platform World Table)

/-- Before the compaction starts; the tables of level 0 have been pushed before. -/
def start (machine : Machine World Table) : Shared World Table where
  machine
  phase := .idle
  snapshot := []
  pushed := machine.engine.tables 0

/-- The compaction's next atomic step. -/
def advance (shared : Shared World Table) : Shared World Table :=
  match shared.phase with
  | .idle =>
      let l0Tables := shared.machine.engine.tables 0
      let l1Tables := shared.machine.engine.tables 1
      if l0Tables.isEmpty then { shared with phase := .finished }
      else { shared with phase := .snapshotted l0Tables l1Tables, snapshot := l0Tables }
  | .snapshotted l0Tables l1Tables =>
      match mergeInto platform 0 l0Tables l1Tables shared.machine with
      | .ok newL1Tables machine =>
          { shared with machine, phase := .built l0Tables l1Tables newL1Tables }
      | .error _ machine => { shared with machine, phase := .finished }
  | .built l0Tables l1Tables newL1Tables =>
      { shared with
        machine := final (swapIn 0 newL1Tables shared.machine)
        phase := .swapped (l0Tables ++ l1Tables) }
  | .swapped oldTables =>
      { shared with
        machine := final (deleteOldFiles platform oldTables shared.machine)
        phase := .finished }
  | .finished => shared

def step (shared : Shared World Table) : Event World Table → Shared World Table
  | .compaction => shared.advance platform
  | .push table world =>
      { shared with
        machine := { engine := shared.machine.engine.pushLevel0 table, world }
        pushed := shared.pushed ++ [table] }

/-- Left alone, the steps make up `compact_l0_to_l1`. -/
theorem machine_run_alone (machine : Machine World Table) :
    (Runs.run (step platform) (start machine) (List.replicate 4 .compaction)).machine =
      final (compactL0ToL1 platform machine) := by
  rw [compactL0ToL1, compactInto, bind_eq, get_apply]
  simp only [List.replicate, Runs.run_cons, Runs.run_nil, step]
  by_cases empty : (machine.engine.tables 0).isEmpty
  · simp [start, advance, empty]
  · have snapshotted : (start machine).advance platform = { start machine with
        phase := .snapshotted (machine.engine.tables 0) (machine.engine.tables 1)
        snapshot := machine.engine.tables 0 } := by
      simp [start, advance, empty]
    rw [snapshotted, if_neg empty, bind_eq]
    cases merged : mergeInto platform 0 (machine.engine.tables 0) (machine.engine.tables 1)
        machine with
    | error fault reached => simp only [advance, start, merged, final_error]
    | ok newTables reached =>
        simp only [advance, start, merged, swapIn, bind_eq, onEngine_apply, final_ok]

/-- No table pushed to level 0 is lost: it took part in the merge, or it is there. -/
def NothingLost (shared : Shared World Table) : Prop :=
  ∀ table ∈ shared.pushed, table ∈ shared.snapshot ∨ table ∈ shared.machine.engine.tables 0

instance [DecidableEq Table] (shared : Shared World Table) : Decidable shared.NothingLost :=
  inferInstanceAs (Decidable (∀ table ∈ shared.pushed, _))

/-- The condition on a step: when the compaction swaps its tables in, level 0 holds no
table pushed since the snapshot. -/
def Undisturbed (shared : Shared World Table) : Event World Table → Prop
  | .compaction =>
      match shared.phase with
      | .built _ _ _ => ∀ table ∈ shared.machine.engine.tables 0, table ∈ shared.snapshot
      | _ => True
  | .push _ _ => True

/-! ## What the steps keep -/

/-- Nothing is lost, level 0 holds pushed tables only, and the snapshot is empty until
it is taken. -/
structure Inv (shared : Shared World Table) : Prop where
  nothingLost : shared.NothingLost
  pushed : ∀ table ∈ shared.machine.engine.tables 0, table ∈ shared.pushed
  unread : shared.phase = .idle → shared.snapshot = []

theorem inv_start (machine : Machine World Table) : (start machine).Inv where
  nothingLost := fun _ member => .inr member
  pushed := fun _ member => member
  unread := fun _ => rfl

/-- Steps that leave the level-0 list, the snapshot and the pushed tables alone. -/
theorem Inv.of_eq {before after : Shared World Table} (inv : before.Inv)
    (level0 : after.machine.engine.tables 0 = before.machine.engine.tables 0)
    (snapshot : after.snapshot = before.snapshot) (pushed : after.pushed = before.pushed)
    (started : after.phase ≠ .idle) : after.Inv where
  nothingLost := by
    intro table member
    rw [snapshot, level0]
    exact inv.nothingLost table (pushed ▸ member)
  pushed := by
    intro table member
    rw [pushed]
    exact inv.pushed table (level0 ▸ member)
  unread := fun idle => absurd idle started

theorem Inv.push {shared : Shared World Table} (inv : shared.Inv) (table : Table)
    (world : World) : (shared.step platform (.push table world)).Inv where
  nothingLost := by
    intro other member
    have level0 : (shared.step platform (.push table world)).machine.engine.tables 0 =
        shared.machine.engine.tables 0 ++ [table] := StorageEngine.tables_setLevel_self _ _ _
    rw [level0]
    rcases List.mem_append.mp member with earlier | last
    · exact (inv.nothingLost other earlier).imp id (List.mem_append_left _)
    · exact .inr (List.mem_append_right _ last)
  pushed := by
    intro other member
    have level0 : (shared.step platform (.push table world)).machine.engine.tables 0 =
        shared.machine.engine.tables 0 ++ [table] := StorageEngine.tables_setLevel_self _ _ _
    rw [level0] at member
    exact (List.mem_append.mp member).elim
      (fun earlier => List.mem_append_left _ (inv.pushed other earlier))
      (List.mem_append_right _)
  unread := inv.unread

/-- The swap-in empties level 0. -/
theorem tables_swapIn (newTables : List Table) (machine : Machine World Table) :
    (final (swapIn 0 newTables machine)).engine.tables 0 = [] := by
  simp [swapIn, StorageEngine.tables_setLevel]

/-- An undisturbed step of the compaction keeps the invariant. -/
theorem Inv.advance {shared : Shared World Table} (inv : shared.Inv)
    (undisturbed : shared.Undisturbed .compaction) : (shared.advance platform).Inv := by
  rw [Shared.advance]
  cases progress : shared.phase with
  | idle =>
      simp only
      split
      · exact inv.of_eq rfl rfl rfl (by simp)
      · refine ⟨fun table member => .inr ?_, inv.pushed, by simp⟩
        refine (inv.nothingLost table member).resolve_left fun taken => ?_
        rw [inv.unread progress] at taken
        cases taken
  | snapshotted l0Tables l1Tables =>
      have kept := keeps_mergeInto platform (fun engine => engine.tables 0) (fun _ _ => rfl) 0
        l0Tables l1Tables shared.machine
      simp only
      split
      next newTables reached ran =>
        rw [ran] at kept
        exact inv.of_eq kept rfl rfl (by simp)
      next fault reached ran =>
        rw [ran] at kept
        exact inv.of_eq kept rfl rfl (by simp)
  | built l0Tables l1Tables newTables =>
      have covered : ∀ table ∈ shared.machine.engine.tables 0, table ∈ shared.snapshot := by
        simpa [Undisturbed, progress] using undisturbed
      refine ⟨fun table member => .inl ?_, ?_, by simp⟩
      · exact (inv.nothingLost table member).elim id (covered table)
      · intro table member
        simp only [tables_swapIn] at member
        cases member
  | swapped oldTables =>
      have kept := keeps_deleteOldFiles platform oldTables shared.machine
      exact inv.of_eq (congrArg (fun engine => engine.tables 0) kept) rfl rfl (by simp)
  | finished => exact inv

/-- Nothing is lost in any state of an interleaving exactly when every swap-in finds
level 0 as the snapshot left it. -/
theorem nothingLost_throughout_iff (machine : Machine World Table)
    (events : List (Event World Table)) :
    Runs.Throughout NothingLost (step platform) (start machine) events ↔
      Runs.Guarded Undisturbed (step platform) (start machine) events := by
  have holds : ∀ shared : Shared World Table, shared.Inv → shared.NothingLost :=
    fun _ inv => inv.nothingLost
  refine Runs.throughout_iff_guarded holds ?_ ?_ (inv_start machine) events
  · intro shared event inv undisturbed
    cases event with
    | compaction => exact inv.advance platform undisturbed
    | push table world => exact inv.push platform table world
  · intro shared event inv kept
    cases event with
    | push table world => trivial
    | compaction =>
        cases progress : shared.phase with
        | built l0Tables l1Tables newTables =>
            simp only [Undisturbed, progress]
            intro table member
            have emptied : (shared.step platform .compaction).machine.engine.tables 0 = [] := by
              simp only [step, Shared.advance, progress, tables_swapIn]
            have unread : (shared.step platform .compaction).snapshot = shared.snapshot := by
              simp only [step, Shared.advance, progress]
            have pushed : (shared.step platform .compaction).pushed = shared.pushed := by
              simp only [step, Shared.advance, progress]
            have after := kept table (pushed ▸ inv.pushed table member)
            rw [emptied, unread] at after
            exact after.resolve_right List.not_mem_nil
        | _ => simp [Undisturbed, progress]

/-- One table in level 0, and the table that a flush pushes next. -/
def oneTable : Machine MemoryWorld MemoryTable where
  engine := (StorageEngine.fresh MemoryWorld.smallConfig).setLevel 0
    [{ path := ['0'], entries := [⟨[1], some [10], 0, 1⟩], createdAt := 0 }]
  world := { files := [], clock := 0, failures := [] }

def flushed : MemoryTable :=
  { path := ['1'], entries := [⟨[2], some [20], 0, 2⟩], createdAt := 0 }

/-- A push between the snapshot and the swap-in is lost. -/
theorem push_after_snapshot_lost :
    ¬(Runs.run (step MemoryWorld.platform) (start oneTable)
        [.compaction, .push flushed oneTable.world, .compaction, .compaction]).NothingLost := by
  decide +kernel

end Shared

end JustDb

import JustDb.Storage.CleanShutdown
import JustDb.Storage.Levels

/-!
# Which levels are read

`get` and `scan` go through the levels below `max_levels`.  A compaction of level 0
fills level 1 under every configuration, and `validate` accepts a single level: the
tables of level 1 would then never be read again.  On the table files of the repository
it does not come to that: no table that is built opens, so there is none to move.
-/

namespace JustDb

open Stateful Machine

variable {World Table : Type}

namespace StorageEngine

/-- Every level that holds tables is one of those that `get` and `scan` go through. -/
def AllReadable (engine : StorageEngine Table) : Prop :=
  ∀ level, engine.tables level ≠ [] → level ∈ List.range engine.config.maxLevels

/-- The levels that `run_compaction` compacts: level 0 once it holds enough tables, and a
deeper one, but for the last two, once it holds enough bytes. -/
def Chooses (ops : TableOps Table) (engine : StorageEngine Table) (level : Nat) : Prop :=
  if level = 0 then
    (engine.tables 0).length ≥ engine.config.l0CompactionThreshold
  else
    level ∈ List.range' 1 (engine.config.maxLevels - 2) ∧
      engine.levelNeedsCompaction ops level = .ok true

/-- A compaction of level 0 has a readable level to fill, or is not due, or finds nothing
but delete markers. -/
def ReadableBelow (ops : TableOps Table) (engine : StorageEngine Table) : Prop :=
  2 ≤ engine.config.maxLevels ∨
    (engine.tables 0).length < engine.config.l0CompactionThreshold ∨
    ∀ merged, mergeSstables ops (engine.tables 0) (engine.tables 1) = .ok merged → merged = []

end StorageEngine

namespace LevelStep

variable (platform : Platform World Table)

/-- A compaction is of a level that `run_compaction` chooses. -/
def Chosen (machine : Machine World Table) : LevelStep → Prop
  | .compact level => machine.engine.Chooses platform.toTableOps level
  | _ => True

/-- A step that compacts level 0 leaves its tables where they are read. -/
def StaysReadable (machine : Machine World Table) : LevelStep → Prop
  | .compact level => level = 0 → machine.engine.ReadableBelow platform.toTableOps
  | .runCompaction => machine.engine.ReadableBelow platform.toTableOps
  | _ => True

end LevelStep

namespace Machine

variable {platform : Platform World Table}

theorem config_compactInto (level : Nat) (machine : Machine World Table) :
    (final (compactInto platform level machine)).engine.config = machine.engine.config := by
  rcases compactInto_reached platform level machine with ⟨same, _⟩ | ⟨_, merged⟩
  · exact same
  · exact merged.config

/-- A compaction into a readable level, or of delete markers only. -/
theorem allReadable_compactInto {level : Nat} {machine : Machine World Table}
    (readable : machine.engine.AllReadable)
    (room : level + 1 < machine.engine.config.maxLevels ∨
      ∀ merged, StorageEngine.mergeSstables platform.toTableOps (machine.engine.tables level)
        (machine.engine.tables (level + 1)) = .ok merged → merged = []) :
    (final (compactInto platform level machine)).engine.AllReadable := by
  rcases compactInto_reached platform level machine with ⟨same, tables⟩ | ⟨_, merged⟩
  · intro other filled
    rw [tables] at filled
    rw [same]
    exact readable other filled
  · obtain ⟨same, entries, targetSize, newTables, listed, made, tables⟩ := merged
    intro other filled
    rw [tables] at filled
    rw [same]
    split at filled
    next below =>
      subst below
      rcases room with inside | nothing
      · exact List.mem_range.mpr inside
      · cases nothing entries listed
        cases made
        exact absurd rfl filled
    next =>
      split at filled
      · exact absurd rfl filled
      · exact readable other filled

/-- With two levels or fewer `run_compaction` has level 0 to look at only. -/
theorem runCompaction_of_shallow {machine : Machine World Table}
    (shallow : machine.engine.config.maxLevels ≤ 2) :
    runCompaction platform machine =
      if (machine.engine.tables 0).length ≥ machine.engine.config.l0CompactionThreshold then
        compactInto platform 0 machine
      else .ok () machine := by
  have none : List.range' 1 (machine.engine.config.maxLevels - 2) = [] := by
    rw [Nat.sub_eq_zero_of_le shallow]
    rfl
  rw [runCompaction, bind_eq, get_apply]
  dsimp only
  rw [none]
  split
  · rw [compactL0ToL1, bind_eq]
    cases Machine.compactInto platform 0 machine <;> rfl
  · rfl

end Machine

/-- An engine of a given configuration whose tables are all readable. -/
structure Readable (config : Config) (machine : Machine World Table) : Prop where
  configured : machine.engine.config = config
  all : machine.engine.AllReadable

namespace Readable

variable {platform : Platform World Table} {config : Config}

theorem compactInto {level : Nat} {machine : Machine World Table}
    (readable : Readable config machine)
    (room : level + 1 < config.maxLevels ∨
      ∀ merged, StorageEngine.mergeSstables platform.toTableOps (machine.engine.tables level)
        (machine.engine.tables (level + 1)) = .ok merged → merged = []) :
    Readable config (final (Machine.compactInto platform level machine)) := by
  refine ⟨(config_compactInto level machine).trans readable.configured, ?_⟩
  apply allReadable_compactInto readable.all
  rwa [readable.configured]

/-- The levels below level 0 that `run_compaction` chooses have a readable one below. -/
theorem inside_of_mem_range' {level : Nat} (member : level ∈ List.range' 1 (config.maxLevels - 2)) :
    level + 1 < config.maxLevels := by
  have bounds := List.mem_range'_1.mp member
  omega

theorem runCompaction {machine : Machine World Table} (readable : Readable config machine)
    (below : machine.engine.ReadableBelow platform.toTableOps) :
    Readable config (final (Machine.runCompaction platform machine)) := by
  by_cases two : 2 ≤ config.maxLevels
  · refine (maintains_runCompaction (fun _ readable => readable.configured) ?_ ?_).final readable
    · exact maintains_of_final fun _ readable => readable.compactInto (.inl two)
    · intro level chosen
      refine maintains_of_final fun _ readable => readable.compactInto (.inl ?_)
      exact inside_of_mem_range' chosen
  · have single : machine.engine.config.maxLevels ≤ 2 := by
      rw [readable.configured]
      exact (Nat.lt_of_not_le two).le
    rw [runCompaction_of_shallow single]
    split
    next due =>
      rw [StorageEngine.ReadableBelow, readable.configured] at below
      rw [readable.configured] at due
      rcases below with deep | notDue | nothing
      · exact absurd deep two
      · exact absurd notDue (Nat.not_lt_of_le due)
      · exact readable.compactInto (.inr nothing)
    next => exact readable

/-- A step whose compactions are chosen and stay readable. -/
theorem perform {machine : Machine World Table} (readable : Readable config machine)
    (valid : config.validate = .ok ()) {step : LevelStep}
    (chosen : step.Chosen platform machine) (stays : step.StaysReadable platform machine) :
    Readable config (step.perform platform machine) := by
  have untouched : ∀ {reached : Machine World Table},
      reached.engine.deeper = machine.engine.deeper → Readable config reached := by
    intro reached same
    have configured : reached.engine.config = machine.engine.config := congrArg Prod.fst same
    refine ⟨configured.trans readable.configured, fun level filled => ?_⟩
    rw [configured]
    by_cases top : level = 0
    · rw [top, readable.configured]
      exact List.mem_range.mpr (Config.maxLevels_pos valid)
    · rw [StorageEngine.tables_of_deeper same top] at filled
      exact readable.all level filled
  cases step with
  | write call => exact untouched (belowLevel0_deeper.run platform call machine)
  | flush memtable =>
      exact untouched (belowLevel0_deeper.flushMemtable platform memtable machine)
  | runCompaction => exact readable.runCompaction stays
  | compact level =>
      refine readable.compactInto ?_
      by_cases top : level = 0
      · subst top
        rw [LevelStep.Chosen, StorageEngine.Chooses, if_pos rfl] at chosen
        rcases stays rfl with two | notDue | nothing
        · rw [readable.configured] at two
          exact .inl two
        · exact absurd notDue (Nat.not_lt_of_le chosen)
        · exact .inr nothing
      · rw [LevelStep.Chosen, StorageEngine.Chooses, if_neg top, readable.configured] at chosen
        exact .inl (inside_of_mem_range' chosen.1)

end Readable

/-! ## On disk -/

/-- On disk a level of tables that have been made is empty. -/
theorem Disk.eq_nil_of_sortedRun {external : External} {host : Host} {config : Config}
    {tables : List SSTableReader}
    (run : SortedRun (Disk.platform external host) config tables) : tables = [] := by
  obtain ⟨chunks, made, nonempty, -⟩ := run
  cases made with
  | nil => rfl
  | cons first _ =>
      obtain ⟨path, disk, reached, ran⟩ := first
      exact absurd ran (Disk.makeTable_ne_ok (nonempty _ List.mem_cons_self))

/-- In every run of writes, flushes and compactions, whichever levels they are of, of an
engine opened on an empty directory, all tables are where they are read. -/
theorem LevelStep.tables_stay_readable {external : External} {host : Host} {config : Config}
    {disk : Disk} {machine : Machine Disk SSTableReader} (empty : disk.files = [])
    (opened : openEngine (Disk.platform external host) config disk = .ok () machine)
    (steps : List LevelStep) :
    Runs.Throughout (fun reached => reached.engine.AllReadable)
      (perform (Disk.platform external host)) machine steps := by
  have illegible : disk.Illegible := by
    intro file member
    rw [empty] at member
    cases member
  obtain ⟨valid, rfl⟩ := Disk.openEngine_eq_ok illegible opened
  have start : SortedLevels (Disk.platform external host) config
      { engine := .fresh config, world := disk } :=
    ⟨rfl, fun _ _ => sortedRun_nil _ _⟩
  refine Runs.throughout_of_invariant (fun reached sorted => ?_)
    (fun _ step sorted => sorted.perform step) start steps
  intro level filled
  by_cases top : level = 0
  · rw [top, sorted.configured]
    exact List.mem_range.mpr (Config.maxLevels_pos valid)
  · exact absurd (Disk.eq_nil_of_sortedRun (sorted.runs level top)) filled

/-! ## On any platform -/

namespace LevelStep

variable {platform : Platform World Table} {config : Config}

/-- In every run of an engine opened on an empty directory whose compactions are those
that `run_compaction` chooses, all tables stay readable, as long as no compaction of
level 0 finds values to move and a configuration of one level. -/
theorem all_tables_readable {world listed : World} {machine : Machine World Table}
    (empty : platform.readDir world = .ok [] listed)
    (opened : openEngine platform config world = .ok () machine) (steps : List LevelStep)
    (chosen : Runs.Guarded (Chosen platform) (perform platform) machine steps)
    (stays : Runs.Guarded (StaysReadable platform) (perform platform) machine steps) :
    Runs.Throughout (fun reached => reached.engine.AllReadable) (perform platform) machine
      steps := by
  obtain ⟨valid, fresh⟩ := openEngine_empty_eq_ok empty opened
  have start : Readable config machine := by
    refine ⟨congrArg StorageEngine.config fresh, fun level filled => ?_⟩
    rw [fresh] at filled
    exact absurd rfl filled
  exact (chosen.and stays).throughout (fun _ readable => readable.all)
    (fun _ _ readable guards => readable.perform valid guards.1 guards.2) start

/-- Level 0 is compacted as soon as it holds a table. -/
private def eagerConfig (maxLevels : Nat) : Config :=
  { memtableSizeThreshold := 1, maxMemtables := 1, maxLevels, l0CompactionThreshold := 1 }

private def eagerStart (maxLevels : Nat) : Machine MemoryWorld MemoryTable where
  engine := .fresh (eagerConfig maxLevels)
  world := { files := [], clock := 0, failures := [] }

private theorem eagerStart_opened {maxLevels : Nat}
    (valid : (eagerConfig maxLevels).validate = .ok ()) :
    openEngine MemoryWorld.platform (eagerConfig maxLevels) (eagerStart maxLevels).world =
      .ok () (eagerStart maxLevels) :=
  openEngine_empty rfl valid

/-- Three writes, of which the third flushes the first, and a turn of `run_compaction`. -/
private def flushAndCompact : List LevelStep :=
  [.write (.put [1] [10]), .write (.put [2] [20]), .write (.put [3] [30]), .runCompaction]

private def settledHost : Host where
  clock _ := 1000000
  order := id
  lists := .refl

theorem tables_stay_readable_oneLevel :
    Runs.Throughout (fun reached => reached.engine.AllReadable)
      (perform (Disk.platform .plain settledHost))
      { engine := .fresh (eagerConfig 1), world := { files := [], ticks := 0 } }
      flushAndCompact :=
  have empty : (Disk.platform .plain settledHost).readDir { files := [], ticks := 0 } =
      .ok [] { files := [], ticks := 0 } := rfl
  tables_stay_readable rfl (openEngine_empty empty (by decide +kernel)) flushAndCompact

theorem all_tables_readable_twoLevels :
    Runs.Throughout (fun reached => reached.engine.AllReadable) (perform MemoryWorld.platform)
      (eagerStart 2) flushAndCompact :=
  have opened := eagerStart_opened (show (eagerConfig 2).validate = .ok () by decide +kernel)
  all_tables_readable rfl opened flushAndCompact ⟨trivial, trivial, trivial, trivial, trivial⟩
    ⟨trivial, trivial, trivial, .inl (by decide +kernel), trivial⟩

/-- With a single level, which `validate` accepts, a compaction moves a key out of reach. -/
theorem key_moves_out_of_reach :
    openEngine MemoryWorld.platform (eagerConfig 1) (eagerStart 1).world =
        .ok () (eagerStart 1) ∧
      Runs.Guarded (Chosen MemoryWorld.platform) (perform MemoryWorld.platform) (eagerStart 1)
        flushAndCompact ∧
      (Runs.run (perform MemoryWorld.platform) (eagerStart 1) flushAndCompact).engine.get
        MemoryTable.ops [1] = .ok none ∧
      ¬Runs.Throughout (fun reached => reached.engine.AllReadable)
        (perform MemoryWorld.platform) (eagerStart 1) flushAndCompact := by
  refine ⟨eagerStart_opened (by decide +kernel), ⟨trivial, trivial, trivial, trivial, trivial⟩,
    by decide +kernel, fun readable => ?_⟩
  have filled : (Runs.run (perform MemoryWorld.platform) (eagerStart 1)
      flushAndCompact).engine.tables 1 ≠ [] := by
    decide +kernel
  have read := readable.finally 1 filled
  revert read
  decide +kernel

end LevelStep

end JustDb

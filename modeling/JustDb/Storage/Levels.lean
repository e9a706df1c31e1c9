import JustDb.Storage.CompactionReads
import JustDb.Library.Runs

/-!
# The levels of an engine over a process life

Writes and flushes add tables to level 0 only.  A compaction replaces two levels by
the tables made of the chunks of one sorted list, or changes nothing.  So every level
below level 0 is a sorted run, whatever the platform does and whatever each step
returns.
-/

namespace JustDb

open Stateful Machine

variable {World Table : Type}

/-! ## What writes and flushes leave alone -/

/-- A view of the engine that shows neither memtables nor counters nor level 0. -/
structure BelowLevel0 {τ : Type} (view : StorageEngine Table → τ) : Prop where
  memtable : ∀ engine memtable, view (engine.setMemtable memtable) = view engine
  immutable : ∀ engine memtables, view (engine.setImmutable memtables) = view engine
  counter : ∀ engine counter, view (engine.setCounter counter) = view engine
  level0 : ∀ engine tables, view (engine.setLevel 0 tables) = view engine

namespace BelowLevel0

variable {τ : Type} {view : StorageEngine Table → τ} (below : BelowLevel0 view)
  (platform : Platform World Table)

include below

theorem flushMemtable (memtable : MemTable) :
    Keeps (fun machine : Machine World Table => view machine.engine)
      (flushMemtable platform memtable) := by
  refine keeps_get.bind fun machine => (keeps_onWorld view _).bind fun made => ?_
  cases made with
  | some reader => exact keeps_onEngine fun engine => below.level0 engine _
  | none => exact keeps_pure ()

theorem flushExcess (fuel : Nat) :
    Keeps (fun machine : Machine World Table => view machine.engine)
      (flushExcess platform fuel) := by
  induction fuel with
  | zero => exact keeps_pure ()
  | succ fuel ih =>
      refine keeps_get.bind fun machine => ?_
      split
      · exact keeps_pure ()
      · exact .ite ((keeps_onEngine fun engine => below.immutable engine _).bind fun _ =>
          (below.flushMemtable platform _).bind fun _ => ih) (keeps_pure ())

theorem checkRotateMemtable :
    Keeps (fun machine : Machine World Table => view machine.engine)
      (checkRotateMemtable platform) := by
  refine keeps_get.bind fun machine => .ite ?_ (keeps_pure ())
  have counting : Keeps (fun machine : Machine World Table => view machine.engine)
      nextSequence :=
    keeps_get.bind fun _ => (keeps_onEngine fun engine => below.counter engine _).bind fun _ =>
      keeps_pure _
  have swapping : Keeps (fun machine : Machine World Table => view machine.engine)
      swapMemtable :=
    counting.bind fun _ => keeps_get.bind fun _ =>
      (keeps_onEngine fun engine => below.memtable engine _).bind fun _ => keeps_pure _
  exact swapping.bind fun memtable =>
    (keeps_onEngine fun engine => below.immutable engine _).bind fun _ =>
      keeps_get.bind fun _ => below.flushExcess platform _

theorem writeMemtable (key : Key) (value : Option Value) :
    Keeps (fun machine : Machine World Table => view machine.engine)
      (writeMemtable platform key value) :=
  (keeps_onWorld view _).bind fun _ => keeps_get.bind fun _ => (keeps_lift _).bind fun _ =>
    keeps_onEngine fun engine => below.memtable engine _

theorem run (write : Write) :
    Keeps (fun machine : Machine World Table => view machine.engine) (write.run platform) := by
  intro machine
  rw [Write.run_apply]
  cases write.rejection machine.engine with
  | some failure => rfl
  | none =>
      exact ((below.checkRotateMemtable platform).bind fun _ =>
        below.writeMemtable platform write.key write.value) machine

end BelowLevel0

/-- The configuration of an engine and its levels below level 0. -/
def StorageEngine.deeper (engine : StorageEngine Table) : Config × (Nat → List Table) :=
  (engine.config, fun level => engine.tables (level + 1))

theorem belowLevel0_deeper :
    BelowLevel0 fun engine : StorageEngine Table => engine.deeper where
  memtable _ _ := rfl
  immutable _ _ := rfl
  counter _ _ := rfl
  level0 engine tables := by
    refine Prod.ext rfl (funext fun level => ?_)
    exact (StorageEngine.tables_setLevel ..).trans (if_neg (Nat.succ_ne_zero level))

theorem StorageEngine.tables_of_deeper {before after : StorageEngine Table}
    (same : after.deeper = before.deeper) {level : Nat} (deep : level ≠ 0) :
    after.tables level = before.tables level := by
  obtain ⟨level, rfl⟩ := Nat.exists_eq_succ_of_ne_zero deep
  exact congrFun (congrArg Prod.snd same) level

/-! ## What a compaction changes -/

namespace Machine

variable (platform : Platform World Table)

/-- The tables of an engine once a level has been merged into the next one. -/
structure Merged (level : Nat) (before after : StorageEngine Table) : Prop where
  config : after.config = before.config
  made : ∃ merged targetSize newTables,
    StorageEngine.mergeSstables platform.toTableOps (before.tables level)
        (before.tables (level + 1)) = .ok merged ∧
      List.Forall₂ (platform.MadeOf before.config) (chunksOf targetSize merged) newTables ∧
      ∀ other, after.tables other =
        if other = level + 1 then newTables else if other = level then []
        else before.tables other

/-- A compaction, however it ends, leaves all levels as they are or merges two of them. -/
theorem compactInto_reached (level : Nat) (machine : Machine World Table) :
    ((final (compactInto platform level machine)).engine.config = machine.engine.config ∧
        ∀ other, (final (compactInto platform level machine)).engine.tables other =
          machine.engine.tables other) ∨
      machine.engine.tables level ≠ [] ∧
        Merged platform level machine.engine
          (final (compactInto platform level machine)).engine := by
  rw [compactInto, bind_eq, get_apply]
  dsimp only
  split
  · exact .inl ⟨rfl, fun _ => rfl⟩
  next nonempty =>
    have config := keeps_mergeInto platform StorageEngine.config (fun _ _ => rfl) level
      (machine.engine.tables level) (machine.engine.tables (level + 1)) machine
    have tables := fun other => keeps_mergeInto platform (fun engine => engine.tables other)
      (fun _ _ => rfl) level (machine.engine.tables level) (machine.engine.tables (level + 1))
      machine
    cases ran : mergeInto platform level (machine.engine.tables level)
        (machine.engine.tables (level + 1)) machine with
    | error fault middle =>
        rw [ran] at config tables
        rw [bind_of_error ran]
        exact .inl ⟨config, tables⟩
    | ok newTables middle =>
        rw [ran] at config tables
        rw [bind_of_ok ran]
        obtain ⟨merged, _, merging, creating⟩ := bind_eq_ok.mp ran
        obtain ⟨listed, rfl⟩ := lift_eq_ok.mp merging
        obtain ⟨_, targetSize, _, made⟩ := createSstablesForLevel_eq_ok creating
        refine .inr ⟨by simpa using nonempty, ?_⟩
        have deleted : (final ((swapIn level newTables >>= fun _ =>
            deleteOldFiles platform (machine.engine.tables level ++
              machine.engine.tables (level + 1))) middle)).engine =
            (middle.engine.setLevel level []).setLevel (level + 1) newTables :=
          keeps_deleteOldFiles platform _ _
        rw [deleted]
        refine ⟨config, merged, targetSize, newTables, listed, made, fun other => ?_⟩
        rw [StorageEngine.tables_setLevel, StorageEngine.tables_setLevel]
        exact congrArg _ (congrArg _ (tables other))

end Machine

/-! ## Runs of an engine -/

/-- What changes the tables of an engine in one process life: a client's write with the
flushes of its rotation, a flush, a compaction of one level, or the step that chooses
levels. -/
inductive LevelStep where
  | write (call : Write)
  | flush (memtable : MemTable)
  | compact (level : Nat)
  | runCompaction

namespace LevelStep

/-- The call that a step makes. -/
def action (platform : Platform World Table) : LevelStep → Action World Table Unit
  | .write call => call.run platform
  | .flush memtable => Machine.flushMemtable platform memtable
  | .compact level => Machine.compactInto platform level
  | .runCompaction => Machine.runCompaction platform

/-- The state after a step, whatever it returns. -/
def perform (platform : Platform World Table) (machine : Machine World Table)
    (step : LevelStep) : Machine World Table :=
  final (step.action platform machine)

end LevelStep

namespace Machine

/-- What the compactions that `run_compaction` may choose maintain, it maintains. -/
theorem maintains_runCompaction {platform : Platform World Table} {config : Config}
    {invariant : Machine World Table → Prop}
    (configured : ∀ machine, invariant machine → machine.engine.config = config)
    (top : Maintains invariant (compactInto platform 0))
    (deeper : ∀ level ∈ List.range' 1 (config.maxLevels - 2),
      Maintains invariant (compactInto platform level)) :
    Maintains invariant (runCompaction platform) := by
  refine ensures_get_bind fun machine holds => ?_
  have loop : Maintains invariant ((List.range' 1 (machine.engine.config.maxLevels - 2)).forM
      fun level => do
        let machine ← get
        let needed ← lift (machine.engine.levelNeedsCompaction platform.toTableOps level)
        if needed then compactLevel platform level else pure ()) := by
    rw [configured machine holds]
    refine Ensures.forM fun level chosen => ensures_get_bind fun machine _ => ?_
    refine Ensures.bind (ensures_lift fun _ _ _ holds => holds) fun needed => ?_
    exact Ensures.ite (deeper level chosen) (ensures_pure ())
  exact Ensures.ite (Ensures.bind top fun _ => loop) loop

/-- An accepted configuration and an empty directory open as a fresh engine. -/
theorem openEngine_empty {platform : Platform World Table} {config : Config}
    {world listed : World} (empty : platform.readDir world = .ok [] listed)
    (valid : config.validate = .ok ()) :
    openEngine platform config world =
      .ok () { engine := .fresh config, world := listed } := by
  have listing : (onWorld platform.readDir : Action World Table (List FileName))
      { engine := .fresh config, world } = .ok [] { engine := .fresh config, world := listed } :=
    onWorld_eq_ok.mpr ⟨listed, empty, rfl⟩
  have none : levelsOf platform.toTableOps [] = fun _ => none := rfl
  rw [openEngine, valid]
  dsimp only
  rw [loadSstables, bind_of_ok listing]
  simp only [List.foldlM_nil]
  rfl

/-- An engine opened on an empty directory is fresh, under a configuration that
`validate` accepts. -/
theorem openEngine_empty_eq_ok {platform : Platform World Table} {config : Config}
    {world listed : World} {machine : Machine World Table}
    (empty : platform.readDir world = .ok [] listed)
    (opened : openEngine platform config world = .ok () machine) :
    config.validate = .ok () ∧ machine.engine = .fresh config := by
  have valid : config.validate = .ok () := by
    cases checked : config.validate with
    | ok _ => rfl
    | error message =>
        rw [openEngine, checked] at opened
        cases opened
  rw [openEngine_empty empty valid] at opened
  cases opened
  exact ⟨valid, rfl⟩

end Machine

/-! ## Sorted runs -/

/-- Tables that were made, one after another, of the pieces of one strictly ascending
list: none is empty, and the keys of each are below the keys of the next. -/
def SortedRun (platform : Platform World Table) (config : Config) (tables : List Table) : Prop :=
  ∃ chunks, List.Forall₂ (platform.MadeOf config) chunks tables ∧
    (∀ chunk ∈ chunks, chunk ≠ []) ∧ Ascending chunks.flatten

theorem sortedRun_nil (platform : Platform World Table) (config : Config) :
    SortedRun platform config [] :=
  ⟨[], .nil, by simp, .nil⟩

theorem sortedRun_of_chunks {platform : Platform World Table} {config : Config}
    {targetSize : Nat} {entries : List Entry} {tables : List Table}
    (ascending : Ascending entries)
    (made : List.Forall₂ (platform.MadeOf config) (chunksOf targetSize entries) tables) :
    SortedRun platform config tables := by
  refine ⟨_, made, fun _ => ne_nil_of_mem_chunksOf, ?_⟩
  rwa [flatten_chunksOf]

/-- Tables that hold exactly what they were made from hold, in list order, non-empty and
strictly ascending entries. -/
theorem SortedRun.ascending {platform : Platform World Table} {config : Config}
    {tables : List Table} {contents : Table → List Entry}
    (run : SortedRun platform config tables) (exact_ : platform.Exact contents) :
    (∀ table ∈ tables, contents table ≠ []) ∧ Ascending (tables.flatMap contents) := by
  obtain ⟨chunks, made, nonempty, ascending⟩ := run
  obtain ⟨_, listed⟩ := exact_of_madeOf exact_ made nonempty ascending
  rw [List.flatMap_def, listed]
  refine ⟨fun table member => nonempty _ ?_, ascending⟩
  rw [← listed]
  exact List.mem_map_of_mem member

/-- Every level below level 0 is a sorted run. -/
structure SortedLevels (platform : Platform World Table) (config : Config)
    (machine : Machine World Table) : Prop where
  configured : machine.engine.config = config
  runs : ∀ level, level ≠ 0 → SortedRun platform config (machine.engine.tables level)

namespace SortedLevels

variable {platform : Platform World Table} {config : Config}

theorem compactInto (level : Nat) :
    Maintains (SortedLevels platform config) (Machine.compactInto platform level) := by
  refine maintains_of_final fun machine sorted => ?_
  rcases compactInto_reached platform level machine with ⟨same, tables⟩ | ⟨_, merged⟩
  · refine ⟨same.trans sorted.configured, fun other deep => ?_⟩
    rw [tables]
    exact sorted.runs other deep
  · obtain ⟨same, merged, targetSize, newTables, listed, made, tables⟩ := merged
    refine ⟨same.trans sorted.configured, fun other deep => ?_⟩
    rw [tables]
    split
    · rw [sorted.configured] at made
      exact sortedRun_of_chunks (StorageEngine.mergeSstables_ascending listed) made
    · split
      · exact sortedRun_nil platform config
      · exact sorted.runs other deep

/-- What a step does to the deeper levels it does as a flush, or by compactions. -/
theorem perform {machine : Machine World Table} (sorted : SortedLevels platform config machine)
    (step : LevelStep) : SortedLevels platform config (step.perform platform machine) := by
  have untouched : ∀ {reached : Machine World Table},
      reached.engine.deeper = machine.engine.deeper → SortedLevels platform config reached := by
    intro reached same
    refine ⟨(congrArg Prod.fst same).trans sorted.configured, fun level deep => ?_⟩
    rw [StorageEngine.tables_of_deeper same deep]
    exact sorted.runs level deep
  cases step with
  | write call => exact untouched (belowLevel0_deeper.run platform call machine)
  | flush memtable =>
      exact untouched (belowLevel0_deeper.flushMemtable platform memtable machine)
  | compact level => exact (compactInto level).final sorted
  | runCompaction =>
      exact (maintains_runCompaction (fun _ sorted => sorted.configured) (compactInto 0)
        fun level _ => compactInto level).final sorted

/-- Over a whole run. -/
theorem run {machine : Machine World Table} (sorted : SortedLevels platform config machine)
    (steps : List LevelStep) :
    SortedLevels platform config (Runs.run (LevelStep.perform platform) machine steps) := by
  induction steps generalizing machine with
  | nil => exact sorted
  | cons step steps ih => exact ih (sorted.perform step)

end SortedLevels

namespace LevelStep

variable {platform : Platform World Table} {config : Config}

/-- In every run of an engine opened on an empty directory the levels below level 0 are
sorted runs, also by the entries that exact tables hold, and `create_sstables_for_level`
cuts a list into non-empty chunks within the target size, but for single entries. -/
theorem deeper_levels_sorted {world listed : World} {machine : Machine World Table}
    (empty : platform.readDir world = .ok [] listed)
    (opened : openEngine platform config world = .ok () machine) (steps : List LevelStep) :
    (∀ level, level ≠ 0 → SortedRun platform config
        ((Runs.run (perform platform) machine steps).engine.tables level)) ∧
      (∀ contents, platform.Exact contents → ∀ level, level ≠ 0 →
        (∀ table ∈ (Runs.run (perform platform) machine steps).engine.tables level,
            contents table ≠ []) ∧
          Ascending (((Runs.run (perform platform) machine steps).engine.tables level).flatMap
            contents)) ∧
      ∀ (level targetSize : Nat) (entries : List Entry) (before after : Machine World Table)
          (tables : List Table), before.engine.config.targetSize level = .ok targetSize →
        createSstablesForLevel platform level entries before = .ok tables after →
        List.Forall₂ (platform.MadeOf before.engine.config) (chunksOf targetSize entries)
            tables ∧
          (chunksOf targetSize entries).flatten = entries ∧
          ∀ chunk ∈ chunksOf targetSize entries, chunk ≠ [] ∧
            (chunk.length = 1 ∨ (chunk.map Entry.size).sum ≤ targetSize) := by
  obtain ⟨_, fresh⟩ := openEngine_empty_eq_ok empty opened
  have start : SortedLevels platform config machine := by
    refine ⟨congrArg StorageEngine.config fresh, fun level _ => ?_⟩
    rw [fresh]
    exact sortedRun_nil _ _
  have runs := (start.run steps).runs
  refine ⟨runs, fun contents exact_ level deep => (runs level deep).ascending exact_, ?_⟩
  intro level targetSize entries before after tables target ran
  refine ⟨madeOf_of_createSstablesForLevel target ran, flatten_chunksOf targetSize entries, ?_⟩
  intro chunk member
  have nonempty := ne_nil_of_mem_chunksOf member
  refine ⟨nonempty, (fits_of_mem_chunksOf member).imp_left fun short => ?_⟩
  exact Nat.le_antisymm short (List.length_pos_iff.mpr nonempty)

/-- Three writes and a compaction of level 0. -/
private def sampleSteps : List LevelStep :=
  [.write (.put [2] [20]), .write (.put [1] [10]), .write (.delete [3]), .compact 0]

theorem deeper_levels_sorted_sampleSteps :
    SortedRun MemoryWorld.platform MemoryWorld.smallConfig
      ((Runs.run (perform MemoryWorld.platform) (MemoryWorld.start []) sampleSteps).engine.tables
        1) :=
  have empty : MemoryWorld.platform.readDir (MemoryWorld.start []).world =
      .ok [] (MemoryWorld.start []).world := rfl
  have valid : MemoryWorld.smallConfig.validate = .ok () := by decide +kernel
  (deeper_levels_sorted empty (openEngine_empty empty valid) sampleSteps).1 1 one_ne_zero

end LevelStep

end JustDb

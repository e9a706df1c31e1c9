import JustDb.MemTable
import JustDb.SSTable.Format
import JustDb.Library.Stateful

/-!
# The engine's surroundings

The engine reads tables through a handful of calls and reaches the clock and the
file system through a few more.  It is modelled over any choice of these: the
byte-level tables of the repository are one, tables that are exact maps another.
-/

namespace JustDb

open Stateful

/-- What the engine asks of an open table. -/
structure TableOps (Table : Type) where
  path : Table → FileName
  metadata : Table → SStableMeta
  mightContain : Table → Key → Result Bool
  get : Table → Key → Result (Option Entry)
  range : Table → Key → Key → Result (List Entry)
  /-- What the table's iterator yields, up to its first error. -/
  iter : Table → List (Result Entry)

/-- What the engine asks of the machine it runs on.  `World` is the state of the
file system and of the clock. -/
structure Platform (World Table : Type) extends TableOps Table where
  /-- microseconds since the Unix epoch -/
  now : World → Nat × World
  /-- `SSTableBuilder::build_from_vec` with the compression and bloom settings of
  a configuration -/
  buildFromVec : Config → FileName → List Entry → EStateM Fault World SStableMeta
  /-- `SSTableReader::open`, memory-mapped or not -/
  openTable : FileName → Bool → EStateM Fault World Table
  removeFile : FileName → EStateM Fault World Unit
  /-- the files in the `sstables` directory, in the order of `read_dir` -/
  readDir : EStateM Fault World (List FileName)

namespace Platform

variable {World Table : Type} (platform : Platform World Table)

/-- Build a file and reopen it. -/
def makeTable (config : Config) (path : FileName) (entries : List Entry) :
    EStateM Fault World Table := do
  let _ ← platform.buildFromVec config path entries
  platform.openTable path config.useMmap

/-- `SystemTime::now()`, in microseconds since the epoch. -/
def currentMicros : EStateM Fault World Nat := fun world =>
  .ok (platform.now world).1 (platform.now world).2

/-- The file work of a flush: none for an empty memtable. -/
def flushTable (config : Config) (memtable : MemTable) : EStateM Fault World (Option Table) :=
  if memtable.count = 0 then
    pure none
  else do
    let micros ← platform.currentMicros
    let path := sstableName 0 (micros / 1000000) memtable.currentSequence
    let reader ← platform.makeTable config path memtable.entryList
    pure (some reader)

end Platform

/-- main LSM storage engine; `sstables` maps a level to its tables, oldest first -/
structure StorageEngine (Table : Type) where
  config : Config
  memtable : MemTable
  immutableMemtables : List MemTable
  sstables : Nat → Option (List Table)
  sequenceCounter : SequenceNumber
  closed : Bool

/-- An engine and the world it acts on. -/
structure Machine (World Table : Type) where
  engine : StorageEngine Table
  world : World

/-- A call on the engine.  The state reached is kept when the call fails. -/
abbrev Action (World Table α : Type) := EStateM Fault (Machine World Table) α

namespace StorageEngine

variable {Table : Type}

/-- A newly opened engine, before its tables are loaded. -/
def fresh (config : Config) : StorageEngine Table where
  config
  memtable := .new config.memtableSizeThreshold
  immutableMemtables := []
  sstables := fun _ => none
  sequenceCounter := 1
  closed := false

/-- The tables of a level, oldest first: `unwrap_or_default`. -/
def tables (engine : StorageEngine Table) (level : Nat) : List Table :=
  (engine.sstables level).getD []

@[simp] theorem tables_fresh (config : Config) (level : Nat) :
    (fresh config : StorageEngine Table).tables level = [] := rfl

/-- `sstables.insert(level, tables)` -/
def setLevel (engine : StorageEngine Table) (level : Nat) (tables : List Table) :
    StorageEngine Table :=
  { engine with sstables := Function.update engine.sstables level (some tables) }

/-- `sstables.entry(0).or_insert_with(Vec::new).push(table)` -/
def pushLevel0 (engine : StorageEngine Table) (table : Table) : StorageEngine Table :=
  engine.setLevel 0 (engine.tables 0 ++ [table])

theorem tables_setLevel (engine : StorageEngine Table) (level other : Nat)
    (tables : List Table) :
    (engine.setLevel level tables).tables other =
      if other = level then tables else engine.tables other := by
  by_cases same : other = level
  · subst same
    simp [StorageEngine.tables, setLevel]
  · simp [StorageEngine.tables, setLevel, same]

@[simp] theorem tables_setLevel_self (engine : StorageEngine Table) (level : Nat)
    (tables : List Table) : (engine.setLevel level tables).tables level = tables := by
  simp [tables_setLevel]

@[simp] theorem config_setLevel (engine : StorageEngine Table) (level : Nat)
    (tables : List Table) : (engine.setLevel level tables).config = engine.config := rfl

@[simp] theorem memtable_setLevel (engine : StorageEngine Table) (level : Nat)
    (tables : List Table) : (engine.setLevel level tables).memtable = engine.memtable := rfl

@[simp] theorem immutableMemtables_setLevel (engine : StorageEngine Table) (level : Nat)
    (tables : List Table) :
    (engine.setLevel level tables).immutableMemtables = engine.immutableMemtables := rfl

@[simp] theorem closed_setLevel (engine : StorageEngine Table) (level : Nat)
    (tables : List Table) : (engine.setLevel level tables).closed = engine.closed := rfl

@[simp] theorem sequenceCounter_setLevel (engine : StorageEngine Table) (level : Nat)
    (tables : List Table) :
    (engine.setLevel level tables).sequenceCounter = engine.sequenceCounter := rfl

/-- Replace the current memtable. -/
def setMemtable (engine : StorageEngine Table) (memtable : MemTable) : StorageEngine Table :=
  { engine with memtable }

@[simp] theorem memtable_setMemtable (engine : StorageEngine Table) (memtable : MemTable) :
    (engine.setMemtable memtable).memtable = memtable := rfl

@[simp] theorem immutableMemtables_setMemtable (engine : StorageEngine Table)
    (memtable : MemTable) :
    (engine.setMemtable memtable).immutableMemtables = engine.immutableMemtables := rfl

@[simp] theorem config_setMemtable (engine : StorageEngine Table) (memtable : MemTable) :
    (engine.setMemtable memtable).config = engine.config := rfl

@[simp] theorem closed_setMemtable (engine : StorageEngine Table) (memtable : MemTable) :
    (engine.setMemtable memtable).closed = engine.closed := rfl

/-- Replace the engine's sequence counter. -/
def setCounter (engine : StorageEngine Table) (sequenceCounter : SequenceNumber) :
    StorageEngine Table :=
  { engine with sequenceCounter }

@[simp] theorem setCounter_setCounter (engine : StorageEngine Table)
    (first second : SequenceNumber) :
    (engine.setCounter first).setCounter second = engine.setCounter second := rfl

@[simp] theorem config_setCounter (engine : StorageEngine Table) (counter : SequenceNumber) :
    (engine.setCounter counter).config = engine.config := rfl

@[simp] theorem tables_setCounter (engine : StorageEngine Table) (counter : SequenceNumber)
    (level : Nat) : (engine.setCounter counter).tables level = engine.tables level := rfl

/-- Replace the immutable memtables, listed oldest first. -/
def setImmutable (engine : StorageEngine Table) (memtables : List MemTable) :
    StorageEngine Table :=
  { engine with immutableMemtables := memtables }

@[simp] theorem immutableMemtables_setImmutable (engine : StorageEngine Table)
    (memtables : List MemTable) :
    (engine.setImmutable memtables).immutableMemtables = memtables := rfl

@[simp] theorem config_setImmutable (engine : StorageEngine Table)
    (memtables : List MemTable) :
    (engine.setImmutable memtables).config = engine.config := rfl

@[simp] theorem closed_setImmutable (engine : StorageEngine Table)
    (memtables : List MemTable) :
    (engine.setImmutable memtables).closed = engine.closed := rfl

@[simp] theorem memtable_setImmutable (engine : StorageEngine Table)
    (memtables : List MemTable) :
    (engine.setImmutable memtables).memtable = engine.memtable := rfl

@[simp] theorem tables_setImmutable (engine : StorageEngine Table)
    (memtables : List MemTable) (level : Nat) :
    (engine.setImmutable memtables).tables level = engine.tables level := rfl

end StorageEngine

namespace Machine

variable {World Table α : Type}

/-- Act on the world and leave the engine alone. -/
def onWorld (action : EStateM Fault World α) : Action World Table α := fun machine =>
  match action machine.world with
  | .ok value world => .ok value { machine with world }
  | .error fault world => .error fault { machine with world }

/-- Change the engine and leave the world alone. -/
def onEngine (change : StorageEngine Table → StorageEngine Table) :
    Action World Table Unit :=
  modify fun machine => { machine with engine := change machine.engine }

/-- `if let Err(e) = action { report }`: an error is reported and dropped, a panic
goes on unwinding. -/
def reportError (action : Action World Table Unit) : Action World Table Unit :=
  fun machine =>
    match action machine with
    | .error (.error _) reached => .ok () reached
    | result => result

theorem onWorld_eq_ok {action : EStateM Fault World α} {value : α}
    {machine reached : Machine World Table} :
    onWorld action machine = .ok value reached ↔
      ∃ world, action machine.world = .ok value world ∧
        reached = { machine with world } := by
  unfold onWorld
  cases action machine.world with
  | ok result world =>
      simp only [EStateM.Result.ok.injEq]
      constructor
      · rintro ⟨rfl, rfl⟩
        exact ⟨world, ⟨rfl, rfl⟩, rfl⟩
      · rintro ⟨other, ⟨rfl, rfl⟩, rfl⟩
        exact ⟨rfl, rfl⟩
  | error fault world => simp

theorem onWorld_eq_error {action : EStateM Fault World α} {fault : Fault}
    {machine reached : Machine World Table} :
    onWorld action machine = .error fault reached ↔
      ∃ world, action machine.world = .error fault world ∧
        reached = { machine with world } := by
  unfold onWorld
  cases action machine.world with
  | ok result world => simp
  | error failure world =>
      simp only [EStateM.Result.error.injEq]
      constructor
      · rintro ⟨rfl, rfl⟩
        exact ⟨world, ⟨rfl, rfl⟩, rfl⟩
      · rintro ⟨other, ⟨rfl, rfl⟩, rfl⟩
        exact ⟨rfl, rfl⟩

@[simp] theorem final_onWorld (action : EStateM Fault World α) (machine : Machine World Table) :
    final (onWorld action machine) = { machine with world := final (action machine.world) } := by
  unfold onWorld
  cases action machine.world <;> rfl

/-- Reporting an error does not change what has been done. -/
@[simp] theorem final_reportError (action : Action World Table Unit)
    (machine : Machine World Table) :
    final (reportError action machine) = final (action machine) := by
  rw [reportError]
  split
  next ran => rw [ran]; rfl
  next => rfl

/-- Acting on the world keeps the engine. -/
theorem keeps_onWorld {τ : Type} (view : StorageEngine Table → τ)
    (action : EStateM Fault World α) :
    Keeps (fun machine : Machine World Table => view machine.engine) (onWorld action) := by
  intro machine
  simp only [onWorld]
  cases action machine.world <;> rfl

/-- A change of the engine that a view does not show. -/
theorem keeps_onEngine {τ : Type} {view : StorageEngine Table → τ}
    {change : StorageEngine Table → StorageEngine Table}
    (unseen : ∀ engine, view (change engine) = view engine) :
    Keeps (fun machine : Machine World Table => view machine.engine) (onEngine change) :=
  fun machine => unseen machine.engine

theorem keeps_reportError {τ : Type} {view : Machine World Table → τ}
    {action : Action World Table Unit} (kept : Keeps view action) :
    Keeps view (reportError action) := by
  intro machine
  have same := kept machine
  rw [reportError]
  split
  next reached ran =>
    rw [ran] at same
    exact same
  next => exact same

/-! ## Properties that an action keeps -/

def panicked {σ : Type} : EStateM.Result Fault σ α → Bool
  | .error .panic _ => true
  | _ => false

/-- Unless it panics, the action keeps a property of the state. -/
abbrev Upholds {σ : Type} (invariant : σ → Prop) (action : EStateM Fault σ α) : Prop :=
  Ensures invariant (fun fault reached => fault ≠ .panic → invariant reached) action

/-- Unless it panics, the action keeps a property of the state, and a value that it returns
has a property. -/
abbrev Provides {σ : Type} (invariant : σ → Prop) (property : α → Prop)
    (action : EStateM Fault σ α) : Prop :=
  Yields invariant (fun fault reached => fault ≠ .panic → invariant reached) property action

theorem upholds_lift {σ : Type} {invariant : σ → Prop} (result : Result α) :
    Upholds invariant (lift result : EStateM Fault σ α) :=
  ensures_lift fun _ _ _ holds _ => holds

/-- An error that is reported leaves what it has left. -/
theorem ensures_reportError {invariant : Machine World Table → Prop}
    {exit : Fault → Machine World Table → Prop} {action : Action World Table Unit}
    (reported : ∀ failure machine, exit (.error failure) machine → invariant machine)
    (kept : Ensures invariant exit action) : Ensures invariant exit (reportError action) := by
  intro machine holds
  have left := kept machine holds
  rw [reportError]
  cases ran : action machine with
  | ok _ reached =>
      rw [ran] at left
      exact left
  | error fault reached =>
      rw [ran] at left
      cases fault with
      | error failure => exact reported failure reached left
      | panic => exact left

theorem upholds_reportError {invariant : Machine World Table → Prop}
    {action : Action World Table Unit} (upholds : Upholds invariant action) :
    Upholds invariant (reportError action) :=
  ensures_reportError (fun _ _ left => left nofun) upholds

@[simp] theorem onEngine_apply (change : StorageEngine Table → StorageEngine Table)
    (machine : Machine World Table) :
    onEngine change machine = .ok () { machine with engine := change machine.engine } := rfl

end Machine

end JustDb

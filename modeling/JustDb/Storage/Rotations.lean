import JustDb.Storage.ConcurrentGet
import JustDb.Library.Conveyor

/-!
# Rotations of several tasks at once

Any number of tasks rotate at the same time, each step of one between any two steps of
another.  The memtables are the items of a conveyor: a task takes the current memtable,
pushes it to the immutable list, takes the oldest one off it and stores a table made from
it in level 0, or loses it when the flush fails.

Numbering the memtables as they are swapped out shows what becomes of each of them, and
when a get still finds the newest value of a key.
-/

namespace JustDb

open Stateful Machine Conveyor

variable {World Table : Type}

/-- Only the tables matter to the tables after a flush. -/
theorem StorageEngine.sstables_install {engine other : StorageEngine Table}
    (same : engine.sstables = other.sstables) (made : Option Table) :
    (engine.install made).sstables = (other.install made).sstables := by
  cases made with
  | none => exact same
  | some table =>
      simp only [install, pushLevel0, setLevel, tables, same]

theorem StorageEngine.config_foldl_install (made : List (Option Table))
    (engine : StorageEngine Table) : (made.foldl install engine).config = engine.config := by
  induction made generalizing engine with
  | nil => rfl
  | cons table made ih => exact (ih _).trans (config_install engine table)

/-- A search through the tables looks at nothing else. -/
theorem StorageEngine.searchTables_congr {ops : TableOps Table}
    {engine other : StorageEngine Table} (config : engine.config = other.config)
    (sstables : engine.sstables = other.sstables) (key : Key) :
    engine.searchTables ops key = other.searchTables ops key := by
  have tables : engine.tables = other.tables := by
    funext level
    rw [tables, tables, sstables]
  have levels : engine.lookupLevel ops key = other.lookupLevel ops key := by
    funext level
    simp only [lookupLevel, tables]
  rw [searchTables, searchTables, config, levels]

/-- Two entries of the same value on top of the same tables answer alike. -/
theorem StorageEngine.map_value_orElse {found other : Option Entry}
    (same : found.map Entry.value = other.map Entry.value) (below : Result (Option Entry)) :
    (Layered.orElse (.ok found) below).map (fun entry => entry.bind Entry.value) =
      (Layered.orElse (.ok other) below).map fun entry => entry.bind Entry.value := by
  cases found with
  | none =>
      rw [Option.map_eq_none_iff.mp same.symm]
  | some entry =>
      obtain ⟨twin, rfl, valued⟩ := Option.map_eq_some_iff.mp same.symm
      exact congrArg Except.ok valued.symm

namespace Workers

variable (platform : Platform World Table)

/-- The memtable that the test of the loop takes off the immutable list. -/
def pulled (task : Nat) (immutable : List MemTable) (config : Config) :
    List (Conveyor.Event MemTable) :=
  if immutable.length > config.maxMemtables then [.pull task] else []

/-- What a move does to the memtables. -/
def events (workers : Workers World Table) : Move World → List (Conveyor.Event MemTable)
  | .rotation task =>
      let engine := workers.machine.engine
      match workers.rotation task with
      | .idle => [.take task engine.memtable.makeImmutable]
      | .swapped old =>
          .push task :: pulled task (engine.immutableMemtables ++ [old]) engine.config
      | .flushing oldest =>
          if succeeded (platform.flushTable engine.config oldest workers.machine.world) then
            [.store task]
          else
            [.lose task]
      | .flushed => pulled task engine.immutableMemtables engine.config
  | .write _ _ | .elsewhere _ => []

section Stage

variable {platform} {workers : Workers World Table} {task : Nat}

theorem events_swapped {old : MemTable} (swapped : workers.rotation task = .swapped old) :
    workers.events platform (.rotation task) = .push task ::
      pulled task (workers.machine.engine.immutableMemtables ++ [old])
        workers.machine.engine.config := by
  simp only [events, swapped]

/-- A rotation begins with the swap. -/
theorem advance_of_idle (idle : workers.rotation task = .idle) :
    workers.advance platform task = workers.become task (final (swapMemtable workers.machine))
      (.swapped workers.machine.engine.memtable.makeImmutable) := by
  rw [advance, idle]
  rfl

/-- The step of one rotation leaves the others where they stand. -/
theorem rotation_advance_of_ne {other : Nat} (apart : other ≠ task) :
    (workers.advance platform task).rotation other = workers.rotation other := by
  have taken : ∀ before : Workers World Table,
      (before.takeOldest task).rotation other = before.rotation other := by
    intro before
    cases listed : before.machine.engine.immutableMemtables with
    | nil =>
        rw [takeOldest_of_nil task listed]
        exact rotation_become_of_ne before apart ..
    | cons oldest rest =>
        rw [takeOldest_of_cons task listed]
        split <;> exact rotation_become_of_ne before apart ..
  cases stage : workers.rotation task with
  | idle =>
      rw [advance_of_idle stage]
      exact rotation_become_of_ne workers apart ..
  | swapped old =>
      rw [advance, stage]
      exact (taken _).trans (rotation_become_of_ne workers apart ..)
  | flushing oldest =>
      cases ran : platform.flushTable workers.machine.engine.config oldest
        workers.machine.world with
      | ok made world =>
          rw [advance_of_flushed stage ran]
          exact rotation_become_of_ne workers apart ..
      | error fault world =>
          rw [advance_of_failed stage ran]
          exact rotation_become_of_ne workers apart ..
  | flushed =>
      rw [advance_of_relocking stage]
      exact taken workers

theorem rotation_run_of_unmoved {moves : List (Move World)}
    (unmoved : ∀ move ∈ moves, move ≠ .rotation task) :
    (Runs.run (step platform) workers moves).rotation task = workers.rotation task := by
  induction moves generalizing workers with
  | nil => rfl
  | cons move moves ih =>
      rw [Runs.run_cons, ih fun other member => unmoved other (List.mem_cons_of_mem _ member)]
      cases move with
      | rotation other =>
          apply rotation_advance_of_ne
          rintro rfl
          exact unmoved _ List.mem_cons_self rfl
      | write key value => rfl
      | elsewhere world => rfl

end Stage

end Workers

/-- The write call that leaves a value, or a delete marker, under a key. -/
def Write.leaving (key : Key) : Option Value → Write
  | some value => .put key value
  | none => .delete key

@[simp] theorem Write.key_leaving (key : Key) (value : Option Value) :
    (Write.leaving key value).key = key := by
  cases value <;> rfl

@[simp] theorem Write.value_leaving (key : Key) (value : Option Value) :
    (Write.leaving key value).value = value := by
  cases value <;> rfl

/-- The tasks, the memtables swapped out so far with where they are, and the writes that
have succeeded, in order. -/
structure Tracked (World Table : Type) where
  workers : Workers World Table
  belt : Belt MemTable
  written : List Write

namespace Tracked

variable (platform : Platform World Table)

/-- Tasks with nothing in hand. -/
def start (workers : Workers World Table) : Tracked World Table where
  workers
  belt := .waiting workers.machine.engine.immutableMemtables
  written := []

/-- The write that a move makes, if it succeeds. -/
def succeededWrite (workers : Workers World Table) : Move World → List Write
  | .write key value =>
      if succeeded (writeMemtable platform key value workers.machine) then
        [.leaving key value]
      else
        []
  | .rotation _ | .elsewhere _ => []

def step (tracked : Tracked World Table) (move : Move World) : Tracked World Table where
  workers := tracked.workers.step platform move
  belt := Runs.run Belt.step tracked.belt (tracked.workers.events platform move)
  written := tracked.written ++ succeededWrite platform tracked.workers move

/-- Numbering the memtables changes nothing. -/
@[simp] theorem workers_run (tracked : Tracked World Table) (moves : List (Move World)) :
    (Runs.run (step platform) tracked moves).workers =
      Runs.run (Workers.step platform) tracked.workers moves := by
  induction moves generalizing tracked with
  | nil => rfl
  | cons move moves ih => exact ih (tracked.step platform move)

/-! ## What becomes of the memtables -/

/-- A flush of a memtable that succeeds makes a table, or none. -/
def FlushedTo (config : Config) (load : Load MemTable) (made : Option Table) : Prop :=
  ∃ world reached, platform.flushTable config load.2 world = .ok made reached

/-- Where the memtables are. -/
structure Placed (origin : StorageEngine Table) (workers : Workers World Table)
    (belt : Belt MemTable) : Prop where
  config : workers.machine.engine.config = origin.config
  closed : workers.machine.engine.closed = origin.closed
  hands : ∀ task, (workers.rotation task).hand = (belt.hand task).map Prod.snd
  immutable : workers.machine.engine.immutableMemtables = belt.queue.map Prod.snd
  stored : ∃ made, List.Forall₂ (FlushedTo platform origin.config) belt.stored made ∧
    workers.machine.engine.sstables = (made.foldl StorageEngine.install origin).sstables

variable {platform} {origin : StorageEngine Table} {workers : Workers World Table}
  {belt : Belt MemTable} {task : Nat}

/-- Tables made by flushes are searched before the tables there were, the newest first. -/
theorem searchTables_foldl_install (faithful : platform.Faithful) {config : Config}
    {engine : StorageEngine Table} (leveled : 0 < engine.config.maxLevels)
    {loads : List (Load MemTable)} {made : List (Option Table)}
    (flushes : List.Forall₂ (FlushedTo platform config) loads made) (key : Key) :
    (made.foldl StorageEngine.install engine).searchTables platform.toTableOps key =
      Layered.orElse (.ok ((loads.map Prod.snd).reverse.findSome? fun memtable =>
        memtable.get key)) (engine.searchTables platform.toTableOps key) := by
  induction flushes generalizing engine with
  | nil => rfl
  | @cons load table loads made flush flushes ih =>
      obtain ⟨world, reached, ran⟩ := flush
      have below := StorageEngine.searchTables_install faithful engine leveled ran key
      have room : 0 < (engine.install table).config.maxLevels := by
        rw [StorageEngine.config_install]
        exact leveled
      rw [List.foldl_cons, ih room, below, List.map_cons, List.reverse_cons,
        List.findSome?_append, ← Layered.orElse_ok_ok, Layered.orElse_assoc]
      simp

namespace Placed

/-- What a task takes in hand or puts down. -/
theorem hands_become (placed : Placed platform origin workers belt)
    {machine : Machine World Table} {rotation : Rotation} {load : Option (Load MemTable)}
    (held : rotation.hand = load.map Prod.snd) (other : Nat) :
    ((workers.become task machine rotation).rotation other).hand =
      ((belt.give task load).hand other).map Prod.snd := by
  by_cases same : other = task
  · rw [same, Workers.rotation_become_self, Belt.hand_give, Function.update_self, held]
  · rw [Workers.rotation_become_of_ne workers same, Belt.hand_give, Function.update_of_ne same,
      placed.hands]

/-- The load of a task with a memtable in hand. -/
theorem load_of_hand (placed : Placed platform origin workers belt) {memtable : MemTable}
    (held : (workers.rotation task).hand = some memtable) :
    ∃ number, belt.hand task = some (number, memtable) := by
  rw [placed.hands] at held
  obtain ⟨load, holding, rfl⟩ := Option.map_eq_some_iff.mp held
  exact ⟨load.1, holding⟩

theorem hand_of_none (placed : Placed platform origin workers belt)
    (empty : (workers.rotation task).hand = none) : belt.hand task = none := by
  rw [placed.hands] at empty
  exact Option.map_eq_none_iff.mp empty

/-- A task leaves with nothing in hand. -/
theorem leave (placed : Placed platform origin workers belt)
    (empty : (workers.rotation task).hand = none) :
    Placed platform origin (workers.become task workers.machine .idle) belt where
  config := placed.config
  closed := placed.closed
  hands := by
    intro other
    have same : belt.give task none = belt := by
      rw [Belt.give, ← placed.hand_of_none empty, Function.update_eq_self]
    have kept : ((workers.become task workers.machine .idle).rotation other).hand =
        ((belt.give task none).hand other).map Prod.snd := placed.hands_become rfl other
    rwa [same] at kept
  immutable := placed.immutable
  stored := placed.stored

/-- A task with nothing in hand comes to the test of the loop. -/
theorem takeOldest (placed : Placed platform origin workers belt)
    (empty : (workers.rotation task).hand = none) :
    Placed platform origin (workers.takeOldest task)
      (Runs.run Belt.step belt (Workers.pulled task workers.machine.engine.immutableMemtables
        workers.machine.engine.config)) := by
  cases listed : workers.machine.engine.immutableMemtables with
  | nil =>
      rw [Workers.takeOldest_of_nil task listed]
      exact placed.leave empty
  | cons oldest rest =>
      rw [Workers.takeOldest_of_cons task listed, Workers.pulled, List.length_cons]
      split
      next full =>
        have queued := placed.immutable.symm.trans listed
        obtain ⟨load, others, queue, first, behind⟩ := List.map_eq_cons_iff.mp queued
        rw [Runs.run_cons, Runs.run_nil, Belt.step_pull (placed.hand_of_none empty) queue]
        exact {
          config := placed.config
          closed := placed.closed
          hands := placed.hands_become (congrArg some first.symm)
          immutable := behind.symm
          stored := placed.stored }
      next => exact placed.leave empty

/-- The memtable swapped out goes to the end of the immutable list. -/
theorem pushed (placed : Placed platform origin workers belt) {old : MemTable}
    (swapped : workers.rotation task = .swapped old) :
    Placed platform origin
      (workers.become task (final (pushImmutable old workers.machine)) .flushed)
      (belt.step (.push task)) := by
  obtain ⟨number, holding⟩ := placed.load_of_hand (congrArg Rotation.hand swapped)
  rw [Belt.step_push holding]
  refine ⟨placed.config, placed.closed, placed.hands_become rfl, ?_, placed.stored⟩
  rw [List.map_append, ← placed.immutable]
  rfl

/-- The steps of the tasks do with the memtables what the events say. -/
theorem step (placed : Placed platform origin workers belt) (move : Move World) :
    Placed platform origin (workers.step platform move)
      (Runs.run Belt.step belt (workers.events platform move)) := by
  cases move with
  | elsewhere world => exact ⟨placed.config, placed.closed, placed.hands, placed.immutable,
      placed.stored⟩
  | write key value =>
      rw [Workers.step, writeMemtable_apply]
      split
      all_goals exact ⟨placed.config, placed.closed, placed.hands, placed.immutable,
        placed.stored⟩
  | rotation task =>
      rw [Workers.step]
      cases stage : workers.rotation task with
      | idle =>
          have empty := placed.hand_of_none (congrArg Rotation.hand stage)
          simp only [Workers.events, stage, Runs.run_cons, Runs.run_nil]
          rw [Workers.advance_of_idle stage, Belt.step_take empty]
          exact ⟨placed.config, placed.closed, placed.hands_become rfl, placed.immutable,
            placed.stored⟩
      | swapped old =>
          have taken := (placed.pushed stage).takeOldest
            (congrArg Rotation.hand (Workers.rotation_become_self ..))
          rw [Workers.events_swapped stage, Workers.advance, stage]
          exact taken
      | flushing oldest =>
          obtain ⟨number, holding⟩ := placed.load_of_hand (congrArg Rotation.hand stage)
          simp only [Workers.events, stage]
          cases ran : platform.flushTable workers.machine.engine.config oldest
            workers.machine.world with
          | ok made world =>
              rw [Workers.advance_of_flushed stage ran]
              simp only [succeeded, if_true, Runs.run_cons, Runs.run_nil]
              rw [Belt.step_store holding]
              obtain ⟨tables, flushes, same⟩ := placed.stored
              refine ⟨(StorageEngine.config_install ..).trans placed.config,
                (StorageEngine.closed_install ..).trans placed.closed, placed.hands_become rfl,
                (StorageEngine.immutableMemtables_install ..).trans placed.immutable,
                tables ++ [made], ?_, ?_⟩
              · rw [placed.config] at ran
                exact List.rel_append flushes (.cons ⟨_, _, ran⟩ .nil)
              · rw [List.foldl_append]
                exact StorageEngine.sstables_install same made
          | error fault world =>
              rw [Workers.advance_of_failed stage ran]
              simp only [succeeded, Bool.false_eq_true, if_false, Runs.run_cons, Runs.run_nil]
              rw [Belt.step_lose holding]
              exact ⟨placed.config, placed.closed, placed.hands_become rfl, placed.immutable,
                placed.stored⟩
      | flushed =>
          have empty := congrArg Rotation.hand stage
          rw [Workers.advance_of_relocking stage]
          simpa only [Workers.events, stage] using placed.takeOldest empty

/-- What the tables answer: the memtables stored since, the newest first, then the tables
there were before. -/
theorem searchTables (placed : Placed platform origin workers belt)
    (faithful : platform.Faithful) (leveled : 0 < origin.config.maxLevels) (key : Key) :
    workers.machine.engine.searchTables platform.toTableOps key =
      Layered.orElse (.ok ((belt.stored.map Prod.snd).reverse.findSome? fun memtable =>
        memtable.get key)) (origin.searchTables platform.toTableOps key) := by
  obtain ⟨made, flushes, same⟩ := placed.stored
  have config : workers.machine.engine.config = (made.foldl StorageEngine.install origin).config :=
    placed.config.trans (StorageEngine.config_foldl_install made origin).symm
  rw [StorageEngine.searchTables_congr config same]
  exact searchTables_foldl_install faithful leveled flushes key

end Placed

theorem placed_start {workers : Workers World Table}
    (empty : ∀ task, (workers.rotation task).hand = none) :
    Placed platform workers.machine.engine workers (start workers).belt where
  config := rfl
  closed := rfl
  hands := empty
  immutable := (Belt.items_waiting _).symm
  stored := ⟨[], .nil, rfl⟩

/-- Along every interleaving each memtable is at one place at a time: in the hand of one
task, in the immutable list, in level 0 as the table made from it, or lost by a flush that
failed. -/
theorem memtables_placed_once (platform : Platform World Table)
    {workers : Workers World Table} (empty : ∀ task, (workers.rotation task).hand = none)
    (moves : List (Move World)) :
    Runs.Throughout (fun tracked => tracked.belt.Accounted ∧
        Placed platform workers.machine.engine tracked.workers tracked.belt)
      (step platform) (start workers) moves := by
  have preserved : ∀ (tracked : Tracked World Table) move, tracked.belt.Accounted ∧
      Placed platform workers.machine.engine tracked.workers tracked.belt →
        (tracked.step platform move).belt.Accounted ∧ Placed platform workers.machine.engine
          (tracked.step platform move).workers (tracked.step platform move).belt :=
    fun tracked move holds => ⟨holds.1.run _, holds.2.step move⟩
  exact Runs.throughout_of_invariant (fun _ holds => holds) preserved
    ⟨Belt.accounted_waiting _, placed_start empty⟩ moves

/-! ## What a get finds -/

/-- The newest version of a key among all memtables that ever were is the one written last,
and each memtable swapped out is at one place. -/
structure Reading (platform : Platform World Table) (origin : Workers World Table)
    (tracked : Tracked World Table) : Prop where
  placed : Placed platform origin.machine.engine tracked.workers tracked.belt
  accounted : tracked.belt.Accounted
  ordered : tracked.belt.InOrder
  lost : tracked.belt.lost = []
  latest : ∀ key, ((tracked.workers.machine.engine.memtable ::
      tracked.belt.archive.reverse).findSome? fun memtable => memtable.get key).map Entry.value =
    match Write.last tracked.written key with
    | some write => some write.value
    | none => (origin.machine.engine.memtables.findSome? fun memtable =>
        memtable.get key).map Entry.value

theorem reading_start {workers : Workers World Table}
    (empty : ∀ task, (workers.rotation task).hand = none) :
    Reading platform workers (start workers) where
  placed := placed_start empty
  accounted := Belt.accounted_waiting _
  ordered := Belt.inOrder_waiting _
  lost := rfl
  latest := fun _ => rfl

/-- None of the memtables overtakes another, and no flush fails. -/
def Orderly (platform : Platform World Table) (tracked : Tracked World Table)
    (move : Move World) : Prop :=
  Runs.Guarded Belt.Orderly Belt.step tracked.belt (tracked.workers.events platform move)

instance (tracked : Tracked World Table) (move : Move World) :
    Decidable (Orderly platform tracked move) :=
  inferInstanceAs (Decidable (Runs.Guarded _ _ _ _))

theorem archive_pulled (belt : Belt MemTable) (task : Nat) (immutable : List MemTable)
    (config : Config) :
    (Runs.run Belt.step belt (Workers.pulled task immutable config)).archive = belt.archive := by
  rw [Workers.pulled]
  split
  · exact belt.archive_pull task
  · rfl

theorem memtable_takeOldest (workers : Workers World Table) (task : Nat) :
    (workers.takeOldest task).machine.engine.memtable = workers.machine.engine.memtable := by
  cases listed : workers.machine.engine.immutableMemtables with
  | nil => rw [Workers.takeOldest_of_nil task listed, Workers.machine_become]
  | cons oldest rest =>
      rw [Workers.takeOldest_of_cons task listed]
      split <;> rfl

/-- A step of a rotation leaves the versions of a key as they are, from the newest memtable
that ever was down. -/
theorem findSome?_rotation (placed : Placed platform origin workers belt) (task : Nat)
    (key : Key) :
    ((workers.step platform (.rotation task)).machine.engine.memtable ::
        (Runs.run Belt.step belt
          (workers.events platform (.rotation task))).archive.reverse).findSome?
        (fun memtable => memtable.get key) =
      (workers.machine.engine.memtable :: belt.archive.reverse).findSome?
        fun memtable => memtable.get key := by
  rw [Workers.step]
  cases stage : workers.rotation task with
  | idle =>
      have empty := placed.hand_of_none (congrArg Rotation.hand stage)
      have fresh : (final (swapMemtable workers.machine)).engine.memtable.get key = none :=
        MemTable.get_withSequence ..
      simp only [Workers.events, stage, Runs.run_cons, Runs.run_nil]
      rw [Workers.advance_of_idle stage, Belt.step_take empty, Workers.machine_become]
      simp [List.findSome?_cons, fresh]
  | swapped old =>
      simp only [Workers.events, stage, Runs.run_cons, Workers.advance]
      rw [archive_pulled, Belt.archive_push, memtable_takeOldest]
      rfl
  | flushing oldest =>
      simp only [Workers.events, stage]
      cases ran : platform.flushTable workers.machine.engine.config oldest
        workers.machine.world with
      | ok made world =>
          rw [Workers.advance_of_flushed stage ran, Workers.machine_become]
          simp only [succeeded, if_true, Runs.run_cons, Runs.run_nil,
            StorageEngine.memtable_install, Belt.archive_store]
      | error fault world =>
          rw [Workers.advance_of_failed stage ran, Workers.machine_become]
          simp only [succeeded, Bool.false_eq_true, if_false, Runs.run_cons, Runs.run_nil,
            Belt.archive_lose]
  | flushed =>
      simp only [Workers.events, stage]
      rw [Workers.advance_of_relocking stage, archive_pulled, memtable_takeOldest]

/-- An orderly step keeps what a get relies on. -/
theorem Reading.step {start : Workers World Table} {tracked : Tracked World Table}
    (reading : Reading platform start tracked) {move : Move World}
    (orderly : Orderly platform tracked move) :
    Reading platform start (tracked.step platform move) := by
  obtain ⟨ordered, lost⟩ := reading.ordered.run orderly
  refine ⟨reading.placed.step move, reading.accounted.run _, ordered, lost.trans reading.lost,
    fun key => ?_⟩
  have latest := reading.latest key
  cases move with
  | rotation task =>
      rw [← findSome?_rotation reading.placed task] at latest
      exact latest.trans (by rw [Tracked.step, succeededWrite, List.append_nil])
  | elsewhere world =>
      exact latest.trans (by rw [Tracked.step, succeededWrite, List.append_nil])
  | write other value =>
      have applied := writeMemtable_apply platform other value tracked.workers.machine
      cases ran : tracked.workers.machine.engine.memtable.write other value
        (platform.now tracked.workers.machine.world).1.toUInt64 with
      | error fault =>
          simp only [ran] at applied
          simpa [Tracked.step, Workers.step, Workers.events, succeededWrite, succeeded, applied]
            using latest
      | ok written =>
          simp only [ran] at applied
          have stored := MemTable.get_write ran key
          rw [List.findSome?_cons] at latest
          simp only [Tracked.step, Workers.step, Workers.events, succeededWrite, succeeded, applied,
            final_ok, if_true, Runs.run_nil, StorageEngine.memtable_setMemtable,
            Write.last_append_singleton, Write.key_leaving, List.findSome?_cons, stored]
          by_cases same : key = other
          · simp [same]
          · simpa [same] using latest

/-- In every state of an orderly run, a get of a key that no task has in hand returns the
value written last, or what it returned before the run. -/
theorem Reading.get {start : Workers World Table} {tracked : Tracked World Table}
    (reading : Reading platform start tracked) (faithful : platform.Faithful)
    (running : start.machine.engine.closed = false)
    (leveled : 0 < start.machine.engine.config.maxLevels) {key : Key}
    (settled : ¬tracked.workers.InTransit key) :
    tracked.workers.machine.engine.get platform.toTableOps key =
      match Write.last tracked.written key with
      | some write => .ok write.value
      | none => start.machine.engine.get platform.toTableOps key := by
  have placed := reading.placed
  have carried : ∀ task, ∀ load ∈ tracked.belt.hand task, load.2.get key = none := by
    intro task load holding
    apply of_not_not
    intro held
    refine settled ⟨task, ?_⟩
    rw [placed.hands, holding]
    exact held
  have lost : ∀ load ∈ tracked.belt.lost, load.2.get key = none := by
    rw [reading.lost]
    exact nofun
  have searched := reading.accounted.findSome?_archive reading.ordered
    (fun memtable => memtable.get key) carried lost
  rw [Belt.listed, List.map_append, List.reverse_append, ← placed.immutable,
    List.findSome?_append] at searched
  rw [StorageEngine.get_eq (placed.closed.trans running), StorageEngine.get_eq running,
    StorageEngine.search_eq, StorageEngine.search_eq, placed.searchTables faithful leveled,
    ← Layered.orElse_assoc, Layered.orElse_ok_ok]
  have whole : (tracked.workers.machine.engine.memtables.findSome? fun memtable =>
      memtable.get key).or ((tracked.belt.stored.map Prod.snd).reverse.findSome? fun memtable =>
        memtable.get key) = (tracked.workers.machine.engine.memtable ::
          tracked.belt.archive.reverse).findSome? fun memtable => memtable.get key := by
    rw [List.findSome?_cons, ← searched, StorageEngine.memtables, List.findSome?_cons]
    cases tracked.workers.machine.engine.memtable.get key <;> rfl
  rw [whole]
  have latest := reading.latest key
  cases wrote : Write.last tracked.written key with
  | some write =>
      rw [wrote] at latest
      obtain ⟨entry, found, valued⟩ := Option.map_eq_some_iff.mp latest
      rw [found]
      exact congrArg Except.ok valued
  | none =>
      rw [wrote] at latest
      exact StorageEngine.map_value_orElse latest _

theorem reading_run {workers : Workers World Table}
    (empty : ∀ task, (workers.rotation task).hand = none) {moves : List (Move World)}
    (orderly : Runs.Guarded (Orderly platform) (step platform) (start workers) moves) :
    Reading platform workers (Runs.run (step platform) (start workers) moves) :=
  orderly.invariant (fun _ _ reading orderly => reading.step orderly) (reading_start empty)

/-- However the rotations of several tasks and the writes of clients interleave: where no
memtable overtakes another and no flush fails, a get of a key returns the value of the last
write that succeeded, unless a task has a memtable with the key in hand. -/
theorem get_last_written (faithful : platform.Faithful) {workers : Workers World Table}
    (empty : ∀ task, (workers.rotation task).hand = none)
    (running : workers.machine.engine.closed = false)
    (leveled : 0 < workers.machine.engine.config.maxLevels) {moves : List (Move World)}
    (orderly : Runs.Guarded (Orderly platform) (step platform) (start workers) moves) {key : Key}
    (settled : ¬(Runs.run (Workers.step platform) workers moves).InTransit key) :
    (Runs.run (Workers.step platform) workers moves).machine.engine.get platform.toTableOps key =
      match Write.last (Runs.run (step platform) (start workers) moves).written key with
      | some write => .ok write.value
      | none => workers.machine.engine.get platform.toTableOps key := by
  have reading := reading_run empty orderly
  have same : (Runs.run (step platform) (start workers) moves).workers =
    Runs.run (Workers.step platform) workers moves := workers_run platform _ moves
  rw [← same] at settled ⊢
  exact reading.get faithful running leveled settled

/-- A new engine with tasks that rotate nothing. -/
def quiet : Workers MemoryWorld MemoryTable where
  machine := MemoryWorld.start []
  rotation _ := .idle

/-- Two rotations overlap: both memtables are swapped out before the first is pushed, and
the first is flushed after the second has been pushed. -/
def overlapping : List (Move MemoryWorld) :=
  [.write [1] (some [10]), .rotation 0, .write [1] (some [11]), .rotation 1, .write [2] none,
    .rotation 0, .rotation 1, .rotation 1]

theorem memtables_placed_once_overlapping :
    Runs.Throughout (fun tracked => tracked.belt.Accounted ∧
        Placed MemoryWorld.platform quiet.machine.engine tracked.workers tracked.belt)
      (step MemoryWorld.platform) (start quiet) overlapping :=
  memtables_placed_once MemoryWorld.platform (fun _ => rfl) overlapping

theorem get_last_written_overlapping :
    (Runs.run (Workers.step MemoryWorld.platform) quiet overlapping).machine.engine.get
      MemoryTable.ops [1] = .ok (some [11]) := by
  have orderly : Runs.Guarded (Orderly MemoryWorld.platform) (step MemoryWorld.platform)
      (start quiet) overlapping := by
    decide +kernel
  have settled : ¬(Runs.run (Workers.step MemoryWorld.platform) quiet overlapping).InTransit
      [1] := by
    rintro ⟨task, holding⟩
    have busy : task = 0 ∨ task = 1 := by
      by_contra idle
      obtain ⟨zero, one⟩ := not_or.mp idle
      have unmoved : ∀ move ∈ overlapping, move ≠ .rotation task := by
        simp [overlapping, Ne.symm zero, Ne.symm one]
      rw [Workers.rotation_run_of_unmoved unmoved] at holding
      exact holding rfl
    rcases busy with rfl | rfl
    · exact holding (by decide +kernel)
    · exact holding (by decide +kernel)
  exact get_last_written MemoryWorld.platform_faithful (fun _ => rfl) rfl (by decide) orderly
    settled

/-! ## Rotations one at a time -/

/-- A rotation begins only while no other one is under way, and its flushes succeed. -/
def Alone (platform : Platform World Table) (workers : Workers World Table) :
    Move World → Prop
  | .rotation task =>
      match workers.rotation task with
      | .idle => ∀ other, workers.rotation other = .idle
      | .flushing oldest => succeeded (platform.flushTable workers.machine.engine.config oldest
          workers.machine.world)
      | .swapped _ | .flushed => True
  | .write _ _ | .elsewhere _ => True

/-- All tasks but one are idle, and what that one has in hand is next in the order of the
memtables. -/
structure Solitary (workers : Workers World Table) (belt : Belt MemTable) (task : Nat) : Prop where
  others : ∀ other, other ≠ task → workers.rotation other = .idle
  swapped : ∀ old, workers.rotation task = .swapped old →
    ∀ load ∈ belt.hand task, ∀ other ∈ belt.listed, other.1 < load.1
  flushing : ∀ oldest, workers.rotation task = .flushing oldest →
    ∀ load ∈ belt.hand task, (∀ other ∈ belt.stored, other.1 < load.1) ∧
      ∀ other ∈ belt.queue, load.1 < other.1

namespace Solitary

theorem others_become (others : ∀ other, other ≠ task → workers.rotation other = .idle)
    (machine : Machine World Table) (rotation : Rotation) :
    ∀ other, other ≠ task → (workers.become task machine rotation).rotation other = .idle := by
  intro other apart
  rw [Workers.rotation_become_of_ne workers apart]
  exact others other apart

/-- A task that has nothing in hand takes the oldest memtable, which is the next. -/
theorem takeOldest (placed : Placed platform origin workers belt) (ordered : belt.InOrder)
    (others : ∀ other, other ≠ task → workers.rotation other = .idle)
    (empty : (workers.rotation task).hand = none) :
    Runs.Guarded Belt.Orderly Belt.step belt (Workers.pulled task
        workers.machine.engine.immutableMemtables workers.machine.engine.config) ∧
      Solitary (workers.takeOldest task) (Runs.run Belt.step belt (Workers.pulled task
        workers.machine.engine.immutableMemtables workers.machine.engine.config)) task := by
  have idle : Solitary (workers.become task workers.machine .idle) belt task := by
    refine ⟨others_become others _ _, fun old stage => ?_, fun oldest stage => ?_⟩
    all_goals
      rw [Workers.rotation_become_self] at stage
      cases stage
  cases listed : workers.machine.engine.immutableMemtables with
  | nil =>
      rw [Workers.takeOldest_of_nil task listed]
      exact ⟨trivial, idle⟩
  | cons oldest rest =>
      rw [Workers.takeOldest_of_cons task listed, Workers.pulled, List.length_cons]
      split
      next full =>
        have queued := placed.immutable.symm.trans listed
        obtain ⟨load, waiting, queue, first, behind⟩ := List.map_eq_cons_iff.mp queued
        refine ⟨⟨⟨trivial, rfl⟩, trivial⟩, others_become others _ _, fun old stage => ?_, ?_⟩
        · rw [Workers.rotation_become_self] at stage
          cases stage
        · rw [Runs.run_cons, Runs.run_nil, Belt.step_pull (placed.hand_of_none empty) queue]
          rw [Belt.InOrder, Belt.listed, queue, List.pairwise_append, List.pairwise_cons] at ordered
          obtain ⟨_, ⟨before, _⟩, across⟩ := ordered
          intro _ _ held holding
          rw [Belt.hand_give, Function.update_self, Option.mem_some_iff] at holding
          subst holding
          exact ⟨fun other member => across other member load List.mem_cons_self, before⟩
      next => exact ⟨trivial, idle⟩

/-- The task that moves is the one at work, or none is. -/
theorem mover {other : Nat} (solitary : Solitary workers belt other)
    (alone : Alone platform workers (.rotation task)) : Solitary workers belt task := by
  by_cases same : task = other
  · rwa [same]
  · rw [Alone, solitary.others task same] at alone
    refine ⟨fun another _ => alone another, fun old stage => ?_, fun oldest stage => ?_⟩
    all_goals
      rw [alone task] at stage
      cases stage

/-- A step of the only rotation under way overtakes nothing. -/
theorem rotation (solitary : Solitary workers belt task)
    (placed : Placed platform origin workers belt) (accounted : belt.Accounted)
    (ordered : belt.InOrder) (alone : Alone platform workers (.rotation task)) :
    Runs.Guarded Belt.Orderly Belt.step belt (workers.events platform (.rotation task)) ∧
      Solitary (workers.step platform (.rotation task))
        (Runs.run Belt.step belt (workers.events platform (.rotation task))) task := by
  have others := solitary.others
  rw [Workers.step]
  cases stage : workers.rotation task with
  | idle =>
      have empty := placed.hand_of_none (congrArg Rotation.hand stage)
      simp only [Workers.events, stage]
      rw [Workers.advance_of_idle stage]
      refine ⟨⟨⟨trivial, rfl⟩, trivial⟩, others_become others _ _, fun old _ => ?_, ?_⟩
      · rw [Runs.run_cons, Runs.run_nil, Belt.step_take empty]
        intro load holding other member
        rw [Belt.hand_give, Function.update_self, Option.mem_some_iff] at holding
        subst holding
        rcases List.mem_append.mp member with stored | queued
        · exact (List.getElem?_eq_some_iff.mp (accounted.known other .stored stored)).1
        · exact (List.getElem?_eq_some_iff.mp (accounted.known other .queue queued)).1
      · intro oldest flushing
        rw [Workers.rotation_become_self] at flushing
        cases flushing
  | swapped old =>
      have pushed := placed.pushed stage
      have follows : belt.Follows (.push task) := solitary.swapped old stage
      have ordered := (ordered.step_iff (.push task)).mpr follows
      obtain ⟨orderly, taken⟩ := takeOldest pushed ordered (others_become others _ _)
        (congrArg Rotation.hand (Workers.rotation_become_self ..))
      rw [Workers.events_swapped stage, Workers.advance, stage]
      exact ⟨⟨⟨follows, rfl⟩, orderly⟩, taken⟩
  | flushing oldest =>
      rw [Alone, stage] at alone
      obtain ⟨made, ran⟩ := exists_ok_of_succeeded alone
      have follows : belt.Follows (.store task) := solitary.flushing oldest stage
      simp only [Workers.events, stage, alone, if_true]
      rw [Workers.advance_of_flushed stage ran]
      refine ⟨⟨⟨follows, rfl⟩, trivial⟩, others_become others _ _, fun old stage => ?_,
        fun oldest stage => ?_⟩
      all_goals
        rw [Workers.rotation_become_self] at stage
        cases stage
  | flushed =>
      simp only [Workers.events, stage]
      rw [Workers.advance_of_relocking stage]
      exact takeOldest placed ordered others (congrArg Rotation.hand stage)

end Solitary

/-- Rotations one at a time overtake nothing. -/
theorem orderly_of_alone {origin : Workers World Table} {tracked : Tracked World Table}
    (reading : Reading platform origin tracked) {task : Nat}
    (solitary : Solitary tracked.workers tracked.belt task) {moves : List (Move World)}
    (alone : Runs.Guarded (Alone platform) (Workers.step platform) tracked.workers moves) :
    Runs.Guarded (Orderly platform) (step platform) tracked moves := by
  induction moves generalizing tracked task with
  | nil => trivial
  | cons move moves ih =>
      cases move with
      | rotation mover =>
          obtain ⟨orderly, next⟩ := (solitary.mover alone.1).rotation reading.placed
            reading.accounted reading.ordered alone.1
          exact ⟨orderly, ih (reading.step orderly) next alone.2⟩
      | write key value =>
          have orderly : Orderly platform tracked (.write key value) := trivial
          exact ⟨orderly, ih (reading.step orderly) ⟨solitary.others, solitary.swapped,
            solitary.flushing⟩ alone.2⟩
      | elsewhere world =>
          have orderly : Orderly platform tracked (.elsewhere world) := trivial
          exact ⟨orderly, ih (reading.step orderly) ⟨solitary.others, solitary.swapped,
            solitary.flushing⟩ alone.2⟩

/-- Where each rotation begins after the one before it has ended and no flush fails, no
memtable overtakes another, and a get of a key returns the value of the last write that
succeeded, unless a task has a memtable with the key in hand. -/
theorem get_last_written_alone (faithful : platform.Faithful) {workers : Workers World Table}
    (idle : ∀ task, workers.rotation task = .idle)
    (running : workers.machine.engine.closed = false)
    (leveled : 0 < workers.machine.engine.config.maxLevels) {moves : List (Move World)}
    (alone : Runs.Guarded (Alone platform) (Workers.step platform) workers moves) :
    Runs.Guarded (Orderly platform) (step platform) (start workers) moves ∧
      ∀ key, ¬(Runs.run (Workers.step platform) workers moves).InTransit key →
        (Runs.run (Workers.step platform) workers moves).machine.engine.get
            platform.toTableOps key =
          match Write.last (Runs.run (step platform) (start workers) moves).written key with
          | some write => .ok write.value
          | none => workers.machine.engine.get platform.toTableOps key := by
  have empty : ∀ task, (workers.rotation task).hand = none :=
    fun task => congrArg Rotation.hand (idle task)
  have solitary : Solitary workers (start workers).belt 0 :=
    ⟨fun task _ => idle task, fun _ _ _ => nofun, fun _ _ _ => nofun⟩
  have orderly := orderly_of_alone (reading_start empty) solitary alone
  refine ⟨orderly, fun key settled => ?_⟩
  have reading := reading_run empty orderly
  have same : (Runs.run (step platform) (start workers) moves).workers =
    Runs.run (Workers.step platform) workers moves := workers_run platform _ moves
  rw [← same] at settled ⊢
  exact reading.get faithful running leveled settled

/-- A rotation between two writes of one key. -/
def between : List (Move MemoryWorld) :=
  [.write [1] (some [10]), .rotation 0, .rotation 0, .write [1] none]

theorem get_last_written_alone_between :
    Runs.Guarded (Orderly MemoryWorld.platform) (step MemoryWorld.platform) (start quiet)
        between ∧
      (Runs.run (Workers.step MemoryWorld.platform) quiet between).machine.engine.get
        MemoryTable.ops [1] = .ok none := by
  have alone : Runs.Guarded (Alone MemoryWorld.platform)
      (Workers.step MemoryWorld.platform) quiet between :=
    ⟨trivial, fun _ => rfl, trivial, trivial, trivial⟩
  have settled : ¬(Runs.run (Workers.step MemoryWorld.platform) quiet between).InTransit
      [1] := by
    rintro ⟨task, holding⟩
    by_cases moved : task = 0
    · subst moved
      exact holding (by decide +kernel)
    · have unmoved : ∀ move ∈ between, move ≠ .rotation task := by
        simpa [between, eq_comm] using moved
      rw [Workers.rotation_run_of_unmoved unmoved] at holding
      exact holding rfl
  obtain ⟨orderly, reads⟩ :=
    get_last_written_alone MemoryWorld.platform_faithful (fun _ => rfl) rfl (by decide) alone
  exact ⟨orderly, reads [1] settled⟩

end Tracked

end JustDb

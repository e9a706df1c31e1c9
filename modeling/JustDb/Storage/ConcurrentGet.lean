import JustDb.Storage.InMemory
import JustDb.Storage.ReadYourWrites
import JustDb.Library.Runs

/-!
# A get among rotations and flushes

A rotation takes its locks one after another: it swaps the memtable out, pushes it to
the immutable list and takes the oldest one off it, and pushes the table built from that
one to level 0.  Between two of these steps the memtable in hand is in no list.  A get
takes its three locks one after another as well, with any number of such steps in
between.
-/

namespace JustDb

open Stateful Machine

variable {World Table : Type}

/-- Where a rotation stands between its atomic steps. -/
inductive Rotation where
  | idle
  | swapped (old : MemTable)
  | flushing (oldest : MemTable)
  | flushed

namespace Rotation

/-- The memtable that the rotation has taken out of one list and not put in the next. -/
def hand : Rotation → Option MemTable
  | .swapped old => some old
  | .flushing oldest => some oldest
  | .idle | .flushed => none

end Rotation

/-- The machine that the tasks share, and where the rotation of each task stands. -/
structure Workers (World Table : Type) where
  machine : Machine World Table
  rotation : Nat → Rotation

/-- What happens next: the rotation of a task takes its next step, a client writes to
the current memtable, or other tasks change the world. -/
inductive Move (World : Type) where
  | rotation (task : Nat)
  | write (key : Key) (value : Option Value)
  | elsewhere (world : World)

namespace Workers

variable (platform : Platform World Table)

/-- A task has come to its next step with the machine in a given state. -/
def become (workers : Workers World Table) (task : Nat) (machine : Machine World Table)
    (rotation : Rotation) : Workers World Table where
  machine
  rotation := Function.update workers.rotation task rotation

/-- The test of the loop, under the lock of the immutable list: take the oldest memtable
off a list that is too long, or leave. -/
def takeOldest (workers : Workers World Table) (task : Nat) : Workers World Table :=
  let engine := workers.machine.engine
  match engine.immutableMemtables with
  | [] => workers.become task workers.machine .idle
  | oldest :: rest =>
      if rest.length + 1 > engine.config.maxMemtables then
        workers.become task { workers.machine with engine := engine.setImmutable rest }
          (.flushing oldest)
      else
        workers.become task workers.machine .idle

/-- The next atomic step of a task's rotation.  A flush that fails ends the rotation. -/
def advance (workers : Workers World Table) (task : Nat) : Workers World Table :=
  match workers.rotation task with
  | .idle =>
      match swapMemtable workers.machine with
      | .ok old machine => workers.become task machine (.swapped old)
      | .error _ machine => workers.become task machine .idle
  | .swapped old =>
      (workers.become task (final (pushImmutable old workers.machine)) .flushed).takeOldest task
  | .flushing oldest =>
      match flushMemtable platform oldest workers.machine with
      | .ok _ machine => workers.become task machine .flushed
      | .error _ machine => workers.become task machine .idle
  | .flushed => workers.takeOldest task

def step (workers : Workers World Table) : Move World → Workers World Table
  | .rotation task => workers.advance platform task
  | .write key value =>
      { workers with machine := final (writeMemtable platform key value workers.machine) }
  | .elsewhere world => { workers with machine := { workers.machine with world } }

@[simp] theorem machine_become (workers : Workers World Table) (task : Nat)
    (machine : Machine World Table) (rotation : Rotation) :
    (workers.become task machine rotation).machine = machine := rfl

@[simp] theorem rotation_become_self (workers : Workers World Table) (task : Nat)
    (machine : Machine World Table) (rotation : Rotation) :
    (workers.become task machine rotation).rotation task = rotation :=
  Function.update_self ..

theorem rotation_become_of_ne (workers : Workers World Table) {task other : Nat}
    (apart : other ≠ task) (machine : Machine World Table) (rotation : Rotation) :
    (workers.become task machine rotation).rotation other = workers.rotation other :=
  Function.update_of_ne apart ..

@[simp] theorem become_become (workers : Workers World Table) (task : Nat)
    (first second : Machine World Table) (before after : Rotation) :
    (workers.become task first before).become task second after =
      workers.become task second after := by
  simp [become]

section Flush

variable {platform} {workers : Workers World Table} {task : Nat} {oldest : MemTable}
  {world : World}

/-- A flush that succeeds pushes its table. -/
theorem advance_of_flushed (flushing : workers.rotation task = .flushing oldest)
    {made : Option Table}
    (ran : platform.flushTable workers.machine.engine.config oldest workers.machine.world =
      .ok made world) :
    workers.advance platform task =
      workers.become task { engine := workers.machine.engine.install made, world } .flushed := by
  rw [advance, flushing]
  simp only [flushMemtable_apply, ran]

/-- A flush that fails ends the rotation. -/
theorem advance_of_failed (flushing : workers.rotation task = .flushing oldest) {fault : Fault}
    (ran : platform.flushTable workers.machine.engine.config oldest workers.machine.world =
      .error fault world) :
    workers.advance platform task =
      workers.become task { workers.machine with world } .idle := by
  rw [advance, flushing]
  simp only [flushMemtable_apply, ran]

theorem advance_of_relocking (relocking : workers.rotation task = .flushed) :
    workers.advance platform task = workers.takeOldest task := by
  rw [advance, relocking]

end Flush

theorem takeOldest_of_nil {workers : Workers World Table} (task : Nat)
    (none : workers.machine.engine.immutableMemtables = []) :
    workers.takeOldest task = workers.become task workers.machine .idle := by
  simp only [takeOldest, none]

theorem takeOldest_of_cons {workers : Workers World Table} (task : Nat) {oldest : MemTable}
    {rest : List MemTable}
    (listed : workers.machine.engine.immutableMemtables = oldest :: rest) :
    workers.takeOldest task =
      if rest.length + 1 > workers.machine.engine.config.maxMemtables then
        workers.become task
          { workers.machine with engine := workers.machine.engine.setImmutable rest }
          (.flushing oldest)
      else workers.become task workers.machine .idle := by
  simp only [takeOldest, listed]

/-- Left alone, a task that comes to the test flushes what is left to flush. -/
theorem run_takeOldest (fuel : Nat) (workers : Workers World Table) (task : Nat)
    (enough : workers.machine.engine.immutableMemtables.length ≤ fuel) :
    ∃ turns, Runs.run (step platform) (workers.takeOldest task)
        (List.replicate turns (.rotation task)) =
      workers.become task (final (flushExcess platform fuel workers.machine)) .idle := by
  induction fuel generalizing workers with
  | zero =>
      have none := List.eq_nil_of_length_eq_zero (Nat.le_zero.mp enough)
      exact ⟨0, takeOldest_of_nil task none⟩
  | succ fuel ih =>
      cases listed : workers.machine.engine.immutableMemtables with
      | nil =>
          refine ⟨0, (takeOldest_of_nil task listed).trans ?_⟩
          simp [listed, flushExcess, bind_eq]
      | cons oldest rest =>
          rw [listed] at enough
          rw [flushExcess_succ platform fuel listed, takeOldest_of_cons task listed]
          split
          next =>
            set waiting := workers.become task
              { workers.machine with engine := workers.machine.engine.setImmutable rest }
              (.flushing oldest)
            have flushing : waiting.rotation task = .flushing oldest := rotation_become_self ..
            cases ran : platform.flushTable workers.machine.engine.config oldest
              workers.machine.world with
            | error fault world =>
                refine ⟨1, (advance_of_failed flushing ran).trans ?_⟩
                exact become_become ..
            | ok made world =>
                set pushed := waiting.become task
                  { engine := waiting.machine.engine.install made, world } .flushed
                have shorter : pushed.machine.engine.immutableMemtables.length ≤ fuel := by
                  simpa [pushed, waiting] using enough
                obtain ⟨turns, left⟩ := ih pushed shorter
                refine ⟨turns + 2, ?_⟩
                simp only [List.replicate_succ, Runs.run_cons, step]
                rw [advance_of_flushed flushing ran,
                  advance_of_relocking (rotation_become_self ..), left]
                exact (become_become ..).trans (become_become ..)
          next => exact ⟨0, rfl⟩

/-- Flushes succeed, and no client writes the key. -/
def Allowed (key : Key) (workers : Workers World Table) : Move World → Prop
  | .rotation task =>
      match workers.rotation task with
      | .flushing oldest => succeeded (platform.flushTable workers.machine.engine.config oldest
          workers.machine.world)
      | _ => True
  | .write other _ => other ≠ key
  | .elsewhere _ => True

/-- Left alone, the steps of one task make up `rotate_memtable`. -/
theorem run_alone (workers : Workers World Table) (task : Nat)
    (idle : workers.rotation task = .idle) :
    ∃ turns, Runs.run (step platform) workers (List.replicate turns (.rotation task)) =
      workers.become task (final (rotateMemtable platform workers.machine)) .idle := by
  set rotated : Machine World Table :=
    { workers.machine with engine := workers.machine.engine.rotated }
  have length : rotated.engine.immutableMemtables.length ≤
      workers.machine.engine.immutableMemtables.length + 1 := by
    simp [rotated, StorageEngine.rotated]
  obtain ⟨turns, left⟩ := run_takeOldest platform _ (workers.become task rotated .flushed) task
    length
  refine ⟨turns + 2, ?_⟩
  have swapped : workers.advance platform task = workers.become task
      (final (swapMemtable workers.machine))
      (.swapped workers.machine.engine.memtable.makeImmutable) := by
    rw [advance, idle]
    rfl
  have pushed : (workers.become task (final (swapMemtable workers.machine))
      (.swapped workers.machine.engine.memtable.makeImmutable)).advance platform task =
        (workers.become task rotated .flushed).takeOldest task := by
    rw [advance, rotation_become_self]
    simp only [become_become]
    rfl
  simp only [List.replicate_succ, Runs.run_cons, step]
  rw [swapped, pushed, left, rotateMemtable_apply]
  exact become_become ..

/-! ## The get -/

/-- `get` as its three reads, each of the engine as it is by then: the current memtable,
the immutable list from its newest memtable down, the tables. -/
def threeReads (ops : TableOps Table) (key : Key) (first second third : StorageEngine Table) :
    Result (Option Value) :=
  if first.closed then
    .error (.error .closed)
  else
    match first.memtable.get key with
    | some entry => .ok entry.value
    | none =>
        match second.immutableMemtables.reverse.findSome? fun memtable => memtable.get key with
        | some entry => .ok entry.value
        | none => (third.searchTables ops key).map fun found => found.bind Entry.value

/-- On an engine that stands still the reads make up `get`. -/
theorem threeReads_self (ops : TableOps Table) (key : Key) (engine : StorageEngine Table) :
    threeReads ops key engine engine engine = engine.get ops key := by
  rw [threeReads]
  split
  next stopped => exact (StorageEngine.get_of_closed stopped key).symm
  next running =>
    rw [StorageEngine.get_eq (by simpa using running), StorageEngine.search_eq,
      StorageEngine.memtables, List.findSome?_cons]
    cases engine.memtable.get key with
    | some entry => rfl
    | none =>
        dsimp only
        cases engine.immutableMemtables.reverse.findSome? fun memtable => memtable.get key with
        | some entry => rfl
        | none => rw [Layered.none_orElse]

/-- A rotation holds a memtable with the key between two of its steps. -/
def InTransit (key : Key) (workers : Workers World Table) : Prop :=
  ∃ task, ((workers.rotation task).hand.bind fun memtable => memtable.get key) ≠ none

/-- A memtable with the key has been swapped out and is not a table of level 0 yet. -/
def Waits (key : Key) (workers : Workers World Table) : Prop :=
  workers.InTransit key ∨
    ∃ memtable ∈ workers.machine.engine.immutableMemtables, memtable.get key ≠ none

/-- Nothing that a task can reach holds the key, on a running engine with levels. -/
structure Absent (ops : TableOps Table) (key : Key) (workers : Workers World Table) : Prop where
  running : workers.machine.engine.closed = false
  leveled : 0 < workers.machine.engine.config.maxLevels
  memtable : workers.machine.engine.memtable.get key = none
  waits : ¬workers.Waits key
  tables : workers.machine.engine.searchTables ops key = .ok none

/-! ## The way of an entry -/

/-- Where the memtable with an entry can be. -/
inductive Place where
  | current
  | hand (task : Nat)
  | immutable
  | stored
  deriving DecidableEq

/-- What is found under a key at a place. -/
def shown (ops : TableOps Table) (key : Key) (workers : Workers World Table) :
    Place → Result (List Entry)
  | .current => .ok (workers.machine.engine.memtable.get key).toList
  | .hand task =>
      .ok ((workers.rotation task).hand.bind fun memtable => memtable.get key).toList
  | .immutable =>
      .ok (workers.machine.engine.immutableMemtables.filterMap fun memtable => memtable.get key)
  | .stored => (workers.machine.engine.searchTables ops key).map Option.toList

/-- An entry does not go back to the current memtable, nor leave level 0. -/
structure Place.Onward (before after : Place) : Prop where
  current : after = .current → before = .current
  stored : before = .stored → after = .stored

theorem Place.Onward.refl (place : Place) : place.Onward place :=
  ⟨id, id⟩

theorem Place.Onward.trans {first second third : Place} (start : first.Onward second)
    (rest : second.Onward third) : first.Onward third :=
  ⟨fun current => start.current (rest.current current),
    fun stored => rest.stored (start.stored stored)⟩

/-- Between the current memtable and level 0. -/
theorem Place.onward_of_ne {before after : Place} (current : after ≠ .current)
    (stored : before ≠ .stored) : before.Onward after :=
  ⟨fun back => absurd back current, fun left => absurd left stored⟩

/-- On a running engine with levels, an entry is found under its key at one place, and
nothing at the others. -/
structure HeldAt (ops : TableOps Table) (key : Key) (entry : Entry) (place : Place)
    (workers : Workers World Table) : Prop where
  running : workers.machine.engine.closed = false
  leveled : 0 < workers.machine.engine.config.maxLevels
  shown : ∀ other, workers.shown ops key other = .ok (if place = other then [entry] else [])

/-- A step that takes what is found at one place, or a part of it, to another place. -/
structure Transfer (ops : TableOps Table) (key : Key) (before after : Workers World Table)
    (source target : Place) (moved rest : List Entry) : Prop where
  config : after.machine.engine.config = before.machine.engine.config
  closed : after.machine.engine.closed = before.machine.engine.closed
  apart : source ≠ target
  onward : source.Onward target
  taken : before.shown ops key source = .ok (moved ++ rest)
  left : after.shown ops key source = .ok rest
  nothing : moved = [] → after.shown ops key target = before.shown ops key target
  arrived : before.shown ops key target = .ok [] → after.shown ops key target = .ok moved
  others : ∀ other, other ≠ source → other ≠ target →
    after.shown ops key other = before.shown ops key other

section Held

variable {platform : Platform World Table} {key : Key} {entry : Entry} {place : Place}
  {workers : Workers World Table}

/-- The first write of a key puts its entry in the current memtable. -/
theorem Absent.written {value : Option Value} {reached : Machine World Table}
    (absent : workers.Absent platform.toTableOps key)
    (ran : writeMemtable platform key value workers.machine = .ok () reached) :
    ∃ entry, entry.value = value ∧
      HeldAt platform.toTableOps key entry .current { workers with machine := reached } := by
  rw [writeMemtable_apply] at ran
  split at ran
  next written stored =>
    cases ran
    have found := MemTable.get_write stored key
    rw [if_pos rfl] at found
    obtain ⟨entry, valued, found⟩ : ∃ entry : Entry, entry.value = value ∧
        written.get key = some entry := ⟨_, rfl, found⟩
    refine ⟨entry, valued, absent.running, absent.leveled, fun place => ?_⟩
    cases place with
    | current => exact congrArg (fun held => Except.ok held.toList) found
    | hand task =>
        have none : ((workers.rotation task).hand.bind fun memtable => memtable.get key) = none :=
          of_not_not fun holding => absent.waits (.inl ⟨task, holding⟩)
        exact congrArg (fun held => Except.ok held.toList) none
    | immutable =>
        refine congrArg Except.ok (List.filterMap_eq_nil_iff.mpr fun memtable member => ?_)
        exact of_not_not fun holding => absent.waits (.inr ⟨memtable, member, holding⟩)
    | stored => exact congrArg (Except.map Option.toList) absent.tables
  next => cases ran

namespace HeldAt

theorem transfer (held : HeldAt platform.toTableOps key entry place workers)
    {after : Workers World Table} {source target : Place} {moved rest : List Entry}
    (transfer : Transfer platform.toTableOps key workers after source target moved rest) :
    ∃ next, place.Onward next ∧ HeldAt platform.toTableOps key entry next after := by
  have running := transfer.closed.trans held.running
  have leveled : 0 < after.machine.engine.config.maxLevels := by
    rw [transfer.config]
    exact held.leveled
  have whole := Except.ok.inj (transfer.taken.symm.trans (held.shown source))
  cases moved with
  | nil =>
      refine ⟨place, .refl place, running, leveled, fun other => ?_⟩
      rw [← held.shown other]
      by_cases source' : other = source
      · subst source'
        exact transfer.left.trans transfer.taken.symm
      · by_cases target' : other = target
        · subst target'
          exact transfer.nothing rfl
        · exact transfer.others other source' target'
  | cons first moved =>
      split at whole
      next here =>
        subst here
        obtain ⟨rfl, empty⟩ := List.cons.inj whole
        obtain ⟨rfl, rfl⟩ := List.append_eq_nil_iff.mp empty
        refine ⟨target, transfer.onward, running, leveled, fun other => ?_⟩
        by_cases source' : other = place
        · subst source'
          rw [transfer.left, if_neg transfer.apart.symm]
        · by_cases target' : other = target
          · subst target'
            have nothing := held.shown other
            rw [if_neg transfer.apart] at nothing
            rw [transfer.arrived nothing, if_pos rfl]
          · rw [transfer.others other source' target', held.shown,
              if_neg (Ne.symm source'), if_neg (Ne.symm target')]
      next => cases whole

/-- A step after which everything is found where it was. -/
theorem of_shown (held : HeldAt platform.toTableOps key entry place workers)
    {after : Workers World Table}
    (config : after.machine.engine.config = workers.machine.engine.config)
    (closed : after.machine.engine.closed = workers.machine.engine.closed)
    (shown : ∀ other, after.shown platform.toTableOps key other =
      workers.shown platform.toTableOps key other) :
    HeldAt platform.toTableOps key entry place after where
  running := closed.trans held.running
  leveled := by
    rw [config]
    exact held.leveled
  shown := fun other => (shown other).trans (held.shown other)

end HeldAt

/-- What the other tasks hold is found where it was. -/
theorem shown_become_hand {task other : Nat} (apart : Place.hand other ≠ Place.hand task)
    (ops : TableOps Table) (machine : Machine World Table) (rotation : Rotation) :
    (workers.become task machine rotation).shown ops key (.hand other) =
      workers.shown ops key (.hand other) := by
  have different : other ≠ task := fun same => apart (congrArg Place.hand same)
  rw [shown, shown, rotation_become_of_ne workers different]

theorem shown_become_self (task : Nat) (ops : TableOps Table) (machine : Machine World Table)
    (rotation : Rotation) :
    (workers.become task machine rotation).shown ops key (.hand task) =
      .ok (rotation.hand.bind fun memtable => memtable.get key).toList := by
  rw [shown, rotation_become_self]

theorem shown_hand (ops : TableOps Table) {task : Nat} {rotation : Rotation}
    (stage : workers.rotation task = rotation) :
    workers.shown ops key (.hand task) =
      .ok (rotation.hand.bind fun memtable => memtable.get key).toList := by
  rw [shown, stage]

/-- The memtable swapped out comes to the task's hand. -/
theorem transfer_swap (ops : TableOps Table) {task : Nat}
    (idle : workers.rotation task = .idle) :
    Transfer ops key workers (workers.advance platform task) .current (.hand task)
      (workers.machine.engine.memtable.get key).toList [] := by
  have swapped : workers.advance platform task = workers.become task
      (final (swapMemtable workers.machine))
      (.swapped workers.machine.engine.memtable.makeImmutable) := by
    rw [advance, idle]
    rfl
  have empty : workers.shown ops key (.hand task) = .ok [] := shown_hand ops idle
  rw [swapped]
  constructor
  case config => rfl
  case closed => rfl
  case apart => exact nofun
  case onward => exact Place.onward_of_ne nofun nofun
  case taken => exact congrArg Except.ok (List.append_nil _).symm
  case left => exact congrArg (fun held => Except.ok held.toList) (MemTable.get_withSequence ..)
  case nothing =>
    intro none
    rw [empty, shown_become_self]
    exact congrArg Except.ok none
  case arrived =>
    intro _
    exact shown_become_self ..
  case others =>
    intro other source target
    cases other with
    | current => exact absurd rfl source
    | hand other => exact shown_become_hand target ..
    | immutable => rfl
    | stored => rfl

/-- The memtable in hand goes to the end of the immutable list. -/
theorem transfer_push (ops : TableOps Table) {task : Nat} {old : MemTable}
    (swapped : workers.rotation task = .swapped old) :
    Transfer ops key workers
      (workers.become task (final (pushImmutable old workers.machine)) .flushed) (.hand task)
      .immutable (old.get key).toList [] := by
  have appended : (workers.become task (final (pushImmutable old workers.machine))
      .flushed).shown ops key .immutable =
        .ok (workers.machine.engine.immutableMemtables.filterMap (fun memtable =>
          memtable.get key) ++ (old.get key).toList) := by
    refine congrArg Except.ok ((List.filterMap_append ..).trans (congrArg _ ?_))
    cases found : old.get key <;> simp [found]
  constructor
  case config => rfl
  case closed => rfl
  case apart => exact nofun
  case onward => exact Place.onward_of_ne nofun nofun
  case taken => exact (shown_hand ops swapped).trans (congrArg Except.ok (List.append_nil _).symm)
  case left => exact shown_become_self ..
  case nothing =>
    intro none
    rw [appended, none, List.append_nil]
    rfl
  case arrived =>
    intro nothing
    rw [appended, Except.ok.inj nothing, List.nil_append]
  case others =>
    intro other source target
    cases other with
    | current => rfl
    | hand other => exact shown_become_hand source ..
    | immutable => exact absurd rfl target
    | stored => rfl

/-- The oldest memtable comes off the immutable list. -/
theorem transfer_oldest (ops : TableOps Table) {task : Nat} {oldest : MemTable}
    {rest : List MemTable}
    (listed : workers.machine.engine.immutableMemtables = oldest :: rest)
    (empty : (workers.rotation task).hand = none) :
    Transfer ops key workers
      (workers.become task
        { workers.machine with engine := workers.machine.engine.setImmutable rest }
        (.flushing oldest))
      .immutable (.hand task) (oldest.get key).toList
      (rest.filterMap fun memtable => memtable.get key) := by
  constructor
  case config => rfl
  case closed => rfl
  case apart => exact nofun
  case onward => exact Place.onward_of_ne nofun nofun
  case taken =>
    rw [shown, listed]
    cases found : oldest.get key <;> simp [found]
  case left => rfl
  case nothing =>
    intro none
    rw [shown_become_self, shown, empty]
    exact congrArg Except.ok none
  case arrived =>
    intro _
    exact shown_become_self ..
  case others =>
    intro other source target
    cases other with
    | current => rfl
    | hand other => exact shown_become_hand target ..
    | immutable => exact absurd rfl source
    | stored => rfl

/-- A flush that succeeds makes a table of level 0 of the memtable in hand. -/
theorem transfer_flush (faithful : platform.Faithful)
    (leveled : 0 < workers.machine.engine.config.maxLevels) {task : Nat} {oldest : MemTable}
    (flushing : workers.rotation task = .flushing oldest) {made : Option Table} {world : World}
    (ran : platform.flushTable workers.machine.engine.config oldest workers.machine.world =
      .ok made world) :
    Transfer platform.toTableOps key workers
      (workers.become task { engine := workers.machine.engine.install made, world } .flushed)
      (.hand task) .stored (oldest.get key).toList [] := by
  have search := StorageEngine.searchTables_install faithful workers.machine.engine leveled ran
    key
  constructor
  case config => exact StorageEngine.config_install ..
  case closed => exact StorageEngine.closed_install ..
  case apart => exact nofun
  case onward => exact Place.onward_of_ne nofun nofun
  case taken =>
    exact (shown_hand _ flushing).trans (congrArg Except.ok (List.append_nil _).symm)
  case left => exact shown_become_self ..
  case nothing =>
    intro none
    rw [Option.toList_eq_nil_iff.mp none, Layered.none_orElse] at search
    exact congrArg (Except.map Option.toList) search
  case arrived =>
    intro nothing
    refine (congrArg (Except.map Option.toList) search).trans ?_
    rw [shown] at nothing
    cases found : workers.machine.engine.searchTables platform.toTableOps key with
    | error fault =>
        rw [found] at nothing
        cases nothing
    | ok held =>
        rw [found] at nothing
        rw [Option.toList_eq_nil_iff.mp (Except.ok.inj nothing), Layered.orElse_none]
        rfl
  case others =>
    intro other source target
    cases other with
    | current =>
        rw [shown, machine_become, StorageEngine.memtable_install]
        rfl
    | hand other => exact shown_become_hand source ..
    | immutable =>
        rw [shown, machine_become, StorageEngine.immutableMemtables_install]
        rfl
    | stored => exact absurd rfl target

namespace HeldAt

/-- A task that holds no memtable takes the oldest one off the immutable list, or
leaves. -/
theorem takeOldest (held : HeldAt platform.toTableOps key entry place workers) {task : Nat}
    (empty : (workers.rotation task).hand = none) :
    ∃ next, place.Onward next ∧
      HeldAt platform.toTableOps key entry next (workers.takeOldest task) := by
  have leaving : HeldAt platform.toTableOps key entry place
      (workers.become task workers.machine .idle) := by
    refine held.of_shown rfl rfl fun other => ?_
    cases other with
    | current => rfl
    | immutable => rfl
    | stored => rfl
    | hand other =>
        by_cases same : other = task
        · rw [same, shown_become_self, Workers.shown, empty]
          rfl
        · exact shown_become_hand (fun equal => same (Place.hand.inj equal)) ..
  cases listed : workers.machine.engine.immutableMemtables with
  | nil =>
      rw [takeOldest_of_nil task listed]
      exact ⟨place, .refl place, leaving⟩
  | cons oldest rest =>
      rw [takeOldest_of_cons task listed]
      split
      · exact held.transfer (transfer_oldest _ listed empty)
      · exact ⟨place, .refl place, leaving⟩

/-- A step moves the entry onward, or leaves it where it is. -/
theorem step (held : HeldAt platform.toTableOps key entry place workers)
    (faithful : platform.Faithful) {move : Move World}
    (allowed : workers.Allowed platform key move) :
    ∃ next, place.Onward next ∧
      HeldAt platform.toTableOps key entry next (workers.step platform move) := by
  cases move with
  | rotation task =>
      change ∃ next, place.Onward next ∧
        HeldAt platform.toTableOps key entry next (workers.advance platform task)
      cases stage : workers.rotation task with
      | idle => exact held.transfer (transfer_swap _ stage)
      | swapped old =>
          obtain ⟨middle, onward, pushed⟩ := held.transfer (transfer_push _ stage)
          obtain ⟨next, further, taken⟩ := pushed.takeOldest
            (congrArg Rotation.hand (rotation_become_self ..))
          refine ⟨next, onward.trans further, ?_⟩
          rw [advance, stage]
          exact taken
      | flushing oldest =>
          rw [Allowed, stage] at allowed
          obtain ⟨made, ran⟩ := exists_ok_of_succeeded allowed
          rw [advance_of_flushed stage ran]
          exact held.transfer (transfer_flush faithful held.leveled stage ran)
      | flushed =>
          rw [advance_of_relocking stage]
          exact held.takeOldest (congrArg Rotation.hand stage)
  | write other value =>
      refine ⟨place, .refl place, ?_⟩
      rw [Workers.step, writeMemtable_apply]
      split
      next written stored =>
        have kept := MemTable.get_write stored key
        rw [if_neg (Ne.symm allowed)] at kept
        refine held.of_shown rfl rfl fun place => ?_
        cases place with
        | current => exact congrArg (fun held => Except.ok held.toList) kept
        | hand task => rfl
        | immutable => rfl
        | stored => rfl
      next => exact held.of_shown rfl rfl fun place => by cases place <;> rfl
  | elsewhere world =>
      exact ⟨place, .refl place, held.of_shown rfl rfl fun place => by cases place <;> rfl⟩

/-- So do the steps of a run. -/
theorem run (held : HeldAt platform.toTableOps key entry place workers)
    (faithful : platform.Faithful) {moves : List (Move World)}
    (allowed : Runs.Guarded (Allowed platform key) (Workers.step platform) workers moves) :
    ∃ next, place.Onward next ∧ HeldAt platform.toTableOps key entry next
      (Runs.run (Workers.step platform) workers moves) := by
  induction moves generalizing place workers with
  | nil => exact ⟨place, .refl place, held⟩
  | cons move moves ih =>
      obtain ⟨middle, onward, held⟩ := held.step faithful allowed.1
      obtain ⟨next, further, held⟩ := ih held allowed.2
      exact ⟨next, onward.trans further, held⟩

/-! ### What the reads of a get find -/

theorem memtable_get (held : HeldAt platform.toTableOps key entry place workers) :
    workers.machine.engine.memtable.get key = if place = .current then some entry else none := by
  have shown := Except.ok.inj (held.shown .current)
  split at shown
  next here =>
    rw [if_pos here]
    exact Option.toList_eq_singleton_iff.mp shown
  next elsewhere =>
    rw [if_neg elsewhere]
    exact Option.toList_eq_nil_iff.mp shown

theorem immutable_get (held : HeldAt platform.toTableOps key entry place workers) :
    (workers.machine.engine.immutableMemtables.reverse.findSome? fun memtable =>
      memtable.get key) = if place = .immutable then some entry else none := by
  have shown := Except.ok.inj (held.shown .immutable)
  rw [← List.head?_filterMap, List.filterMap_reverse, shown]
  split <;> rfl

theorem searchTables (held : HeldAt platform.toTableOps key entry place workers) :
    workers.machine.engine.searchTables platform.toTableOps key =
      .ok (if place = .stored then some entry else none) := by
  have shown := held.shown .stored
  rw [Workers.shown] at shown
  cases found : workers.machine.engine.searchTables platform.toTableOps key with
  | error fault =>
      rw [found] at shown
      cases shown
  | ok held =>
      rw [found] at shown
      have shown : held.toList = _ := Except.ok.inj shown
      split at shown
      next => rw [Option.toList_eq_singleton_iff.mp shown, if_pos ‹_›]
      next => rw [Option.toList_eq_nil_iff.mp shown, if_neg ‹_›]

theorem inTransit_iff (held : HeldAt platform.toTableOps key entry place workers) :
    workers.InTransit key ↔ ∃ task, place = .hand task := by
  refine exists_congr fun task => ?_
  have shown := Except.ok.inj (held.shown (.hand task))
  rw [ne_eq, ← Option.toList_eq_nil_iff, shown]
  split
  next here => exact iff_of_true (List.cons_ne_nil _ _) here
  next elsewhere => exact iff_of_false (fun holding => holding rfl) elsewhere

theorem waits_iff (held : HeldAt platform.toTableOps key entry place workers) :
    workers.Waits key ↔ place = .immutable ∨ ∃ task, place = .hand task := by
  have listed : (∃ memtable ∈ workers.machine.engine.immutableMemtables,
      memtable.get key ≠ none) ↔ place = .immutable := by
    have some : (∃ memtable ∈ workers.machine.engine.immutableMemtables,
        memtable.get key ≠ none) ↔ workers.machine.engine.immutableMemtables.filterMap
          (fun memtable => memtable.get key) ≠ [] := by
      rw [ne_eq, List.filterMap_eq_nil_iff]
      push Not
      rfl
    rw [some, Except.ok.inj (held.shown .immutable)]
    split
    next here => exact iff_of_true (List.cons_ne_nil _ _) here
    next elsewhere => exact iff_of_false (fun holding => holding rfl) elsewhere
  rw [Waits, held.inTransit_iff, listed, or_comm]

end HeldAt

end Held

end Workers

/-! ## Interleavings -/

/-- When a get takes its three reads: the moves of the other tasks before the first read,
and those before each of the next two. -/
structure Schedule (World : Type) where
  beforeFirst : List (Move World)
  beforeSecond : List (Move World)
  beforeThird : List (Move World)

namespace Schedule

variable (platform : Platform World Table) (schedule : Schedule World)
  (start : Workers World Table)

/-- All moves, in order. -/
def moves : List (Move World) :=
  schedule.beforeFirst ++ schedule.beforeSecond ++ schedule.beforeThird

/-- What the first read finds. -/
def first : Workers World Table :=
  Runs.run (Workers.step platform) start schedule.beforeFirst

/-- What the second read finds. -/
def second : Workers World Table :=
  Runs.run (Workers.step platform) (schedule.first platform start) schedule.beforeSecond

/-- What the third read finds. -/
def third : Workers World Table :=
  Runs.run (Workers.step platform) (schedule.second platform start) schedule.beforeThird

/-- The answer of the get. -/
def get (key : Key) : Result (Option Value) :=
  Workers.threeReads platform.toTableOps key (schedule.first platform start).machine.engine
    (schedule.second platform start).machine.engine
    (schedule.third platform start).machine.engine

/-- The first read comes before the memtable with the key is swapped out, or no rotation
holds that memtable between two steps at the second read, or it is a table by the third
read. -/
def AvoidsGaps (key : Key) : Prop :=
  (schedule.first platform start).machine.engine.memtable.get key ≠ none ∨
    ¬(schedule.second platform start).InTransit key ∨
    ¬(schedule.third platform start).Waits key

variable {platform schedule}

/-- A get that begins after the only write of a key has returned finds the value exactly
when its reads do not fall into the gaps of the rotation and the flush that move it. -/
theorem get_written_iff (faithful : platform.Faithful) {key : Key} {value : Value}
    {workers : Workers World Table} {reached : Machine World Table}
    (absent : workers.Absent platform.toTableOps key)
    (put : writeMemtable platform key (some value) workers.machine = .ok () reached)
    (allowed : Runs.Guarded (Workers.Allowed platform key) (Workers.step platform)
      { workers with machine := reached } schedule.moves) :
    schedule.get platform { workers with machine := reached } key = .ok (some value) ↔
      schedule.AvoidsGaps platform { workers with machine := reached } key := by
  obtain ⟨entry, valued, start⟩ := absent.written put
  obtain ⟨allowed, allowedThird⟩ := Runs.guarded_append.mp allowed
  obtain ⟨allowedFirst, allowedSecond⟩ := Runs.guarded_append.mp allowed
  rw [Runs.run_append] at allowedThird
  obtain ⟨place₁, _, held₁⟩ := start.run faithful allowedFirst
  obtain ⟨place₂, onward₂, held₂⟩ := held₁.run faithful allowedSecond
  obtain ⟨place₃, onward₃, held₃⟩ := held₂.run faithful allowedThird
  rw [AvoidsGaps, get, Workers.threeReads, third, second, first, held₁.running,
    if_neg Bool.false_ne_true, held₁.memtable_get, held₂.immutable_get, held₃.searchTables,
    held₂.inTransit_iff, held₃.waits_iff]
  by_cases current : place₁ = .current
  · rw [if_pos current]
    exact iff_of_true (congrArg Except.ok valued) (.inl (Option.some_ne_none _))
  rw [if_neg current]
  have swapped : place₂ ≠ .current := fun back => current (onward₂.current back)
  cases place₂ with
  | current => exact absurd rfl swapped
  | immutable =>
      exact iff_of_true (congrArg Except.ok valued) (.inr (.inl nofun))
  | stored =>
      rw [onward₃.stored rfl]
      exact iff_of_true (congrArg Except.ok valued) (.inr (.inl nofun))
  | hand task =>
      cases place₃ with
      | current => exact absurd (onward₃.current rfl) swapped
      | stored => exact iff_of_true (congrArg Except.ok valued) (.inr (.inr (by simp)))
      | immutable => simp [Except.map]
      | hand other => simp [Except.map]

/-- A new engine, whose tasks rotate nothing. -/
private def idleWorkers : Workers MemoryWorld MemoryTable where
  machine := MemoryWorld.start []
  rotation _ := .idle

private theorem idleWorkers_absent : idleWorkers.Absent MemoryTable.ops [1] where
  running := rfl
  leveled := by decide
  memtable := MemTable.get_new _ _
  waits := by
    intro waits
    rcases waits with ⟨task, holding⟩ | ⟨memtable, member, _⟩
    · exact holding rfl
    · cases member
  tables := rfl

/-- The engine once the key has been written. -/
private def oneWritten : Machine MemoryWorld MemoryTable :=
  final (writeMemtable MemoryWorld.platform [1] (some [10]) idleWorkers.machine)

private theorem oneWritten_ran :
    writeMemtable MemoryWorld.platform [1] (some [10]) idleWorkers.machine =
      .ok () oneWritten :=
  eq_ok_of_succeeded (by decide +kernel)

/-- A rotation has swapped the memtable out when the get begins; it pushes it to the
immutable list before the second read. -/
private def pushedInTime : Schedule MemoryWorld where
  beforeFirst := [.rotation 0]
  beforeSecond := [.rotation 0]
  beforeThird := []

theorem get_written_iff_pushedInTime :
    pushedInTime.get MemoryWorld.platform { idleWorkers with machine := oneWritten } [1] =
        .ok (some [10]) ↔
      pushedInTime.AvoidsGaps MemoryWorld.platform
        { idleWorkers with machine := oneWritten } [1] :=
  get_written_iff MemoryWorld.platform_faithful idleWorkers_absent oneWritten_ran
    ⟨trivial, trivial, trivial⟩

/-- The rotation goes on after the get only. -/
private def caughtInTransit : Schedule MemoryWorld where
  beforeFirst := [.rotation 0]
  beforeSecond := []
  beforeThird := []

/-- A get misses the only write of its key, which has returned. -/
theorem get_misses_written :
    idleWorkers.Absent MemoryTable.ops [1] ∧
      writeMemtable MemoryWorld.platform [1] (some [10]) idleWorkers.machine =
        .ok () oneWritten ∧
      Runs.Guarded (Workers.Allowed MemoryWorld.platform [1])
        (Workers.step MemoryWorld.platform) { idleWorkers with machine := oneWritten }
        caughtInTransit.moves ∧
      ¬caughtInTransit.get MemoryWorld.platform { idleWorkers with machine := oneWritten } [1] =
        .ok (some [10]) :=
  ⟨idleWorkers_absent, oneWritten_ran, ⟨trivial, trivial⟩, by decide +kernel⟩

end Schedule

end JustDb

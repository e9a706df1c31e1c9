import JustDb.Storage.InMemory

/-!
# Reading what was written

Each write that returns `Ok` changes the answer for its own key and for no other,
whatever rotations and flushes it makes on the way.  Over a run of writes the
engine therefore behaves as a plain key-value map.
-/

namespace JustDb

open Stateful Machine

variable {World Table : Type}

namespace Machine

/-! ## One write -/

/-- The last step of a write, on the memtable that has room. -/
theorem writeMemtable_apply (platform : Platform World Table) (key : Key)
    (value : Option Value) (machine : Machine World Table) :
    writeMemtable platform key value machine =
      match machine.engine.memtable.write key value
          (platform.now machine.world).1.toUInt64 with
      | .ok written => .ok ()
          { engine := machine.engine.setMemtable written, world := (platform.now machine.world).2 }
      | .error fault => .error fault
          { machine with world := (platform.now machine.world).2 } := by
  simp only [writeMemtable, bind_eq, onWorld, Platform.currentMicros, get_apply]
  cases machine.engine.memtable.write key value
    (platform.now machine.world).1.toUInt64 <;> rfl

end Machine

namespace StorageEngine

/-- Reads after the current memtable has taken an entry. -/
theorem search_write (ops : TableOps Table) {engine : StorageEngine Table}
    {written : MemTable} {key : Key} {value : Option Value} {timestamp : Timestamp}
    (ran : engine.memtable.write key value timestamp = .ok written) (other : Key) :
    (engine.setMemtable written).search ops other =
      if other = key then
        .ok (some { key, value, timestamp, sequence := engine.memtable.sequenceCounter })
      else engine.search ops other := by
  have tables : (engine.setMemtable written).searchTables ops other =
      engine.searchTables ops other := rfl
  rw [search_eq, search_eq, tables]
  simp only [memtables, memtable_setMemtable, immutableMemtables_setMemtable,
    List.findSome?_cons, MemTable.get_write ran]
  by_cases same : other = key
  · simp [same]
  · simp [same]

end StorageEngine

namespace Write

/-- A write that returns `Ok` changes the answer for its own key, and no other. -/
theorem get_run {platform : Platform World Table} (faithful : platform.Faithful)
    {write : Write} {machine reached : Machine World Table}
    (leveled : 0 < machine.engine.config.maxLevels)
    (ran : write.run platform machine = .ok () reached) :
    reached.engine.config = machine.engine.config ∧
      reached.engine.get platform.toTableOps =
        Function.update (machine.engine.get platform.toTableOps) write.key
          (.ok write.value) := by
  rw [run_apply] at ran
  split at ran
  · cases ran
  next accepted =>
    have running := running_of_rejection accepted
    obtain ⟨⟨⟩, middle, rotated, wrote⟩ := bind_eq_ok.mp ran
    have room := checkRotateMemtable_spec faithful leveled
    rw [rotated] at room
    have alike := room.2
    rw [writeMemtable_apply] at wrote
    split at wrote
    next written stored =>
      cases wrote
      refine ⟨alike.config, funext fun key => ?_⟩
      have open_ : (middle.engine.setMemtable written).closed = false :=
        alike.closed.trans running
      rw [StorageEngine.get_eq open_, StorageEngine.search_write _ stored,
        Function.update_apply]
      split
      · rfl
      · rw [alike.search, ← StorageEngine.get_eq running]
    next => cases wrote

/-! ## Runs of writes -/

/-- The last write to a key in a run. -/
def last (writes : List Write) (key : Key) : Option Write :=
  writes.reverse.find? fun write => write.key = key

theorem last_append_singleton (writes : List Write) (write : Write) (key : Key) :
    last (writes ++ [write]) key = if key = write.key then some write else last writes key := by
  simp only [last, List.reverse_append, List.reverse_cons, List.reverse_nil, List.nil_append,
    List.singleton_append, List.find?_cons]
  by_cases same : key = write.key
  · simp [same]
  · simp [same, Ne.symm same]

/-- What a run of writes that all returned `Ok` changes: the answer for each key it
wrote. -/
theorem reads_runAll {platform : Platform World Table} (faithful : platform.Faithful)
    {writes : List Write} {machine reached : Machine World Table}
    (leveled : 0 < machine.engine.config.maxLevels)
    (ran : runAll platform writes machine = .ok () reached) :
    reached.engine.config = machine.engine.config ∧
      ∀ key, reached.engine.get platform.toTableOps key =
        match last writes key with
        | some write => .ok write.value
        | none => machine.engine.get platform.toTableOps key := by
  let invariant (done : List Write) (now : Machine World Table) : Prop :=
    now.engine.config = machine.engine.config ∧
      ∀ key, now.engine.get platform.toTableOps key =
        match last done key with
        | some write => .ok write.value
        | none => machine.engine.get platform.toTableOps key
  have preserved : ∀ done write before after, invariant done before →
      write.run platform before = .ok ⟨⟩ after → invariant (done ++ [write]) after := by
    rintro done write before after ⟨config, reads⟩ stepped
    have room : 0 < before.engine.config.maxLevels := by
      rw [config]
      exact leveled
    obtain ⟨kept, updated⟩ := get_run faithful room stepped
    refine ⟨kept.trans config, fun key => ?_⟩
    rw [updated, Function.update_apply, last_append_singleton, reads]
    split <;> rfl
  have start : invariant [] machine := ⟨rfl, fun _ => rfl⟩
  have held : invariant ([] ++ writes) reached := forM_ok_induction preserved start ran
  exact held

/-- Read your writes: after a run of writes that all returned `Ok`, `get` returns
the value of the last write to a key, and what it returned before the run for a
key that was not written. -/
theorem get_runAll {platform : Platform World Table} (faithful : platform.Faithful)
    {writes : List Write} {machine reached : Machine World Table}
    (valid : machine.engine.config.validate = .ok ())
    (ran : runAll platform writes machine = .ok () reached) (key : Key) :
    reached.engine.get platform.toTableOps key =
      match last writes key with
      | some write => .ok write.value
      | none => machine.engine.get platform.toTableOps key :=
  (reads_runAll faithful (Config.maxLevels_pos valid) ran).2 key

/-- Six writes that overwrite and delete keys, with a rotation before all but the
first and a flush before all but the first two. -/
def overwrites : List Write :=
  [.put [1] [10], .put [2] [20], .delete [1], .put [3] [30], .put [2] [], .put [4] [40]]

theorem get_runAll_overwrites :
    (final (runAll MemoryWorld.platform overwrites (MemoryWorld.start []))).engine.get
        MemoryTable.ops [1] = .ok none ∧
      (final (runAll MemoryWorld.platform overwrites (MemoryWorld.start []))).engine.get
        MemoryTable.ops [2] = .ok (some []) := by
  have valid : MemoryWorld.smallConfig.validate = .ok () := by decide +kernel
  have returned : succeeded (runAll MemoryWorld.platform overwrites (MemoryWorld.start [])) =
      true := by decide +kernel
  have ran := eq_ok_of_succeeded returned
  exact ⟨get_runAll MemoryWorld.platform_faithful valid ran [1],
    get_runAll MemoryWorld.platform_faithful valid ran [2]⟩

end Write

end JustDb

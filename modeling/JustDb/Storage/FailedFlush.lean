import JustDb.Storage.ReadYourWrites

/-!
# Writes whose flush fails

Rotation takes the oldest memtable off the immutable list before it flushes it.
When that flush returns an error the memtable is gone, and with it every answer
that only it gave.  This module says exactly when a failed write is harmless.
-/

namespace JustDb

open Stateful Machine

variable {World Table : Type}

namespace Write

/-- A write loses nothing: returning `Err` it leaves every answer as it was, returning
`Ok` it leaves the answers for the other keys. -/
def LosesNothing (platform : Platform World Table) (write : Write)
    (machine : Machine World Table) : Prop :=
  match write.run platform machine with
  | .ok _ reached => ∀ key, key ≠ write.key →
      reached.engine.get platform.toTableOps key = machine.engine.get platform.toTableOps key
  | .error (.error _) reached => ∀ key,
      reached.engine.get platform.toTableOps key = machine.engine.get platform.toTableOps key
  | .error .panic _ => True

end Write

namespace StorageEngine

/-- What a read of a key returns once the tables made so far from `flushed` stand on
top of the tables. -/
def getBelow (ops : TableOps Table) (engine : StorageEngine Table) (flushed : List MemTable)
    (key : Key) : Result (Option Value) :=
  (Layered.orElse (.ok (flushed.reverse.findSome? fun memtable => memtable.get key))
    (engine.searchTables ops key)).map fun found => found.bind Entry.value

/-- A memtable is dispensable when each key it holds is held by a newer memtable too,
or reads the same from what lies below. -/
def Dispensable (ops : TableOps Table) (engine : StorageEngine Table)
    (flushed : List MemTable) (lost : MemTable) (newer : List MemTable) : Prop :=
  ∀ key entry, lost.get key = some entry →
    (∃ memtable ∈ newer, memtable.get key ≠ none) ∨
      engine.getBelow ops flushed key = .ok entry.value

end StorageEngine

namespace Write

/-- The condition under which a write loses nothing: it is rejected, or has room, or
no flush of its rotation returns an error, or the first memtable whose flush does is
dispensable. -/
def Safe (platform : Platform World Table) (write : Write) (machine : Machine World Table) :
    Prop :=
  write.rejection machine.engine = none → machine.engine.memtable.shouldFlush = true →
    ∀ flushed lost newer,
      machine.engine.rotated.immutableMemtables = flushed ++ lost :: newer →
      platform.failedFlush machine.engine.config machine.engine.rotated.excess machine.world =
        some (flushed, lost) →
      machine.engine.Dispensable platform.toTableOps flushed lost newer

end Write

namespace StorageEngine

/-- The stack before a loss, cut around the lost memtable. -/
theorem search_cut {ops : TableOps Table} {engine : StorageEngine Table}
    {flushed newer : List MemTable} {lost : MemTable}
    (listed : engine.rotated.immutableMemtables = flushed ++ lost :: newer) (key : Key) :
    engine.search ops key =
      Layered.orElse (.ok (newer.reverse.findSome? fun memtable => memtable.get key))
        (Layered.orElse (.ok (lost.get key))
          (Layered.orElse (.ok (flushed.reverse.findSome? fun memtable => memtable.get key))
            (engine.searchTables ops key))) := by
  have top : engine.rotated.memtable.get key = none := MemTable.get_withSequence _ _ _
  have tables : engine.rotated.searchTables ops key = engine.searchTables ops key := rfl
  rw [← (readsAlike_rotated ops engine).search, search_eq, memtables, listed, tables]
  simp only [List.findSome?_cons, top, List.reverse_append, List.reverse_cons,
    List.append_assoc, List.findSome?_append, List.findSome?_nil]
  rw [← Layered.orElse_ok_ok, ← Layered.orElse_ok_ok, Layered.orElse_assoc,
    Layered.orElse_assoc]
  cases lost.get key <;> rfl

/-- After a loss, every read is as before exactly when the lost memtable was
dispensable. -/
theorem AfterLoss.get_eq_iff {ops : TableOps Table} {engine after : StorageEngine Table}
    {flushed newer : List MemTable} {lost : MemTable} (running : engine.closed = false)
    (listed : engine.rotated.immutableMemtables = flushed ++ lost :: newer)
    (left : engine.rotated.AfterLoss ops flushed newer after) :
    (∀ key, after.get ops key = engine.get ops key) ↔
      engine.Dispensable ops flushed lost newer := by
  have top : ∀ key, engine.rotated.memtable.get key = none :=
    fun key => MemTable.get_withSequence _ _ _
  have tables : ∀ key, engine.rotated.searchTables ops key = engine.searchTables ops key :=
    fun key => rfl
  have above : ∀ key, (newer.reverse.findSome? fun memtable => memtable.get key) = none ↔
      ¬∃ memtable ∈ newer, memtable.get key ≠ none := by
    intro key
    simp
  refine forall_congr' fun key => ?_
  rw [get_eq (left.closed.trans running), get_eq running, search_cut listed, search_eq,
    left.memtables, left.tables, tables, List.findSome?_cons, top]
  cases shadow : newer.reverse.findSome? fun memtable => memtable.get key with
  | some newest =>
      have shadowed : ∃ memtable ∈ newer, memtable.get key ≠ none := by
        by_contra exposed
        rw [(above key).mpr exposed] at shadow
        cases shadow
      simp [shadowed]
  | none =>
      have exposed := (above key).mp shadow
      cases held : lost.get key with
      | none => simp
      | some entry =>
          simp only [exposed, false_or, Option.some.injEq, Layered.none_orElse,
            Layered.some_orElse, forall_eq', getBelow]
          rfl

end StorageEngine

namespace Write

/-- A write loses nothing exactly when it is safe. -/
theorem losesNothing_iff {platform : Platform World Table} (faithful : platform.Faithful)
    {write : Write} {machine : Machine World Table}
    (valid : machine.engine.config.validate = .ok ()) :
    write.LosesNothing platform machine ↔ write.Safe platform machine := by
  have leveled : 0 < machine.engine.config.maxLevels := Config.maxLevels_pos valid
  cases accepted : write.rejection machine.engine with
  | some failure => simp [LosesNothing, Safe, run_apply, accepted]
  | none =>
      have running := running_of_rejection accepted
      have room := checkRotateMemtable_spec faithful leveled
      cases ran : checkRotateMemtable platform machine with
      | ok _ middle =>
          rw [ran] at room
          obtain ⟨flushes, alike⟩ := room
          have safe : write.Safe platform machine := by
            intro _ full flushed lost newer _ failed
            rw [flushes full] at failed
            cases failed
          refine iff_of_true ?_ safe
          simp only [LosesNothing, run_apply, accepted, bind_of_ok ran, writeMemtable_apply]
          cases stored : middle.engine.memtable.write write.key write.value
              (platform.now middle.world).1.toUInt64 with
          | ok written =>
              intro key other
              have open_ : (middle.engine.setMemtable written).closed = false :=
                alike.closed.trans running
              rw [StorageEngine.get_eq open_, StorageEngine.search_write _ stored,
                if_neg other, alike.search, ← StorageEngine.get_eq running]
          | error fault =>
              cases fault with
              | panic => trivial
              | error failure => exact alike.get
      | error fault reached =>
          rw [ran] at room
          cases fault with
          | panic =>
              obtain ⟨full, none⟩ := room
              simp [LosesNothing, Safe, run_apply, accepted, bind_of_error ran, none]
          | error failure =>
              obtain ⟨full, flushed, lost, newer, failed, listed, left⟩ := room
              have outcome := left.get_eq_iff running listed
              simp only [LosesNothing, run_apply, accepted, bind_of_error ran]
              rw [outcome]
              constructor
              · intro dispensable _ _ flushed' lost' newer' listed' failed'
                rw [failed] at failed'
                cases failed'
                rw [listed] at listed'
                cases List.append_cancel_left listed'
                exact dispensable
              · intro safe
                exact safe accepted full flushed lost newer listed failed

/-- Two keys in two full memtables, and a disk that refuses the next file. -/
def twoFull : Machine MemoryWorld MemoryTable :=
  final (runAll MemoryWorld.platform [.put [1] [10], .put [2] [20]] (MemoryWorld.start [true]))

theorem losesNothing_iff_twoFull :
    (Write.put [3] [30]).LosesNothing MemoryWorld.platform twoFull ↔
      (Write.put [3] [30]).Safe MemoryWorld.platform twoFull :=
  losesNothing_iff MemoryWorld.platform_faithful (by decide +kernel)

/-- The third write fails, and the first key, readable before it, is gone. -/
theorem failed_put_loses_key :
    ¬(Write.put [3] [30]).LosesNothing MemoryWorld.platform twoFull := by
  intro kept
  have failed : (Write.put [3] [30]).run MemoryWorld.platform twoFull =
      .error (.error .io) (final ((Write.put [3] [30]).run MemoryWorld.platform twoFull)) := rfl
  rw [LosesNothing, failed] at kept
  have answer := kept [1]
  revert answer
  decide +kernel

end Write

end JustDb

import JustDb.Storage.Compaction
import JustDb.Storage.ReadYourWrites
import JustDb.Library.Runs

/-!
# Sequence numbers over the life of a data directory

Every memtable numbers its own writes, from the number that the engine's counter
shows when the memtable is swapped in.  The engine's counter counts rotations,
not writes, and starts over with each process.  Numbers ascend over a whole run
only while the two counters happen to agree.
-/

namespace JustDb

open Stateful Machine

variable {World Table : Type}

/-- A call made during the life of a data directory. -/
inductive LifeStep where
  | write (call : Write)
  | rotate
  | reopen (config : Config)

/-- A machine with the sequence numbers stored so far, oldest first. -/
structure Life (World Table : Type) where
  machine : Machine World Table
  stored : List SequenceNumber

namespace Machine

/-- Close the engine and open another one on the same directory. -/
def reopen (platform : Platform World Table) (config : Config) : Action World Table Unit := do
  close platform
  fun machine => openEngine platform config machine.world

end Machine

namespace LifeStep

variable (platform : Platform World Table)

/-- Make a call; a write that returns `Ok` adds the number of the entry it stored. -/
def perform (life : Life World Table) : LifeStep → Life World Table
  | .write call =>
      match call.run platform life.machine with
      | .ok _ reached =>
          { machine := reached
            stored := life.stored ++
              ((reached.engine.memtable.get call.key).map Entry.sequence).toList }
      | .error _ reached => { life with machine := reached }
  | .rotate => { life with machine := final (rotateMemtable platform life.machine) }
  | .reopen config => { life with machine := final (Machine.reopen platform config life.machine) }

/-- The memtable rotated out has not counted past the engine, whose counter numbers
the memtable that takes its place. -/
def RotatesInStep (engine : StorageEngine Table) : Prop :=
  engine.memtable.sequenceCounter ≤ engine.sequenceCounter

instance (engine : StorageEngine Table) : Decidable (RotatesInStep engine) :=
  inferInstanceAs (Decidable (_ ≤ _))

/-- The condition on a step: rotations are in step, a write does not use up the last
number, and a reopening comes before the first stored write. -/
def Coordinated (life : Life World Table) : LifeStep → Prop
  | .write call =>
      call.rejection life.machine.engine = none →
        if life.machine.engine.memtable.shouldFlush then
          RotatesInStep life.machine.engine ∧
            life.machine.engine.sequenceCounter.toNat + 1 < wordSize
        else life.machine.engine.memtable.sequenceCounter.toNat + 1 < wordSize
  | .rotate => RotatesInStep life.machine.engine
  | .reopen _ => life.stored = []

instance (life : Life World Table) : ∀ step, Decidable (Coordinated life step)
  | .write _ => inferInstanceAs (Decidable (_ → _))
  | .rotate => inferInstanceAs (Decidable (RotatesInStep _))
  | .reopen _ => inferInstanceAs (Decidable (_ = _))

/-- The numbers stored so far ascend, and the current memtable goes on above them. -/
structure InOrder (life : Life World Table) : Prop where
  stored : life.stored.Pairwise (· < ·)
  below : ∀ sequence ∈ life.stored, sequence < life.machine.engine.memtable.sequenceCounter

/-- The flushes of a rotation leave the new memtable alone. -/
theorem memtable_flushExcess (fuel : Nat) (machine : Machine World Table) :
    (final (flushExcess platform fuel machine)).engine.memtable = machine.engine.memtable := by
  induction fuel generalizing machine with
  | zero => rfl
  | succ fuel ih =>
      cases listed : machine.engine.immutableMemtables with
      | nil =>
          rw [flushExcess, bind_eq, get_apply]
          simp only [listed, pure_apply, final_ok]
      | cons oldest rest =>
          rw [flushExcess_succ platform fuel listed]
          split
          · split
            next made world _ => rw [ih, StorageEngine.memtable_install]; rfl
            next => rfl
          · rfl

/-- After a rotation the memtable counts on from the engine's number. -/
theorem memtable_rotateMemtable (machine : Machine World Table) :
    (final (rotateMemtable platform machine)).engine.memtable.sequenceCounter =
      machine.engine.sequenceCounter := by
  rw [rotateMemtable_apply, memtable_flushExcess]
  rfl

/-- Room is made without using up a number of the memtable written next. -/
theorem memtable_checkRotateMemtable (machine : Machine World Table) :
    (final (checkRotateMemtable platform machine)).engine.memtable.sequenceCounter =
      if machine.engine.memtable.shouldFlush then machine.engine.sequenceCounter
      else machine.engine.memtable.sequenceCounter := by
  rw [checkRotateMemtable, bind_eq, get_apply]
  simp only
  split
  · exact memtable_rotateMemtable platform machine
  · rfl

/-- The number that the next accepted write stores. -/
def nextNumber (engine : StorageEngine Table) : SequenceNumber :=
  if engine.memtable.shouldFlush then engine.sequenceCounter
  else engine.memtable.sequenceCounter

/-- A write that returns `Ok` stores the next number and uses it up. -/
theorem run_ok {call : Write} {machine reached : Machine World Table}
    (ran : call.run platform machine = .ok () reached) :
    call.rejection machine.engine = none ∧
      (reached.engine.memtable.get call.key).map Entry.sequence =
        some (nextNumber machine.engine) ∧
      reached.engine.memtable.sequenceCounter = nextNumber machine.engine + 1 := by
  rw [Write.run_apply] at ran
  split at ran
  · cases ran
  next accepted =>
    obtain ⟨⟨⟩, middle, room, wrote⟩ := bind_eq_ok.mp ran
    have counter := memtable_checkRotateMemtable platform machine
    rw [room, final_ok] at counter
    rw [writeMemtable_apply] at wrote
    split at wrote
    next written stored =>
      cases wrote
      refine ⟨accepted, ?_, ?_⟩
      · rw [StorageEngine.memtable_setMemtable, MemTable.get_write stored, if_pos rfl,
          Option.map_some, counter, nextNumber]
      · rw [StorageEngine.memtable_setMemtable, MemTable.sequenceCounter_write stored,
          counter, nextNumber]
    next => cases wrote

/-- A write that fails uses up no number of the memtable written next. -/
theorem run_error {call : Write} {fault : Fault} {machine reached : Machine World Table}
    (ran : call.run platform machine = .error fault reached) :
    reached.engine.memtable.sequenceCounter = machine.engine.memtable.sequenceCounter ∨
      call.rejection machine.engine = none ∧
        reached.engine.memtable.sequenceCounter = nextNumber machine.engine := by
  rw [Write.run_apply] at ran
  split at ran
  next =>
    cases ran
    exact .inl rfl
  next accepted =>
    refine .inr ⟨accepted, ?_⟩
    have counter := memtable_checkRotateMemtable platform machine
    rcases bind_eq_error.mp ran with failed | ⟨⟨⟩, middle, room, failed⟩
    · rw [failed, final_error] at counter
      rw [counter, nextNumber]
    · rw [room, final_ok] at counter
      rw [writeMemtable_apply] at failed
      split at failed
      · cases failed
      · cases failed
        rw [counter, nextNumber]

/-- The number stored next is above every number stored so far. -/
theorem InOrder.below_nextNumber {life : Life World Table} (inOrder : InOrder life)
    {call : Write} (coordinated : Coordinated life (.write call))
    (accepted : call.rejection life.machine.engine = none) :
    (∀ sequence ∈ life.stored, sequence < nextNumber life.machine.engine) ∧
      (nextNumber life.machine.engine).toNat + 1 < wordSize := by
  have condition := coordinated accepted
  by_cases full : life.machine.engine.memtable.shouldFlush = true
  · rw [if_pos full] at condition
    rw [nextNumber, if_pos full]
    exact ⟨fun sequence member => (inOrder.below sequence member).trans_le condition.1,
      condition.2⟩
  · rw [if_neg full] at condition
    rw [nextNumber, if_neg full]
    exact ⟨inOrder.below, condition⟩

/-- A coordinated step keeps the numbers in order. -/
theorem InOrder.perform {life : Life World Table} (inOrder : InOrder life)
    {step : LifeStep} (coordinated : Coordinated life step) :
    InOrder (LifeStep.perform platform life step) := by
  cases step with
  | write call =>
      rw [LifeStep.perform]
      split
      next _ reached ran =>
        obtain ⟨accepted, number, counter⟩ := run_ok platform ran
        obtain ⟨above, room⟩ := inOrder.below_nextNumber coordinated accepted
        have step := lt_add_one_of_room room
        rw [number, Option.toList_some]
        refine ⟨List.pairwise_append.mpr ⟨inOrder.stored, List.pairwise_singleton _ _, ?_⟩, ?_⟩
        · intro earlier member last single
          rw [List.mem_singleton.mp single]
          exact above earlier member
        · intro sequence member
          rw [counter]
          rcases List.mem_append.mp member with earlier | last
          · exact (above sequence earlier).trans step
          · rw [List.mem_singleton.mp last]
            exact step
      next fault reached ran =>
        refine ⟨inOrder.stored, fun sequence member => ?_⟩
        rcases run_error platform ran with unchanged | ⟨accepted, counter⟩
        · rw [unchanged]
          exact inOrder.below sequence member
        · rw [counter]
          exact (inOrder.below_nextNumber coordinated accepted).1 sequence member
  | rotate =>
      refine ⟨inOrder.stored, fun sequence member => ?_⟩
      rw [LifeStep.perform, memtable_rotateMemtable]
      exact (inOrder.below sequence member).trans_le coordinated
  | reopen config =>
      have none : life.stored = [] := coordinated
      refine ⟨inOrder.stored, fun sequence member => ?_⟩
      rw [LifeStep.perform, none] at member
      cases member

/-- In a run whose steps are all coordinated, each stored entry carries a larger
sequence number than every entry stored before it. -/
theorem stored_ascending (machine : Machine World Table) {steps : List LifeStep}
    (coordinated : Runs.Guarded Coordinated (LifeStep.perform platform)
      { machine, stored := [] } steps) :
    (Runs.run (LifeStep.perform platform) { machine, stored := [] } steps).stored.Pairwise
      (· < ·) := by
  have initially : InOrder { machine, stored := [] } := ⟨.nil, by simp⟩
  exact (coordinated.invariant (fun _ _ inOrder condition =>
    inOrder.perform platform condition) initially).stored

/-- A run in which rotations and writes take turns. -/
def turns : List LifeStep :=
  [.reopen MemoryWorld.smallConfig, .write (.put [1] [10]), .rotate, .write (.put [2] [20]),
    .write (.delete [1])]

theorem stored_ascending_turns :
    (Runs.run (LifeStep.perform MemoryWorld.platform)
      { machine := MemoryWorld.start [], stored := [] } turns).stored.Pairwise (· < ·) :=
  stored_ascending MemoryWorld.platform (MemoryWorld.start []) (by decide +kernel)

/-- A memtable that three small writes fill. -/
def threeWrites : Machine MemoryWorld MemoryTable where
  engine := .fresh { memtableSizeThreshold := 50 }
  world := { files := [], clock := 0, failures := [] }

/-- The write that follows the first rotation stores a number used before. -/
theorem stored_not_ascending :
    ¬(Runs.run (LifeStep.perform MemoryWorld.platform)
        { machine := threeWrites, stored := [] }
        [.write (.put [1] [10]), .write (.put [2] [20]), .write (.put [3] [30]),
          .write (.put [1] [40])]).stored.Pairwise (· < ·) := by
  decide +kernel

end LifeStep

end JustDb

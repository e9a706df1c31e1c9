import JustDb.Storage.Compaction

/-!
# Properties that writes and `close` keep

Writes, rotations and `close` touch the tables and the files only through
flushes.  So a property of the tables and the world that flushes keep is kept by
every write and by `close`, whether they return `Ok` or an error.
-/

namespace JustDb

open Stateful Machine

variable {World Table : Type}

namespace Machine

variable {platform : Platform World Table} {invariant : Machine World Table → Prop}

/-- A property that looks at the configuration and the tables of the engine and at the
world, and that flushes and clock readings keep. -/
structure Stable (platform : Platform World Table) (invariant : Machine World Table → Prop) :
    Prop where
  clock : Upholds invariant (onWorld platform.currentMicros)
  flush : ∀ memtable, Upholds invariant (flushMemtable platform memtable)
  engine : ∀ (machine : Machine World Table) engine, engine.config = machine.engine.config →
    engine.sstables = machine.engine.sstables → invariant machine →
    invariant { machine with engine }

theorem Stable.onEngine (stable : Stable platform invariant)
    {change : StorageEngine Table → StorageEngine Table}
    (config : ∀ engine, (change engine).config = engine.config)
    (sstables : ∀ engine, (change engine).sstables = engine.sstables) :
    Upholds invariant (onEngine change) :=
  fun machine holds => stable.engine machine _ (config _) (sstables _) holds

theorem Stable.flushExcess (stable : Stable platform invariant) (fuel : Nat) :
    Upholds invariant (flushExcess platform fuel) := by
  induction fuel with
  | zero => exact ensures_pure ()
  | succ fuel ih =>
      refine ensures_get_bind fun machine _ => ?_
      split
      · exact ensures_pure ()
      · exact Ensures.ite (Ensures.bind (stable.onEngine (fun _ => rfl) fun _ => rfl) fun _ =>
          (stable.flush _).bind fun _ => ih) (ensures_pure ())

theorem Stable.checkRotateMemtable (stable : Stable platform invariant) :
    Upholds invariant (checkRotateMemtable platform) := by
  refine ensures_get_bind fun machine _ => Ensures.ite ?_ (ensures_pure ())
  have counting : Upholds invariant (nextSequence : Action World Table SequenceNumber) :=
    ensures_get_bind fun machine _ =>
      Ensures.bind (stable.onEngine (fun _ => rfl) fun _ => rfl) fun _ => ensures_pure _
  have swapping : Upholds invariant (swapMemtable : Action World Table MemTable) :=
    counting.bind fun start => ensures_get_bind fun machine _ =>
      Ensures.bind (stable.onEngine (fun _ => rfl) fun _ => rfl) fun _ => ensures_pure _
  have pushing : ∀ memtable, Upholds invariant
      (pushImmutable memtable : Action World Table Unit) :=
    fun memtable => stable.onEngine (fun _ => rfl) fun _ => rfl
  exact swapping.bind fun memtable => (pushing memtable).bind fun _ =>
    ensures_get_bind fun machine _ => stable.flushExcess _

theorem Stable.writeMemtable (stable : Stable platform invariant) (key : Key)
    (value : Option Value) : Upholds invariant (writeMemtable platform key value) :=
  stable.clock.bind fun _ => ensures_get_bind fun _ _ => (upholds_lift _).bind fun _ =>
    stable.onEngine (fun _ => rfl) fun _ => rfl

theorem Stable.run (stable : Stable platform invariant) (write : Write) :
    Upholds invariant (write.run platform) := by
  intro machine holds
  rw [Write.run_apply]
  cases write.rejection machine.engine with
  | some failure => exact fun _ => holds
  | none =>
      exact (stable.checkRotateMemtable.bind fun _ =>
        stable.writeMemtable write.key write.value) machine holds

theorem Stable.close (stable : Stable platform invariant) :
    Upholds invariant (close platform) := by
  refine ensures_get_bind fun machine _ => (ensures_pure ()).ite ?_
  have flushing : ∀ memtable, Upholds invariant (reportError (flushMemtable platform memtable)) :=
    fun memtable => upholds_reportError (stable.flush memtable)
  exact Ensures.bind (stable.onEngine (fun _ => rfl) fun _ => rfl) fun _ =>
    Ensures.bind (stable.onEngine (fun _ => rfl) fun _ => rfl) fun _ =>
      Ensures.bind (.forM fun memtable _ => flushing memtable) fun _ =>
        (flushing _).ite (ensures_pure ())

end Machine

end JustDb

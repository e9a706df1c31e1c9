import JustDb.Storage.Deeds
import JustDb.Storage.InMemory
import JustDb.Storage.ReadYourWrites
import JustDb.MemTableSize
import JustDb.Library.Runs

/-!
# How much an engine holds in memory

A write looks at the counter of the current memtable before it adds its entry, and a
rotation takes one memtable off the immutable list for the one it pushes, before it
flushes.  The counter may run ahead of the stored bytes but never falls behind them.  So
whatever the calls return, an engine holds at most one memtable more than it is allowed
to keep waiting, and each of them is past its threshold by one entry at most.
-/

namespace JustDb

open Stateful Machine

variable {World Table : Type}

/-- The size of the largest entry that the checks of `put` and `delete` let pass. -/
def maxEntrySize : Nat := maxKeySize + maxValueSize + 16

/-- An entry that passes the checks of a write is no larger. -/
theorem size_le_maxEntrySize {engine : StorageEngine Table} {write : Write}
    (accepted : write.rejection engine = none) (entry : Entry) (keyed : entry.key = write.key)
    (valued : entry.value = write.value) : entry.size ≤ maxEntrySize := by
  have key : write.key.length ≤ maxKeySize := by
    by_contra long
    rw [Write.rejection] at accepted
    split at accepted
    · cases accepted
    · rw [if_pos (not_le.mp long)] at accepted
      cases accepted
  have value : (write.value.map List.length).getD 0 ≤ maxValueSize := by
    cases held : write.value with
    | none => exact Nat.zero_le _
    | some value =>
        by_contra large
        rw [Write.rejection] at accepted
        split at accepted
        · cases accepted
        · rw [if_neg (not_lt.mpr key), held] at accepted
          have refused : ¬value.length ≤ maxValueSize := large
          simp only [gt_iff_lt, not_le.mp refused, if_true, reduceCtorEq] at accepted
  rw [Entry.size, keyed, valued, maxEntrySize]
  exact Nat.add_le_add_right (Nat.add_le_add key value) 16

namespace MemTable

theorem storedBytes_withSequence (maxSize : Nat) (start : SequenceNumber) :
    (withSequence maxSize start).storedBytes = 0 := by
  have none : (withSequence maxSize start).entryList = [] := by
    rw [List.eq_nil_iff_forall_not_mem]
    intro entry member
    rw [mem_entryList, get_withSequence] at member
    cases member
  rw [storedBytes, none]
  rfl

/-- A memtable whose counter shows at least its stored bytes and is past its threshold by
less than an entry. -/
structure Within (threshold : Nat) (table : MemTable) : Prop where
  maxSize : table.maxSize = threshold
  charged : ∀ key, table.chargedTo key ≤ maxEntrySize
  counted : ∃ excess : Nat, table.size = UInt64.ofInt (table.storedBytes + excess) ∧
    table.storedBytes + excess < threshold + maxEntrySize

theorem within_withSequence (threshold : Nat) (start : SequenceNumber) :
    (withSequence threshold start).Within threshold where
  maxSize := rfl
  charged := by
    intro key
    rw [chargedTo, get_withSequence]
    exact Nat.zero_le _
  counted := by
    refine ⟨0, ?_, ?_⟩
    · rw [storedBytes_withSequence]
      rfl
    · rw [storedBytes_withSequence]
      exact Nat.add_pos_right _ (by decide)

theorem Within.makeImmutable {threshold : Nat} {table : MemTable}
    (within : table.Within threshold) : table.makeImmutable.Within threshold :=
  ⟨within.maxSize, within.charged, within.counted⟩

theorem Within.storedBytes_lt {threshold : Nat} {table : MemTable}
    (within : table.Within threshold) : table.storedBytes < threshold + maxEntrySize := by
  obtain ⟨excess, _, small⟩ := within.counted
  exact (Nat.le_add_right _ _).trans_lt small

/-- A memtable that is not due for a flush takes one more entry. -/
theorem Within.write {threshold : Nat} {table written : MemTable} (within : table.Within threshold)
    (countable : threshold + maxEntrySize ≤ wordSize) (room : table.shouldFlush = false)
    {key : Key} {value : Option Value} {timestamp : Timestamp}
    (ran : table.write key value timestamp = .ok written)
    (small : (Entry.mk key value timestamp table.sequenceCounter).size ≤ maxEntrySize) :
    written.Within threshold := by
  obtain ⟨_, rfl⟩ := write_eq_ok ran
  obtain ⟨excess, size, bounded⟩ := within.counted
  set numbered : MemTable := { table with sequenceCounter := table.sequenceCounter + 1 }
  set entry : Entry := { key, value, timestamp, sequence := table.sequenceCounter }
  have counted : numbered.size = UInt64.ofInt (numbered.storedBytes + excess) := size
  have low : numbered.storedBytes + excess < threshold := by
    rw [shouldFlush, decide_eq_false_iff_not, not_le, within.maxSize, size, ← Int.natCast_add,
      UInt64.ofInt, UInt64.toNat_ofNat'] at room
    unfold wordSize UInt64.size at countable
    change table.storedBytes + excess < threshold
    omega
  have charged : numbered.chargedTo entry.key ≤ maxEntrySize := within.charged entry.key
  refine ⟨within.maxSize, fun other => ?_, excess + 2 * numbered.shrinkage entry,
    size_insertEntry counted entry, ?_⟩
  · rw [chargedTo_insertEntry]
    split
    · exact small
    · exact within.charged other
  · have exchanged := numbered.storedBytes_insertEntry entry
    rw [shrinkage]
    omega

end MemTable

namespace StorageEngine

/-- The memtables of an engine are few and small. -/
structure HoldsLittle (engine : StorageEngine Table) : Prop where
  positive : 0 < engine.config.memtableSizeThreshold
  countable : engine.config.memtableSizeThreshold + maxEntrySize ≤ wordSize
  waiting : engine.immutableMemtables.length ≤ engine.config.maxMemtables
  memtable : engine.memtable.Within engine.config.memtableSizeThreshold
  immutable : ∀ memtable ∈ engine.immutableMemtables,
    memtable.Within engine.config.memtableSizeThreshold

/-- The configuration and the memtables of an engine. -/
def memory (engine : StorageEngine Table) : Config × MemTable × List MemTable :=
  (engine.config, engine.memtable, engine.immutableMemtables)

theorem blind_memory : Machine.Blind (memory : StorageEngine Table → _) :=
  ⟨fun _ _ => rfl, fun _ _ _ => rfl⟩

/-- Only the configuration and the memtables matter. -/
theorem HoldsLittle.of_memory {engine other : StorageEngine Table} (little : engine.HoldsLittle)
    (same : other.memory = engine.memory) : other.HoldsLittle := by
  obtain ⟨config, memtable, immutable⟩ := Prod.ext_iff.mp same |>.imp_right Prod.ext_iff.mp
  dsimp only [memory] at config memtable immutable
  constructor
  all_goals simp only [config, memtable, immutable]
  · exact little.positive
  · exact little.countable
  · exact little.waiting
  · exact little.memtable
  · exact little.immutable

theorem holdsLittle_fresh {config : Config} (positive : 0 < config.memtableSizeThreshold)
    (countable : config.memtableSizeThreshold + maxEntrySize ≤ wordSize) :
    (fresh config : StorageEngine Table).HoldsLittle where
  positive := positive
  countable := countable
  waiting := Nat.zero_le _
  memtable := MemTable.within_withSequence _ 0
  immutable := nofun

/-- The bytes that all memtables of an engine store. -/
def heldBytes (engine : StorageEngine Table) : Nat :=
  (engine.memtables.map MemTable.storedBytes).sum

theorem HoldsLittle.heldBytes_le {engine : StorageEngine Table} (little : engine.HoldsLittle) :
    engine.heldBytes ≤ (engine.config.maxMemtables + 1) *
      (engine.config.memtableSizeThreshold + maxEntrySize) := by
  have each : ∀ bytes ∈ engine.memtables.map MemTable.storedBytes,
      bytes ≤ engine.config.memtableSizeThreshold + maxEntrySize := by
    intro bytes member
    obtain ⟨memtable, listed, rfl⟩ := List.mem_map.mp member
    rcases List.mem_cons.mp listed with rfl | waiting
    · exact little.memtable.storedBytes_lt.le
    · exact (little.immutable memtable (List.mem_reverse.mp waiting)).storedBytes_lt.le
  have few : (engine.memtables.map MemTable.storedBytes).length ≤
      engine.config.maxMemtables + 1 := by
    simpa [memtables] using little.waiting
  calc engine.heldBytes
      ≤ (engine.memtables.map MemTable.storedBytes).length *
          (engine.config.memtableSizeThreshold + maxEntrySize) := by
        simpa [heldBytes] using List.sum_le_card_nsmul _ _ each
    _ ≤ _ := Nat.mul_le_mul_right _ few

end StorageEngine

namespace Machine

variable (platform : Platform World Table) {machine : Machine World Table}

/-- A list that is not too long stays as it is. -/
theorem flushExcess_of_fits (fuel : Nat)
    (fits : machine.engine.immutableMemtables.length ≤ machine.engine.config.maxMemtables) :
    flushExcess platform fuel machine = .ok () machine := by
  cases fuel with
  | zero => rfl
  | succ fuel =>
      cases listed : machine.engine.immutableMemtables with
      | nil => simp [flushExcess, bind_eq, listed]
      | cons oldest rest =>
          rw [listed, List.length_cons] at fits
          rw [flushExcess_succ platform fuel listed, if_neg (not_lt.mpr fits)]

/-- One memtable too many is taken off the list, whether or not it can be flushed. -/
theorem memory_flushExcess (fuel : Nat)
    (fits : machine.engine.immutableMemtables.length ≤ machine.engine.config.maxMemtables + 1) :
    ∃ dropped waiting, machine.engine.immutableMemtables = dropped ++ waiting ∧
      waiting.length ≤ machine.engine.config.maxMemtables ∧
      (final (flushExcess platform (fuel + 1) machine)).engine.memory =
        (machine.engine.config, machine.engine.memtable, waiting) := by
  cases listed : machine.engine.immutableMemtables with
  | nil =>
      refine ⟨[], [], rfl, Nat.zero_le _, ?_⟩
      simp [flushExcess, bind_eq, listed, StorageEngine.memory]
  | cons oldest rest =>
      rw [listed] at fits
      have shorter : rest.length ≤ machine.engine.config.maxMemtables := Nat.le_of_succ_le_succ fits
      rw [flushExcess_succ platform fuel listed]
      split
      next full =>
        refine ⟨[oldest], rest, rfl, shorter, ?_⟩
        cases platform.flushTable machine.engine.config oldest machine.world with
        | error fault world => rfl
        | ok made world =>
            dsimp only
            rw [flushExcess_of_fits platform fuel (by simpa using shorter)]
            simp [StorageEngine.memory]
      next few =>
        refine ⟨[], oldest :: rest, rfl, not_lt.mp few, ?_⟩
        rw [final_ok, StorageEngine.memory, listed]

/-- Making room leaves a current memtable that is not due for a flush. -/
theorem holdsLittle_checkRotateMemtable (little : machine.engine.HoldsLittle) :
    (final (checkRotateMemtable platform machine)).engine.HoldsLittle ∧
      (final (checkRotateMemtable platform machine)).engine.memtable.shouldFlush = false := by
  rw [checkRotateMemtable_apply]
  split
  next full =>
    set full : Machine World Table := { machine with engine := machine.engine.rotated }
    have fits : full.engine.immutableMemtables.length ≤ full.engine.config.maxMemtables + 1 := by
      simpa [full, StorageEngine.rotated] using little.waiting
    obtain ⟨dropped, waiting, listed, few, memory⟩ := memory_flushExcess platform
      machine.engine.immutableMemtables.length fits
    have memory : (final (flushExcess platform (machine.engine.immutableMemtables.length + 1)
        full)).engine.memory = (machine.engine.rotated.setImmutable waiting).memory := memory
    have kept : (machine.engine.rotated.setImmutable waiting).HoldsLittle := by
      refine ⟨little.positive, little.countable, few, MemTable.within_withSequence _ _,
        fun memtable member => ?_⟩
      have old : memtable ∈ machine.engine.rotated.immutableMemtables := by
        rw [listed]
        exact List.mem_append_right _ member
      rcases List.mem_append.mp old with before | last
      · exact little.immutable memtable before
      · rw [List.mem_singleton.mp last]
        exact little.memtable.makeImmutable
    refine ⟨kept.of_memory memory, ?_⟩
    have current := congrArg (fun memory => memory.2.1.shouldFlush) memory
    refine current.trans (decide_eq_false ?_)
    exact not_le.mpr little.positive
  next room => exact ⟨little, by simpa using room⟩

/-- Whatever a write returns, the memtables stay few and small. -/
theorem holdsLittle_write (little : machine.engine.HoldsLittle) (write : Write) :
    (final (write.run platform machine)).engine.HoldsLittle := by
  rw [Write.run_apply]
  cases accepted : write.rejection machine.engine with
  | some failure => exact little
  | none =>
      obtain ⟨kept, room⟩ := holdsLittle_checkRotateMemtable platform little
      simp only [bind_eq]
      cases rotated : checkRotateMemtable platform machine with
      | error fault reached =>
          rw [rotated] at kept
          exact kept
      | ok _ middle =>
          rw [rotated, final_ok] at kept room
          dsimp only
          rw [writeMemtable_apply]
          cases stored : middle.engine.memtable.write write.key write.value
            (platform.now middle.world).1.toUInt64 with
          | error fault => exact kept
          | ok written =>
              refine ⟨kept.positive, kept.countable, kept.waiting, ?_, kept.immutable⟩
              exact kept.memtable.write kept.countable room stored
                (size_le_maxEntrySize accepted _ rfl rfl)

/-- Closing takes the waiting memtables off the list. -/
theorem holdsLittle_close (little : machine.engine.HoldsLittle) :
    (final (close platform machine)).engine.HoldsLittle := by
  by_cases stopped : machine.engine.closed = true
  · rw [close, bind_of_ok (get_apply machine)]
    simpa [stopped] using little
  · let drained : StorageEngine Table :=
      { machine.engine with closed := true, immutableMemtables := [] }
    have kept : drained.HoldsLittle :=
      ⟨little.positive, little.countable, Nat.zero_le _, little.memtable,
        fun memtable member => absurd member List.not_mem_nil⟩
    exact kept.of_memory (StorageEngine.blind_memory.view_close (by simpa using stopped))

/-- An engine that opens holds nothing in memory. -/
theorem holdsLittle_openEngine {config : Config} {world : World}
    (countable : config.memtableSizeThreshold + maxEntrySize ≤ wordSize)
    {reached : Machine World Table}
    (opened : openEngine platform config world = .ok () reached) :
    reached.engine.HoldsLittle := by
  rw [openEngine] at opened
  split at opened
  · cases opened
  next valid =>
    have positive : 0 < config.memtableSizeThreshold :=
      Config.pos_of_check valid _ List.mem_cons_self
    have loading : Keeps (fun machine : Machine World Table => machine.engine.memory)
        (loadSstables platform) :=
      (keeps_onWorld StorageEngine.memory _).bind fun names =>
        (Keeps.foldlM (keeps_loadFile fun _ _ => keeps_onWorld StorageEngine.memory _) []).bind
          fun found => keeps_onEngine fun _ => rfl
    exact (StorageEngine.holdsLittle_fresh positive countable).of_memory (loading.of_ok opened)

end Machine

namespace Deed

/-- A word can count the bytes of a memtable that is full by the configuration, and of one
entry more. -/
def Countable : Deed → Prop
  | .reopen config => config.memtableSizeThreshold + maxEntrySize ≤ wordSize
  | .write _ | .background | .close => True

instance : ∀ deed, Decidable (Countable deed)
  | .reopen _ => inferInstanceAs (Decidable (_ ≤ _))
  | .write _ | .background | .close => inferInstanceAs (Decidable True)

theorem holdsLittle_run (platform : Platform World Table) {machine : Machine World Table}
    (little : machine.engine.HoldsLittle) {deed : Deed} (countable : deed.Countable) :
    (perform platform machine deed).engine.HoldsLittle := by
  cases deed with
  | write call => exact holdsLittle_write platform little call
  | background =>
      exact little.of_memory
        (@Blind.keeps_backgroundCompaction _ _ platform _ _ StorageEngine.blind_memory machine)
  | close => exact holdsLittle_close platform little
  | reopen config =>
      simp only [perform, run]
      cases opened : openEngine platform config machine.world with
      | ok _ reached => exact holdsLittle_openEngine platform countable opened
      | error fault reached => exact little

/-- Over the whole life of a data directory, whatever its calls return, an engine keeps at
most `max_memtables` memtables waiting, and its memtables together store no more than one
more of them would, each past the threshold by one entry. -/
theorem memory_bounded (platform : Platform World Table) {config : Config} {world : World}
    (countable : config.memtableSizeThreshold + maxEntrySize ≤ wordSize)
    {machine : Machine World Table} (opened : openEngine platform config world = .ok () machine)
    {deeds : List Deed} (each : ∀ deed ∈ deeds, deed.Countable) :
    Runs.Throughout (fun reached : Machine World Table =>
        reached.engine.immutableMemtables.length ≤ reached.engine.config.maxMemtables ∧
        reached.engine.heldBytes ≤ (reached.engine.config.maxMemtables + 1) *
          (reached.engine.config.memtableSizeThreshold + maxEntrySize))
      (perform platform) machine deeds := by
  have preserved : ∀ (machine : Machine World Table) (deed : Deed),
      machine.engine.HoldsLittle → deed.Countable →
        (perform platform machine deed).engine.HoldsLittle :=
    fun machine deed little countable => holdsLittle_run platform little countable
  exact (Runs.guarded_of_forall (perform platform) machine each).throughout
    (fun reached little => ⟨little.waiting, little.heldBytes_le⟩) preserved
    (holdsLittle_openEngine platform countable opened)

/-- Writes that fill memtables, with a flush that fails, and a reopening. -/
def fillings : List Deed :=
  [.write (.put [1] [10]), .write (.put [2] [20]), .write (.put [3] [30]), .write (.delete [1]),
    .close, .reopen MemoryWorld.smallConfig, .write (.put [4] [40])]

theorem memory_bounded_fillings :
    Runs.Throughout (fun reached : Machine MemoryWorld MemoryTable =>
        reached.engine.immutableMemtables.length ≤ reached.engine.config.maxMemtables ∧
        reached.engine.heldBytes ≤ (reached.engine.config.maxMemtables + 1) *
          (reached.engine.config.memtableSizeThreshold + maxEntrySize))
      (perform MemoryWorld.platform) (final (openEngine MemoryWorld.platform
        MemoryWorld.smallConfig (MemoryWorld.start [true]).world)) fillings :=
  memory_bounded MemoryWorld.platform (by decide) (eq_ok_of_succeeded (by decide +kernel))
    (by decide)

end Deed

end JustDb

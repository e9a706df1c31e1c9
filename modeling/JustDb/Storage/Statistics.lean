import JustDb.Storage.MemoryBound

/-!
# What an engine reports about itself

`memory_usage` and `stats`.  The extremes of the current memtable are folded from
`usize::MAX` and zero, and the size is the counter of the memtable, which only bounds what
is stored.
-/

namespace JustDb

open Stateful Machine

variable {World Table : Type}

structure MemtableStats where
  entryCount : Nat
  approximateSize : Nat
  minKeySize : Nat
  maxKeySize : Nat
  minValueSize : Nat
  maxValueSize : Nat
  isImmutable : Bool
  deriving DecidableEq, Repr

structure LevelStats where
  tableCount : Nat
  totalSize : Nat
  totalEntries : Nat
  deriving DecidableEq, Repr

/-- `sstable_stats` maps a level to the statistics of its tables; a sum that overflows is a
panic of the call. -/
structure StorageStats where
  memtableStats : MemtableStats
  immutableMemtableCount : Nat
  sstableStats : Nat → Option (Result LevelStats)
  sequenceNumber : SequenceNumber
  isClosed : Bool

/-- `usize::MAX` -/
def maxWord : Nat := wordSize - 1

/-- The length of a value; a delete marker has none. -/
def Entry.valueSize (entry : Entry) : Nat :=
  (entry.value.map List.length).getD 0

namespace MemTable

/-- The least and the largest size of keys and of values among some entries. -/
def sizeExtremes (entries : List Entry) : Nat × Nat × Nat × Nat :=
  entries.foldl (fun acc entry =>
    (min acc.1 entry.key.length, max acc.2.1 entry.key.length,
      min acc.2.2.1 entry.valueSize, max acc.2.2.2 entry.valueSize)) (maxWord, 0, maxWord, 0)

/-- get memory_usage stats -/
def memoryUsage (self : MemTable) : MemtableStats :=
  let (minKeySize, maxKeySize, minValueSize, maxValueSize) := sizeExtremes self.entryList
  { entryCount := self.data.size
    approximateSize := self.size.toNat
    minKeySize := if minKeySize = maxWord then 0 else minKeySize
    maxKeySize
    minValueSize := if minValueSize = maxWord then 0 else minValueSize
    maxValueSize
    isImmutable := self.immutable }

end MemTable

namespace StorageEngine

/-- The sums of a level are `u64`. -/
def levelStats (ops : TableOps Table) (tables : List Table) : Result LevelStats := do
  let totalSize ← tables.foldlM (fun sum table => checkedAdd sum (ops.metadata table).dataSize) 0
  let totalEntries ← tables.foldlM
    (fun sum table => checkedAdd sum (ops.metadata table).entryCount) 0
  .ok { tableCount := tables.length, totalSize, totalEntries }

def stats (ops : TableOps Table) (engine : StorageEngine Table) : StorageStats where
  memtableStats := engine.memtable.memoryUsage
  immutableMemtableCount := engine.immutableMemtables.length
  sstableStats level := (engine.sstables level).map (levelStats ops)
  sequenceNumber := engine.sequenceCounter
  isClosed := engine.closed

end StorageEngine

/-! ## What the figures say -/

/-- The least and the greatest of some sizes, both zero where there are none. -/
structure Extremes (sizes : List Nat) (least greatest : Nat) : Prop where
  bounds : ∀ size ∈ sizes, least ≤ size ∧ size ≤ greatest
  attained : sizes ≠ [] → least ∈ sizes ∧ greatest ∈ sizes
  none : sizes = [] → least = 0 ∧ greatest = 0

/-- A fold of choices ends with its start or with a member. -/
theorem foldl_mem_of_choice {α : Type} {choose : α → α → α}
    (choice : ∀ left right, choose left right = left ∨ choose left right = right)
    (start : α) (items : List α) : items.foldl choose start ∈ start :: items := by
  induction items generalizing start with
  | nil => exact List.mem_singleton_self start
  | cons item items ih =>
      rw [List.foldl_cons]
      rcases List.mem_cons.mp (ih (choose start item)) with same | member
      · rw [same]
        rcases choice start item with first | second
        · simp only [first, List.mem_cons_self]
        · simp only [second, List.mem_cons_self, List.mem_cons_of_mem]
      · exact List.mem_cons_of_mem _ (List.mem_cons_of_mem _ member)

/-- A fold of choices for the better ends with nothing worse than its start or a member. -/
theorem foldl_related {α : Type} {relation : α → α → Prop} [IsPreorder α relation]
    {choose : α → α → α} (left : ∀ first second, relation (choose first second) first)
    (right : ∀ first second, relation (choose first second) second) (start : α)
    (items : List α) : ∀ item ∈ start :: items, relation (items.foldl choose start) item := by
  induction items generalizing start with
  | nil => exact List.forall_mem_singleton.mpr (refl_of relation start)
  | cons item items ih =>
      obtain ⟨bound, rest⟩ := List.forall_mem_cons.mp (ih (choose start item))
      simp only [List.foldl_cons, List.forall_mem_cons]
      exact ⟨trans_of relation bound (left start item), trans_of relation bound (right start item),
        rest⟩

/-- Folds from `usize::MAX` and zero find the extremes of sizes that are smaller words. -/
theorem extremes_foldl {sizes : List Nat} (small : ∀ size ∈ sizes, size < maxWord) :
    Extremes sizes (if sizes.foldl min maxWord = maxWord then 0 else sizes.foldl min maxWord)
      (sizes.foldl max 0) := by
  have below := @foldl_related _ (· ≤ ·) _ _ min_le_left min_le_right maxWord sizes
  have above := @foldl_related _ (· ≥ ·) _ _ le_max_left le_max_right 0 sizes
  have least := foldl_mem_of_choice min_choice maxWord sizes
  have greatest := foldl_mem_of_choice max_choice 0 sizes
  cases sizes with
  | nil => exact ⟨nofun, fun some => absurd rfl some, fun _ => ⟨if_pos rfl, rfl⟩⟩
  | cons first rest =>
      have proper : (first :: rest).foldl min maxWord ≠ maxWord :=
        ((below first (by simp)).trans_lt (small first (by simp))).ne
      rw [if_neg proper]
      refine ⟨fun size member => ⟨below size (by simp [member]), above size (by simp [member])⟩,
        fun _ => ⟨(List.mem_cons.mp least).resolve_left proper, ?_⟩, nofun⟩
      rcases List.mem_cons.mp greatest with zero | member
      · have nothing : first = 0 := Nat.le_zero.mp (zero ▸ above first (by simp))
        rw [zero, nothing]
        exact List.mem_cons_self
      · exact member

namespace MemTable

/-- The four extremes are folded side by side. -/
theorem sizeExtremes_eq (entries : List Entry) :
    sizeExtremes entries =
      ((entries.map fun entry => entry.key.length).foldl min maxWord,
        (entries.map fun entry => entry.key.length).foldl max 0,
        (entries.map Entry.valueSize).foldl min maxWord,
        (entries.map Entry.valueSize).foldl max 0) := by
  have accumulated : ∀ leastKey greatestKey leastValue greatestValue : Nat,
      entries.foldl (fun acc entry => (min acc.1 entry.key.length, max acc.2.1 entry.key.length,
        min acc.2.2.1 entry.valueSize, max acc.2.2.2 entry.valueSize))
          (leastKey, greatestKey, leastValue, greatestValue) =
        ((entries.map fun entry => entry.key.length).foldl min leastKey,
          (entries.map fun entry => entry.key.length).foldl max greatestKey,
          (entries.map Entry.valueSize).foldl min leastValue,
          (entries.map Entry.valueSize).foldl max greatestValue) := by
    induction entries with
    | nil => simp
    | cons entry entries ih => simp [ih]
  exact accumulated maxWord 0 maxWord 0

theorem length_entryList (self : MemTable) : self.entryList.length = self.data.size := by
  rw [entryList, entries, List.length_map, Std.TreeMap.length_toList]

end MemTable

/-- Statistics that say of a memtable what is true of the entries it stores. -/
structure MemtableStats.Describes (stats : MemtableStats) (entries : List Entry) : Prop where
  entryCount : stats.entryCount = entries.length
  storedBytes : totalSize entries ≤ stats.approximateSize
  keySizes : Extremes (entries.map fun entry => entry.key.length) stats.minKeySize stats.maxKeySize
  valueSizes : Extremes (entries.map Entry.valueSize) stats.minValueSize stats.maxValueSize

namespace MemTable

/-- Where the counter has not wrapped, the figures of a memtable are those of its entries. -/
theorem Within.describes {threshold : Nat} {table : MemTable} (within : table.Within threshold)
    (countable : threshold + maxEntrySize ≤ wordSize) (positive : 0 < threshold) :
    table.memoryUsage.Describes table.entryList ∧
      table.memoryUsage.approximateSize < threshold + maxEntrySize := by
  obtain ⟨excess, size, bounded⟩ := within.counted
  have shown : table.size.toNat = table.storedBytes + excess := by
    rw [size, ← Int.natCast_add, UInt64.ofInt, UInt64.toNat_ofNat']
    unfold wordSize UInt64.size at countable
    omega
  have charged : ∀ entry ∈ table.entryList, entry.key.length + entry.valueSize + 16 < wordSize := by
    intro entry member
    have charge := within.charged entry.key
    rw [chargedTo, mem_entryList.mp member] at charge
    change entry.key.length + entry.valueSize + 16 ≤ maxEntrySize at charge
    omega
  refine ⟨⟨?_, ?_, ?_, ?_⟩, ?_⟩
  · exact table.length_entryList.symm
  · change table.storedBytes ≤ table.size.toNat
    omega
  · have small : ∀ length ∈ table.entryList.map fun entry => entry.key.length,
        length < maxWord := by
      intro length member
      obtain ⟨entry, stored, rfl⟩ := List.mem_map.mp member
      have := charged entry stored
      rw [maxWord]
      omega
    simpa only [memoryUsage, sizeExtremes_eq] using extremes_foldl small
  · have small : ∀ length ∈ table.entryList.map Entry.valueSize, length < maxWord := by
      intro length member
      obtain ⟨entry, stored, rfl⟩ := List.mem_map.mp member
      have := charged entry stored
      rw [maxWord]
      omega
    simpa only [memoryUsage, sizeExtremes_eq] using extremes_foldl small
  · change table.size.toNat < threshold + maxEntrySize
    omega

end MemTable

namespace Deed

/-- Over the whole life of a data directory, whatever its calls return, `stats` gives the
number of stored entries, a size that is at least theirs and past the threshold by less than
one entry, the exact extremes of their keys and values, and no more waiting memtables than
are allowed. -/
theorem stats_truthful (platform : Platform World Table) {config : Config} {world : World}
    (countable : config.memtableSizeThreshold + maxEntrySize ≤ wordSize)
    {machine : Machine World Table} (opened : openEngine platform config world = .ok () machine)
    {deeds : List Deed} (each : ∀ deed ∈ deeds, deed.Countable) :
    Runs.Throughout (fun reached : Machine World Table =>
        let stats := reached.engine.stats platform.toTableOps
        stats.memtableStats.Describes reached.engine.memtable.entryList ∧
        stats.memtableStats.approximateSize <
          reached.engine.config.memtableSizeThreshold + maxEntrySize ∧
        stats.immutableMemtableCount ≤ reached.engine.config.maxMemtables)
      (perform platform) machine deeds := by
  have preserved : ∀ (machine : Machine World Table) (deed : Deed),
      machine.engine.HoldsLittle → deed.Countable →
        (perform platform machine deed).engine.HoldsLittle :=
    fun machine deed little countable => holdsLittle_run platform little countable
  refine (Runs.guarded_of_forall (perform platform) machine each).throughout
    (fun reached little => ?_) preserved (holdsLittle_openEngine platform countable opened)
  obtain ⟨described, small⟩ := little.memtable.describes little.countable little.positive
  exact ⟨described, small, little.waiting⟩

theorem stats_truthful_fillings :
    Runs.Throughout (fun reached : Machine MemoryWorld MemoryTable =>
        let stats := reached.engine.stats MemoryWorld.platform.toTableOps
        stats.memtableStats.Describes reached.engine.memtable.entryList ∧
        stats.memtableStats.approximateSize <
          reached.engine.config.memtableSizeThreshold + maxEntrySize ∧
        stats.immutableMemtableCount ≤ reached.engine.config.maxMemtables)
      (perform MemoryWorld.platform) (final (openEngine MemoryWorld.platform
        MemoryWorld.smallConfig (MemoryWorld.start [true]).world)) fillings :=
  stats_truthful MemoryWorld.platform (by decide) (eq_ok_of_succeeded (by decide +kernel))
    (by decide)

end Deed

end JustDb

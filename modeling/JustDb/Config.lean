import JustDb.Basic
import Mathlib.Data.Rat.Init

/-!
# Engine configuration

The fields that the engine and `validate` read, with their defaults.  Sizes and
counts are `usize` values; the false-positive rate is a 64-bit float, of which
only its place on the extended rational line matters here.
-/

namespace JustDb

/-- Block compression of a table file. -/
inductive CompressionType where
  | none
  | lz4
  | zstd
  deriving DecidableEq, Repr

/-- The value of an `f64`: not a number, an infinity, or a rational. -/
inductive Float64 where
  | nan
  | infinite (negative : Bool)
  | finite (value : Rat)
  deriving DecidableEq, Repr

/-- `(0.0..=1.0).contains(&x)`, which is false for a NaN. -/
def Float64.inUnitInterval : Float64 → Bool
  | .finite value => decide (0 ≤ value) && decide (value ≤ 1)
  | _ => false

structure Config where
  memtableSizeThreshold : Nat := 64 * 1024 * 1024
  maxMemtables : Nat := 2
  levelSizeMultiplier : Nat := 10
  maxLevels : Nat := 7
  l0SstableSize : Nat := 2 * 1024 * 1024
  l0CompactionThreshold : Nat := 4
  compression : CompressionType := .lz4
  compressionLevel : Int := 1
  bloomFalsePositiveRate : Float64 := .finite (1 / 100)
  writeBufferSize : Nat := 4 * 1024 * 1024
  walSyncInterval : Nat := 1000
  maxWalSize : Nat := 64 * 1024 * 1024
  compactionThreads : Nat := 1
  enableCompaction : Bool := true
  maxConcurrentCompactions : Nat := 2
  maxOpenFiles : Nat := 10
  useMmap : Bool := true
  deriving DecidableEq, Repr

namespace Config

/-- The checks of `validate`, in order, with the message of each. -/
def checks (config : Config) : List (Bool × String) :=
  [(config.memtableSizeThreshold == 0, "memtable_size_threshold must be greater than 0"),
   (config.maxMemtables == 0, "max_memtables must be greater than 0"),
   (decide (config.levelSizeMultiplier < 10), "level_size_multiplier must be at least 10"),
   (config.maxLevels == 0, "mmax_levels must be greater than 0"),
   (config.l0SstableSize == 0, "l0_sstable_size must be greater than 0"),
   (config.l0CompactionThreshold == 0, "l0_compaction_threshold must be greater than 0"),
   (!config.bloomFalsePositiveRate.inUnitInterval,
     "bloom_false_positive_rate must be between 0.0 and 1.0"),
   (config.writeBufferSize == 0, "write_buffer_size must be greater than 0"),
   (config.walSyncInterval == 0, "wal_sync_interval must be greater than 0"),
   (config.maxWalSize == 0, "max_wal_size must be greater than 0"),
   (config.compactionThreads == 0, "compaction_threads must be greater than 0"),
   (config.maxConcurrentCompactions == 0, "max_concurrent_compactions must be greater than 0"),
   (config.maxOpenFiles == 0, "max_open_files must be greater than 0")]

/-- The first check that fails decides the error. -/
def validate (config : Config) : Except String Unit :=
  match config.checks.find? (·.1) with
  | some (_, message) => .error message
  | none => .ok ()

/-- An accepted configuration passes every check. -/
theorem checks_of_validate {config : Config} (valid : config.validate = .ok ()) :
    ∀ check ∈ config.checks, check.1 = false := by
  unfold validate at valid
  split at valid
  · cases valid
  next passed =>
    intro check member
    simpa using List.find?_eq_none.mp passed check member

/-- A size or count that is checked against zero is positive. -/
theorem pos_of_check {config : Config} (valid : config.validate = .ok ()) {setting : Nat}
    (message : String) (checked : (setting == 0, message) ∈ config.checks) : 0 < setting := by
  have passed := checks_of_validate valid (setting == 0, message) checked
  exact Nat.pos_of_ne_zero (by simpa using passed)

theorem maxLevels_pos {config : Config} (valid : config.validate = .ok ()) :
    0 < config.maxLevels :=
  pos_of_check valid "mmax_levels must be greater than 0" (by simp [checks])

theorem l0CompactionThreshold_pos {config : Config} (valid : config.validate = .ok ()) :
    0 < config.l0CompactionThreshold :=
  pos_of_check valid "l0_compaction_threshold must be greater than 0" (by simp [checks])

/-- The default configuration passes its own checks. -/
example : ({} : Config).validate = .ok () := by decide +kernel

end Config

end JustDb

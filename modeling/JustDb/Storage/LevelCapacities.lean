import JustDb.Storage.Compaction

/-!
# The capacities of levels

`level_target_size` multiplies on `usize`, and no setting is bounded from above, so the
product may overflow.  `level_max_sstables` of a level above 0 calls itself with the same
level.
-/

namespace JustDb

/-- `a / b` on `usize`, which panics at a zero divisor. -/
def checkedDiv (a b : Nat) : Result Nat :=
  if b = 0 then .error .panic else .ok (a / b)

namespace Config

/-- The number of tables that a level may hold, where it takes at most `fuel` calls to find
out. -/
def levelMaxSstables (config : Config) : (fuel level : Nat) → Option (Result Nat)
  | 0, _ => none
  | fuel + 1, level =>
      if level = 0 then
        some (.ok config.l0CompactionThreshold)
      else
        (config.levelMaxSstables fuel level).map fun called => do
          let count ← called
          checkedDiv count config.l0SstableSize

/-- Some number of calls is enough. -/
def MaxSstablesTerminates (config : Config) (level : Nat) : Prop :=
  ∃ fuel result, config.levelMaxSstables fuel level = some result

/-- The bytes that a level is meant to hold, as a number of any size. -/
def capacity (config : Config) (level : Nat) : Nat :=
  config.l0SstableSize *
    if level = 0 then config.l0CompactionThreshold
    else config.levelSizeMultiplier ^ (level % 2 ^ 32)

/-! ## The target size -/

/-- The target size computes exactly where the capacity is a machine word. -/
theorem levelTargetSize_eq_ok {config : Config} (positive : 0 < config.l0SstableSize)
    {level size : Nat} :
    config.levelTargetSize level = .ok size ↔
      config.capacity level < wordSize ∧ config.capacity level = size := by
  unfold levelTargetSize capacity
  split
  · exact checkedMul_eq_ok
  · rw [Result.bind_eq_ok]
    constructor
    · rintro ⟨factor, raised, multiplied⟩
      obtain ⟨_, rfl⟩ := checkedMul_eq_ok.mp raised
      rw [Nat.one_mul] at multiplied
      exact checkedMul_eq_ok.mp multiplied
    · rintro ⟨word, sized⟩
      have factor := Nat.le_mul_of_pos_left
        (config.levelSizeMultiplier ^ (level % 2 ^ 32)) positive
      refine ⟨_, checkedMul_eq_ok.mpr ⟨?_, Nat.one_mul _⟩, checkedMul_eq_ok.mpr ⟨word, sized⟩⟩
      rw [Nat.one_mul]
      exact factor.trans_lt word

theorem levelSizeMultiplier_ge {config : Config} (valid : config.validate = .ok ()) :
    10 ≤ config.levelSizeMultiplier := by
  have passed := checks_of_validate valid
    (decide (config.levelSizeMultiplier < 10), "level_size_multiplier must be at least 10")
    (by simp [checks])
  simpa using passed

theorem l0SstableSize_pos {config : Config} (valid : config.validate = .ok ()) :
    0 < config.l0SstableSize :=
  pos_of_check valid "l0_sstable_size must be greater than 0" (by simp [checks])

/-- Above level 0 each level that a `u32` can name is meant to hold more than the one
before it. -/
theorem capacity_lt_capacity {config : Config} (valid : config.validate = .ok ())
    {lower level : Nat} (deep : 1 ≤ lower) (below : lower < level) (narrow : level < 2 ^ 32) :
    config.capacity lower < config.capacity level := by
  have raised : config.levelSizeMultiplier ^ lower < config.levelSizeMultiplier ^ level :=
    Nat.pow_lt_pow_right (Nat.lt_of_lt_of_le (by decide) (levelSizeMultiplier_ge valid)) below
  rw [capacity, capacity, if_neg (by omega), if_neg (by omega),
    Nat.mod_eq_of_lt (below.trans narrow), Nat.mod_eq_of_lt narrow]
  exact Nat.mul_lt_mul_of_pos_left raised (l0SstableSize_pos valid)

/-- So are the target sizes, where they compute. -/
theorem levelTargetSize_lt {config : Config} (valid : config.validate = .ok ())
    {lower level : Nat} (deep : 1 ≤ lower) (below : lower < level) (narrow : level < 2 ^ 32)
    {small large : Nat} (first : config.levelTargetSize lower = .ok small)
    (second : config.levelTargetSize level = .ok large) : small < large := by
  have positive := l0SstableSize_pos valid
  obtain ⟨_, rfl⟩ := (levelTargetSize_eq_ok positive).mp first
  obtain ⟨_, rfl⟩ := (levelTargetSize_eq_ok positive).mp second
  exact capacity_lt_capacity valid deep below narrow

/-- Whether a level with countable bytes needs compaction is decided exactly where its
target size computes. -/
theorem levelNeedsCompaction_isOk_iff {Table : Type} {ops : TableOps Table}
    {engine : StorageEngine Table} {level bytes : Nat} {tables : List Table}
    (held : engine.sstables level = some tables)
    (counted : tables.foldlM
      (fun total table => checkedAdd total (ops.metadata table).dataSize) 0 = .ok bytes) :
    (∃ needed, engine.levelNeedsCompaction ops level = .ok needed) ↔
      ∃ size, engine.config.levelTargetSize level = .ok size := by
  rw [StorageEngine.levelNeedsCompaction, held]
  dsimp only
  rw [counted, Result.ok_bind]
  cases engine.config.levelTargetSize level with
  | ok size => simp
  | error fault => simp

/-! ## The number of tables -/

/-- Above level 0 no number of calls is enough. -/
theorem levelMaxSstables_eq_none (config : Config) {level : Nat} (deep : level ≠ 0)
    (fuel : Nat) : config.levelMaxSstables fuel level = none := by
  induction fuel with
  | zero => rfl
  | succ fuel ih => rw [levelMaxSstables, if_neg deep, ih, Option.map_none]

theorem maxSstablesTerminates_iff {config : Config} {level : Nat} :
    config.MaxSstablesTerminates level ↔ level = 0 := by
  constructor
  · rintro ⟨fuel, result, ran⟩
    by_contra deep
    rw [levelMaxSstables_eq_none config deep] at ran
    cases ran
  · rintro rfl
    exact ⟨1, _, rfl⟩

/-! ## Both functions -/

/-- The target size of a level computes, is above that of each level from 1 on before it,
and its number of tables is found. -/
structure LevelWellDefined (config : Config) (level : Nat) : Prop where
  computes : ∃ size, config.levelTargetSize level = .ok size
  increasing : ∀ lower, 1 ≤ lower → lower < level → ∀ small large,
    config.levelTargetSize lower = .ok small → config.levelTargetSize level = .ok large →
      small < large
  terminates : config.MaxSstablesTerminates level

/-- Under a configuration that `validate` accepts, level 0 is well defined where its target
size is a machine word, and no other level is. -/
theorem levelWellDefined_iff {config : Config} (valid : config.validate = .ok ())
    (level : Nat) :
    config.LevelWellDefined level ↔
      level = 0 ∧ config.l0SstableSize * config.l0CompactionThreshold < wordSize := by
  have target := @levelTargetSize_eq_ok config (l0SstableSize_pos valid) level
  constructor
  · intro defined
    obtain rfl := maxSstablesTerminates_iff.mp defined.terminates
    obtain ⟨size, computed⟩ := defined.computes
    exact ⟨rfl, (target.mp computed).1⟩
  · rintro ⟨rfl, word⟩
    exact
      { computes := ⟨_, target.mpr ⟨word, rfl⟩⟩
        increasing := fun lower _ below => absurd below (Nat.not_lt_zero lower)
        terminates := maxSstablesTerminates_iff.mpr rfl }

/-- The default configuration at level 0. -/
theorem levelWellDefined_default :
    ({} : Config).LevelWellDefined 0 ↔ 0 = 0 ∧ 2 * 1024 * 1024 * 4 < wordSize :=
  levelWellDefined_iff (by decide +kernel) 0

/-- The default configuration at level 1. -/
theorem level_one_not_well_defined :
    ¬ ∀ config : Config, config.validate = .ok () → ∀ level < config.maxLevels,
      config.LevelWellDefined level := by
  intro defined
  have one := defined {} (by decide +kernel) 1 (by decide)
  exact absurd (maxSstablesTerminates_iff.mp one.terminates) Nat.one_ne_zero

end Config

end JustDb

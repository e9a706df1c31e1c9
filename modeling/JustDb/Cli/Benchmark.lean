import JustDb.Storage.CleanShutdown
import JustDb.Storage.Statistics
import JustDb.Cli.Session
import Mathlib.Data.Nat.Digits.Lemmas

/-!
# The benchmark

`run_benchmark` puts a tenth as many entries as it is to make operations, then makes the
operations: reads of keys among those numbered so far, or writes of the next one.  The
random numbers are given from outside.
-/

namespace JustDb

open Stateful Machine

variable {World Table : Type}

namespace Cli

/-! ## Keys and values -/

/-- `{:010}`: the decimal digits of a number, at least ten of them. -/
def decimal (id : Nat) : Bytes :=
  ((Nat.digitsAppend 10 10 id).map fun digit => UInt8.ofNat (48 + digit)).reverse

/-- `Vec::resize` -/
def resize (size : Nat) (fill : UInt8) (bytes : Bytes) : Bytes :=
  bytes.take size ++ List.replicate (size - bytes.length) fill

def generateKey (id size : Nat) : Bytes :=
  resize size 48 ([107, 101, 121] ++ decimal id)

/-- `0123456789abcdef` -/
def pattern : Bytes :=
  [48, 49, 50, 51, 52, 53, 54, 55, 56, 57, 97, 98, 99, 100, 101, 102]

/-- `while value.len() < size`: append the pattern, or as much of it as is missing.  Each
turn appends a byte, so `fuel` is `size`. -/
def extend (size : Nat) : (fuel : Nat) → Bytes → Bytes
  | 0, value => value
  | fuel + 1, value =>
      if value.length < size then
        extend size fuel (value ++ pattern.take (min (size - value.length) pattern.length))
      else value

def generateValue (id size : Nat) : Bytes :=
  (extend size size ([118, 97, 108, 117, 101] ++ decimal id)).take size

example : generateKey 42 16 = [107, 101, 121] ++ [48, 48, 48, 48, 48, 48, 48, 48, 52, 50] ++
    [48, 48, 48] := by
  decide +kernel

/-! ## The runs -/

/-- The options of the benchmark. -/
structure Benchmark where
  operations : Nat := 10000
  keySize : Nat := 16
  valueSize : Nat := 128
  readPercentage : Nat := 80
  deriving DecidableEq, Repr

/-- What `rng.random_range` draws from: for each operation, a number that decides whether it
reads, and one that decides which key. -/
structure Dice where
  chance : Nat → Nat
  pick : Nat → Nat

/-- `read_ops`, `write_ops` and `read_hits`; the sums are `i32`. -/
structure Counts where
  readOps : Nat
  writeOps : Nat
  readHits : Nat
  deriving DecidableEq, Repr

/-- A sum of an `i32` and one that overflows is a panic. -/
def increment (count : Nat) : Result Nat :=
  if count + 1 < 2 ^ 31 then .ok (count + 1) else .error .panic

/-- A number below a bound, which must not be zero. -/
def randomRange (drawn bound : Nat) : Result Nat :=
  if bound = 0 then .error .panic else .ok (drawn % bound)

namespace Benchmark

/-- How many entries are put before the measurement. -/
def populateCount (benchmark : Benchmark) : Nat :=
  benchmark.operations / 10

def isRead (benchmark : Benchmark) (dice : Dice) (i : Nat) : Bool :=
  dice.chance i % 100 < benchmark.readPercentage

variable (platform : Platform World Table) (benchmark : Benchmark) (dice : Dice)

def populate : Action World Table Unit :=
  (List.range benchmark.populateCount).forM fun i =>
    Machine.put platform (generateKey i benchmark.keySize) (generateValue i benchmark.valueSize)

def read (counts : Counts) (i : Nat) : Action World Table Counts := do
  let id ← lift (randomRange (dice.pick i) (benchmark.populateCount + i))
  let machine ← get
  let found ← lift (machine.engine.get platform.toTableOps (generateKey id benchmark.keySize))
  let readHits ← lift (if found.isSome then increment counts.readHits else .ok counts.readHits)
  let readOps ← lift (increment counts.readOps)
  pure { counts with readOps, readHits }

/-- The value is made by `generate_key` too, and the operation is counted as a read. -/
def write (counts : Counts) (i : Nat) : Action World Table Counts := do
  let id := benchmark.populateCount + i
  Machine.put platform (generateKey id benchmark.keySize) (generateKey id benchmark.valueSize)
  let readOps ← lift (increment counts.readOps)
  pure { counts with readOps }

def readOrWrite (counts : Counts) (i : Nat) : Action World Table Counts :=
  if benchmark.isRead dice i then read platform benchmark dice counts i
  else write platform benchmark counts i

/-- One operation, and the remainder that decides whether to show the progress. -/
def operate (counts : Counts) (i : Nat) : Action World Table Counts := do
  let counts ← readOrWrite platform benchmark dice counts i
  if benchmark.operations / 10 = 0 then throw .panic else pure counts

/-- The counts that are printed, with the statistics at the end. -/
def run : Action World Table (Counts × Figures) := do
  populate platform benchmark
  let counts ← (List.range benchmark.operations).foldlM (operate platform benchmark dice)
    { readOps := 0, writeOps := 0, readHits := 0 }
  let machine ← get
  let figures ← lift (printStats (machine.engine.stats platform.toTableOps))
  pure (counts, figures)

end Benchmark

/-! ## Sizes -/

theorem length_resize (size : Nat) (fill : UInt8) (bytes : Bytes) :
    (resize size fill bytes).length = size := by
  rw [resize, List.length_append, List.length_take, List.length_replicate]
  omega

/-- The loop goes on until the value is long enough. -/
theorem le_length_extend {size fuel : Nat} {value : Bytes} (enough : size ≤ value.length + fuel) :
    size ≤ (extend size fuel value).length := by
  induction fuel generalizing value with
  | zero => exact enough
  | succ fuel ih =>
      rw [extend]
      split
      next short =>
        have grows : 0 < (pattern.take (min (size - value.length) pattern.length)).length := by
          rw [List.length_take]
          exact lt_min (lt_min (Nat.sub_pos_of_lt short) (by decide)) (by decide)
        refine ih ?_
        rw [List.length_append]
        omega
      next long => exact not_lt.mp long

theorem length_generateValue (id size : Nat) : (generateValue id size).length = size := by
  rw [generateValue, List.length_take]
  exact min_eq_left (le_length_extend (Nat.le_add_left _ _))

/-- An entry that the engine takes is not too large. -/
theorem fits_of_put {platform : Platform World Table} {id keySize valueSize : Nat}
    {machine reached : Machine World Table}
    (ran : Machine.put platform (generateKey id keySize) (generateValue id valueSize) machine =
      .ok () reached) : keySize ≤ maxKeySize ∧ valueSize ≤ maxValueSize := by
  have call : (Write.put (generateKey id keySize) (generateValue id valueSize)).run platform
      machine = .ok () reached := ran
  rw [Write.run_apply] at call
  split at call
  · cases call
  next accepted =>
    rw [Write.rejection_of_running (Write.running_of_rejection accepted)] at accepted
    simp only [Write.oversize, Write.key, Write.value, length_generateValue, generateKey,
      length_resize] at accepted
    split at accepted
    · cases accepted
    next short =>
      refine ⟨not_lt.mp short, not_lt.mp fun large => ?_⟩
      rw [if_pos large] at accepted
      cases accepted

/-! ## The keys of different entries -/

/-- Ten digits determine the number. -/
theorem decimal_injective {left right : Nat} (leftSmall : left < 10 ^ 10)
    (rightSmall : right < 10 ^ 10) (same : decimal left = decimal right) : left = right := by
  have read : ∀ id, ((decimal id).reverse.map fun byte => byte.toNat - 48) =
      Nat.digitsAppend 10 10 id := by
    intro id
    rw [decimal, List.reverse_reverse, List.map_map]
    refine (List.map_congr_left fun digit member => ?_).trans (List.map_id _)
    have below := Nat.lt_of_mem_digitsAppend (by decide) 10 digit member
    change (UInt8.ofNat (48 + digit)).toNat - 48 = digit
    rw [UInt8.toNat_ofNat']
    omega
  have digits : Nat.digitsAppend 10 10 left = Nat.digitsAppend 10 10 right := by
    rw [← read, ← read, same]
  exact (Nat.setInvOn_digitsAppend_ofDigits (by decide) 10).2.injOn leftSmall rightSmall digits

theorem length_decimal {id : Nat} (small : id < 10 ^ 10) : (decimal id).length = 10 := by
  rw [decimal, List.length_reverse, List.length_map,
    Nat.length_digitsAppend (by decide) 10 small]

/-- Keys of thirteen bytes or more differ between entries. -/
theorem generateKey_injective {size left right : Nat} (wide : 13 ≤ size)
    (leftSmall : left < 10 ^ 10) (rightSmall : right < 10 ^ 10)
    (same : generateKey left size = generateKey right size) : left = right := by
  have laidOut : ∀ {id}, id < 10 ^ 10 → generateKey id size =
      [107, 101, 121] ++ decimal id ++ List.replicate (size - 13) 48 := by
    intro id small
    have length : ([107, 101, 121] ++ decimal id).length = 13 := by
      simp [length_decimal small]
    rw [generateKey, resize, length, List.take_of_length_le (length.trans_le wide)]
  rw [laidOut leftSmall, laidOut rightSmall, List.append_cancel_right_eq,
    List.append_cancel_left_eq] at same
  exact decimal_injective leftSmall rightSmall same

namespace Benchmark

variable {platform : Platform World Table} {benchmark : Benchmark} {dice : Dice}

/-- The entries that are put, before the measurement or by an operation. -/
def Written (benchmark : Benchmark) (dice : Dice) (id : Nat) : Prop :=
  id < benchmark.populateCount ∨ benchmark.isRead dice (id - benchmark.populateCount) = false

instance (id : Nat) : Decidable (benchmark.Written dice id) :=
  inferInstanceAs (Decidable (_ ∨ _))

/-- The operations that read an entry which has been put. -/
def Hits (benchmark : Benchmark) (dice : Dice) (i : Nat) : Prop :=
  benchmark.isRead dice i = true ∧
    benchmark.Written dice (dice.pick i % (benchmark.populateCount + i))

instance (i : Nat) : Decidable (benchmark.Hits dice i) :=
  inferInstanceAs (Decidable (_ ∧ _))

/-- An engine that finds the entries which have been put, among those numbered so far. -/
structure Filled (platform : Platform World Table) (benchmark : Benchmark) (dice : Dice)
    (numbered : Nat) (machine : Machine World Table) : Prop where
  leveled : 0 < machine.engine.config.maxLevels
  get : ∀ key, ∃ found, machine.engine.get platform.toTableOps key = .ok found ∧
    (found.isSome ↔
      ∃ id < numbered, benchmark.Written dice id ∧ generateKey id benchmark.keySize = key)

/-- Putting the next entry. -/
theorem Filled.put (faithful : platform.Faithful) {numbered : Nat}
    {machine reached : Machine World Table}
    (filled : Filled platform benchmark dice numbered machine)
    (written : benchmark.Written dice numbered) {value : Value}
    (ran : Machine.put platform (generateKey numbered benchmark.keySize) value machine =
      .ok () reached) : Filled platform benchmark dice (numbered + 1) reached := by
  have call : (Write.put (generateKey numbered benchmark.keySize) value).run platform machine =
      .ok () reached := ran
  obtain ⟨config, updated⟩ := Write.get_run faithful filled.leveled call
  refine ⟨by rw [config]; exact filled.leveled, fun key => ?_⟩
  rw [updated, Function.update_apply]
  by_cases own : key = generateKey numbered benchmark.keySize
  · refine ⟨some value, if_pos own, iff_of_true rfl ?_⟩
    exact ⟨numbered, Nat.lt_succ_self numbered, written, own.symm⟩
  · obtain ⟨found, got, stored⟩ := filled.get key
    refine ⟨found, (if_neg own).trans got, stored.trans ⟨?_, ?_⟩⟩
    · rintro ⟨id, below, rest⟩
      exact ⟨id, Nat.lt_succ_of_lt below, rest⟩
    · rintro ⟨id, below, put, rfl⟩
      have apart : id ≠ numbered := fun same => own (by rw [same])
      exact ⟨id, by omega, put, rfl⟩

/-- Passing over an entry that is not put. -/
theorem Filled.skip {numbered : Nat} {machine : Machine World Table}
    (filled : Filled platform benchmark dice numbered machine)
    (unwritten : ¬benchmark.Written dice numbered) :
    Filled platform benchmark dice (numbered + 1) machine := by
  refine ⟨filled.leveled, fun key => ?_⟩
  obtain ⟨found, got, stored⟩ := filled.get key
  refine ⟨found, got, stored.trans ⟨?_, ?_⟩⟩
  · rintro ⟨id, below, rest⟩
    exact ⟨id, Nat.lt_succ_of_lt below, rest⟩
  · rintro ⟨id, below, put, keyed⟩
    have apart : id ≠ numbered := fun same => unwritten (same ▸ put)
    exact ⟨id, by omega, put, keyed⟩

theorem filled_populate (faithful : platform.Faithful) {machine reached : Machine World Table}
    (filled : Filled platform benchmark dice 0 machine)
    (ran : populate platform benchmark machine = .ok () reached) :
    Filled platform benchmark dice benchmark.populateCount reached := by
  have each : ∀ count, count ≤ benchmark.populateCount → ∀ reached : Machine World Table,
      (List.range count).forM (fun i => Machine.put platform (generateKey i benchmark.keySize)
        (generateValue i benchmark.valueSize)) machine = .ok () reached →
      Filled platform benchmark dice count reached := by
    intro count
    induction count with
    | zero =>
        intro _ reached ran
        cases ran
        exact filled
    | succ count ih =>
        intro within reached ran
        rw [List.range_succ, forM_append] at ran
        obtain ⟨⟨⟩, middle, before, last⟩ := bind_eq_ok.mp ran
        obtain ⟨⟨⟩, after, put, done⟩ := bind_eq_ok.mp last
        cases done
        exact (ih (Nat.le_of_succ_le within) middle before).put faithful (.inl within) put
  exact each _ le_rfl reached ran

theorem fits_of_populate {machine reached : Machine World Table}
    (several : benchmark.populateCount ≠ 0)
    (ran : populate platform benchmark machine = .ok () reached) :
    benchmark.keySize ≤ maxKeySize ∧ benchmark.valueSize ≤ maxValueSize := by
  obtain ⟨count, count_eq⟩ := Nat.exists_eq_succ_of_ne_zero several
  rw [populate, count_eq, List.range_succ, forM_append] at ran
  obtain ⟨⟨⟩, middle, _, last⟩ := bind_eq_ok.mp ran
  obtain ⟨⟨⟩, after, put, _⟩ := bind_eq_ok.mp last
  exact fits_of_put put

theorem increment_eq_ok {count next : Nat} (ran : increment count = .ok next) :
    next = count + 1 := by
  rw [increment] at ran
  split at ran <;> cases ran
  rfl

/-- A read that returns. -/
theorem read_spec {i : Nat} (few : benchmark.populateCount + i < 10 ^ 10)
    (wide : 13 ≤ benchmark.keySize) {counts next : Counts} {machine reached : Machine World Table}
    (filled : Filled platform benchmark dice (benchmark.populateCount + i) machine)
    (ran : read platform benchmark dice counts i machine = .ok next reached) :
    reached = machine ∧
      next = { counts with
        readOps := counts.readOps + 1
        readHits := counts.readHits +
          if benchmark.Written dice (dice.pick i % (benchmark.populateCount + i)) then 1
          else 0 } := by
  obtain ⟨id, _, drawing, ran⟩ := bind_eq_ok.mp ran
  obtain ⟨drawn, rfl⟩ := lift_eq_ok.mp drawing
  rw [bind_of_ok (get_apply _)] at ran
  obtain ⟨found, _, asking, ran⟩ := bind_eq_ok.mp ran
  obtain ⟨asked, rfl⟩ := lift_eq_ok.mp asking
  obtain ⟨readHits, _, hitting, ran⟩ := bind_eq_ok.mp ran
  obtain ⟨hit, rfl⟩ := lift_eq_ok.mp hitting
  obtain ⟨readOps, _, counting, ran⟩ := bind_eq_ok.mp ran
  obtain ⟨done, rfl⟩ := lift_eq_ok.mp counting
  cases ran
  have below : id < benchmark.populateCount + i ∧
      id = dice.pick i % (benchmark.populateCount + i) := by
    rw [randomRange] at drawn
    split at drawn
    · cases drawn
    next several =>
      cases drawn
      exact ⟨Nat.mod_lt _ (Nat.pos_of_ne_zero several), rfl⟩
  obtain ⟨below, rfl⟩ := below
  obtain ⟨other, got, stored⟩ := filled.get (generateKey
    (dice.pick i % (benchmark.populateCount + i)) benchmark.keySize)
  cases got.symm.trans asked
  have known : found.isSome ↔
      benchmark.Written dice (dice.pick i % (benchmark.populateCount + i)) := by
    rw [stored]
    constructor
    · rintro ⟨id, small, put, keyed⟩
      rwa [← generateKey_injective wide (small.trans few) (below.trans few) keyed]
    · exact fun put => ⟨_, below, put, rfl⟩
  refine ⟨rfl, ?_⟩
  rw [increment_eq_ok done]
  split at hit
  next some =>
    rw [increment_eq_ok hit, if_pos (known.mp some)]
  next none =>
    cases hit
    rw [if_neg fun put => none (known.mpr put)]
    rfl

/-- One operation that returns. -/
theorem operate_spec (faithful : platform.Faithful) {i : Nat}
    (few : benchmark.populateCount + i < 10 ^ 10) (wide : 13 ≤ benchmark.keySize)
    {counts next : Counts} {machine reached : Machine World Table}
    (filled : Filled platform benchmark dice (benchmark.populateCount + i) machine)
    (ran : operate platform benchmark dice counts i machine = .ok next reached) :
    Filled platform benchmark dice (benchmark.populateCount + (i + 1)) reached ∧
      benchmark.populateCount ≠ 0 ∧
      next = { counts with
        readOps := counts.readOps + 1
        readHits := counts.readHits + if benchmark.Hits dice i then 1 else 0 } := by
  obtain ⟨counted, middle, operated, shown⟩ := bind_eq_ok.mp ran
  split at shown
  · cases shown
  next several =>
    cases shown
    have offset : benchmark.populateCount + i - benchmark.populateCount = i := by omega
    rw [readOrWrite] at operated
    split at operated
    next reads =>
      obtain ⟨rfl, rfl⟩ := read_spec few wide filled operated
      refine ⟨filled.skip ?_, several, ?_⟩
      · rw [Written, offset, reads]
        simp
      · simp [Hits, reads]
    next writes =>
      obtain ⟨⟨⟩, after, put, counting⟩ := bind_eq_ok.mp operated
      obtain ⟨readOps, _, incrementing, same⟩ := bind_eq_ok.mp counting
      obtain ⟨done, rfl⟩ := lift_eq_ok.mp incrementing
      cases same
      refine ⟨filled.put faithful (.inr ?_) put, several, ?_⟩
      · rw [offset]
        simpa using writes
      · simp [Hits, writes, increment_eq_ok done]

/-- What a benchmark on an empty engine reports when it returns.  All operations are counted
as reads, the hits are the reads of entries that have been put, and there were no operations
or ten of them at least, with keys and values that the engine takes. -/
theorem run_counts (faithful : platform.Faithful) {machine reached : Machine World Table}
    (valid : machine.engine.config.validate = .ok ())
    (empty : ∀ key, machine.engine.get platform.toTableOps key = .ok none)
    (few : benchmark.populateCount + benchmark.operations ≤ 10 ^ 10)
    (wide : 13 ≤ benchmark.keySize) {counts : Counts} {figures : Figures}
    (ran : run platform benchmark dice machine = .ok (counts, figures) reached) :
    counts = {
      readOps := benchmark.operations
      writeOps := 0
      readHits := (List.range benchmark.operations).countP fun i => benchmark.Hits dice i } ∧
    (benchmark.operations = 0 ∨ 10 ≤ benchmark.operations ∧
      benchmark.keySize ≤ maxKeySize ∧ benchmark.valueSize ≤ maxValueSize) := by
  have initially : Filled platform benchmark dice 0 machine :=
    ⟨Config.maxLevels_pos valid, fun key => ⟨none, empty key, by simp⟩⟩
  obtain ⟨⟨⟩, populated, populating, ran⟩ := bind_eq_ok.mp ran
  obtain ⟨last, operated, operating, ran⟩ := bind_eq_ok.mp ran
  rw [bind_of_ok (get_apply _)] at ran
  obtain ⟨shown, _, printed, ran⟩ := bind_eq_ok.mp ran
  cases ran
  have start := filled_populate faithful initially populating
  have each : ∀ count, count ≤ benchmark.operations → ∀ (counts : Counts)
      (reached : Machine World Table),
      (List.range count).foldlM (operate platform benchmark dice) ⟨0, 0, 0⟩ populated =
        .ok counts reached →
      Filled platform benchmark dice (benchmark.populateCount + count) reached ∧
        (count = 0 ∨ benchmark.populateCount ≠ 0) ∧
        counts = ⟨count, 0, (List.range count).countP fun i => benchmark.Hits dice i⟩ := by
    intro count
    induction count with
    | zero =>
        intro _ counts reached ran
        cases ran
        exact ⟨start, .inl rfl, rfl⟩
    | succ count ih =>
        intro within counts reached ran
        rw [List.range_succ, List.foldlM_append] at ran
        obtain ⟨before, middle, earlier, ran⟩ := bind_eq_ok.mp ran
        obtain ⟨after, _, operated, done⟩ := bind_eq_ok.mp ran
        cases done
        obtain ⟨filled, _, rfl⟩ := ih (Nat.le_of_succ_le within) before middle earlier
        obtain ⟨filled, several, counted⟩ :=
          operate_spec faithful (by omega) wide filled operated
        refine ⟨filled, .inr several, ?_⟩
        rw [counted, List.range_succ, List.countP_append, List.countP_singleton]
        simp
  obtain ⟨_, enough, counted⟩ := each _ le_rfl _ _ operating
  refine ⟨counted, enough.imp_right fun several => ⟨?_, fits_of_populate several populating⟩⟩
  rw [populateCount] at several
  omega

/-- Ten operations of which some write and some read what is not there. -/
def small : Benchmark :=
  { operations := 10, keySize := 13, valueSize := 20, readPercentage := 60 }

def dice37 : Dice where
  chance i := 37 * i
  pick i := 7 * i

theorem run_counts_small :
    ∃ counts figures reached,
      run MemoryWorld.platform small dice37 (MemoryWorld.start []) = .ok (counts, figures) reached ∧
      counts = {
        readOps := small.operations
        writeOps := 0
        readHits := (List.range small.operations).countP fun i => small.Hits dice37 i } ∧
      (small.operations = 0 ∨ 10 ≤ small.operations ∧
        small.keySize ≤ maxKeySize ∧ small.valueSize ≤ maxValueSize) := by
  have returned : succeeded (run MemoryWorld.platform small dice37 (MemoryWorld.start [])) =
      true := by
    decide +kernel
  obtain ⟨⟨counts, figures⟩, ran⟩ := exists_ok_of_succeeded returned
  have nothing : ∀ key, (MemoryWorld.start []).engine.get MemoryTable.ops key = .ok none :=
    StorageEngine.get_fresh MemoryTable.ops MemoryWorld.smallConfig
  exact ⟨counts, figures, _, ran, run_counts MemoryWorld.platform_faithful
    (by decide +kernel) nothing (by decide +kernel) (by decide) ran⟩

end Benchmark

end Cli

end JustDb

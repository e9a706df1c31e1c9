import JustDb.Storage.Engine

/-!
# The stack that a read searches

A read asks the memtables from the newest down, then level 0 from its newest
table down, then the deeper levels.  Rotation moves the current memtable one
place down this stack, and a flush that succeeds puts a table in the place of
the oldest memtable, so neither changes what a read finds.
-/

namespace JustDb

open Stateful Machine

variable {World Table : Type}

/-! ## Tables that answer for their entries -/

/-- A table answers point lookups exactly for a list of entries: the bloom filter
never denies a stored key, and the lookup returns the entry of the key. -/
structure AnswersFor (ops : TableOps Table) (table : Table) (entries : List Entry) :
    Prop where
  mightContain : ∀ key, ∃ maybe, ops.mightContain table key = .ok maybe ∧
    ∀ entry ∈ entries, entry.key = key → maybe = true
  get : ∀ key, ops.get table key = .ok (entryFor entries key)

/-- A table made from ascending entries, built and reopened, answers for them. -/
def Platform.Faithful (platform : Platform World Table) : Prop :=
  ∀ config path entries world reader reached,
    entries ≠ [] → Ascending entries →
    platform.makeTable config path entries world = .ok reader reached →
    AnswersFor platform.toTableOps reader entries

theorem AnswersFor.lookupTable {ops : TableOps Table} {table : Table}
    {entries : List Entry} (answers : AnswersFor ops table entries) (key : Key) :
    StorageEngine.lookupTable ops key table = .ok (entryFor entries key) := by
  obtain ⟨maybe, asked, covers⟩ := answers.mightContain key
  rw [StorageEngine.lookupTable, asked]
  cases maybe with
  | true => exact answers.get key
  | false =>
      have missing : entryFor entries key = none :=
        entryFor_eq_none.mpr fun entry member keyed =>
          Bool.false_ne_true (covers entry member keyed)
      rw [missing]
      rfl

namespace StorageEngine

/-! ## The stack, from the newest source down -/

/-- The memtables, newest first. -/
def memtables (engine : StorageEngine Table) : List MemTable :=
  engine.memtable :: engine.immutableMemtables.reverse

/-- The first entry that the tables hold for a key. -/
def searchTables (ops : TableOps Table) (engine : StorageEngine Table) (key : Key) :
    Result (Option Entry) :=
  Layered.first ((List.range engine.config.maxLevels).map (engine.lookupLevel ops key))

/-- The first entry found for a key, delete markers included. -/
def search (ops : TableOps Table) (engine : StorageEngine Table) (key : Key) :
    Result (Option Entry) :=
  Layered.first (engine.answers ops key)

theorem search_eq (ops : TableOps Table) (engine : StorageEngine Table) (key : Key) :
    engine.search ops key =
      Layered.orElse (.ok (engine.memtables.findSome? fun memtable => memtable.get key))
        (engine.searchTables ops key) := by
  rw [search, answers, Layered.first_append, memtableAnswers, ← memtables,
    Layered.first_map_of_ok fun memtable _ => rfl, searchTables]

/-- `get` returns the value of the entry found. -/
theorem get_eq {ops : TableOps Table} {engine : StorageEngine Table}
    (running : engine.closed = false) (key : Key) :
    engine.get ops key = (engine.search ops key).map fun found => found.bind Entry.value := by
  rw [get, running, search]
  cases Layered.first (engine.answers ops key) <;> rfl

theorem get_of_closed {ops : TableOps Table} {engine : StorageEngine Table}
    (stopped : engine.closed = true) (key : Key) :
    engine.get ops key = .error (.error .closed) := by
  rw [get, stopped]
  rfl

/-- A table pushed to level 0 is asked before the other tables. -/
theorem searchTables_pushLevel0 {ops : TableOps Table} {engine : StorageEngine Table}
    (leveled : 0 < engine.config.maxLevels) (table : Table) (key : Key) :
    (engine.pushLevel0 table).searchTables ops key =
      Layered.orElse (lookupTable ops key table) (engine.searchTables ops key) := by
  obtain ⟨deeper, maxLevels⟩ := Nat.exists_eq_succ_of_ne_zero leveled.ne'
  have below : ∀ level ∈ (List.range deeper).map Nat.succ,
      (engine.pushLevel0 table).lookupLevel ops key level =
        engine.lookupLevel ops key level := by
    intro level member
    obtain ⟨previous, -, rfl⟩ := List.mem_map.mp member
    simp [lookupLevel, pushLevel0, tables_setLevel]
  have top : (engine.pushLevel0 table).lookupLevel ops key 0 =
      Layered.orElse (lookupTable ops key table) (engine.lookupLevel ops key 0) := by
    simp [lookupLevel, pushLevel0]
  rw [searchTables, searchTables, show (engine.pushLevel0 table).config = engine.config from rfl,
    maxLevels, Nat.succ_eq_add_one, List.range_succ_eq_map, List.map_cons, List.map_cons,
    Layered.first_cons, Layered.first_cons, List.map_congr_left below, top, Layered.orElse_assoc]

/-- Two engines that answer every read alike. -/
structure ReadsAlike (ops : TableOps Table) (before after : StorageEngine Table) : Prop where
  config : after.config = before.config
  closed : after.closed = before.closed
  search : ∀ key, after.search ops key = before.search ops key

theorem ReadsAlike.refl (ops : TableOps Table) (engine : StorageEngine Table) :
    ReadsAlike ops engine engine :=
  ⟨rfl, rfl, fun _ => rfl⟩

theorem ReadsAlike.trans {ops : TableOps Table} {first second third : StorageEngine Table}
    (left : ReadsAlike ops first second) (right : ReadsAlike ops second third) :
    ReadsAlike ops first third :=
  ⟨right.config.trans left.config, right.closed.trans left.closed,
    fun key => (right.search key).trans (left.search key)⟩

theorem ReadsAlike.get {ops : TableOps Table} {before after : StorageEngine Table}
    (alike : ReadsAlike ops before after) (key : Key) :
    after.get ops key = before.get ops key := by
  cases stopped : before.closed with
  | true => rw [get_of_closed stopped, get_of_closed (alike.closed.trans stopped)]
  | false => rw [get_eq stopped, get_eq (alike.closed.trans stopped), alike.search]

/-! ## Rotation -/

/-- The engine after `rotate_memtable` has pushed the old memtable to the immutable
list and before anything is flushed. -/
def rotated (engine : StorageEngine Table) : StorageEngine Table :=
  { engine with
    sequenceCounter := engine.sequenceCounter + 1
    memtable := .withSequence engine.config.memtableSizeThreshold engine.sequenceCounter
    immutableMemtables := engine.immutableMemtables ++ [engine.memtable.makeImmutable] }

/-- Rotation only adds an empty memtable on top of the stack. -/
theorem readsAlike_rotated (ops : TableOps Table) (engine : StorageEngine Table) :
    ReadsAlike ops engine engine.rotated where
  config := rfl
  closed := rfl
  search := by
    intro key
    have tables : engine.rotated.searchTables ops key = engine.searchTables ops key := rfl
    rw [search_eq, search_eq, tables]
    simp [memtables, rotated, List.findSome?_cons]

/-! ## Flushing -/

/-- The engine after a flush: `none` when there was nothing to write. -/
def install (engine : StorageEngine Table) : Option Table → StorageEngine Table
  | some table => engine.pushLevel0 table
  | none => engine

@[simp] theorem config_install (engine : StorageEngine Table) (made : Option Table) :
    (engine.install made).config = engine.config := by
  cases made <;> rfl

@[simp] theorem closed_install (engine : StorageEngine Table) (made : Option Table) :
    (engine.install made).closed = engine.closed := by
  cases made <;> rfl

@[simp] theorem memtable_install (engine : StorageEngine Table) (made : Option Table) :
    (engine.install made).memtable = engine.memtable := by
  cases made <;> rfl

@[simp] theorem immutableMemtables_install (engine : StorageEngine Table)
    (made : Option Table) :
    (engine.install made).immutableMemtables = engine.immutableMemtables := by
  cases made <;> rfl

/-- The table made by a flush answers for the memtable it was made from. -/
theorem searchTables_install {platform : Platform World Table}
    (faithful : platform.Faithful) (engine : StorageEngine Table)
    (leveled : 0 < engine.config.maxLevels) {config : Config} {memtable : MemTable}
    {world reached : World} {made : Option Table}
    (flushed : platform.flushTable config memtable world = .ok made reached) (key : Key) :
    (engine.install made).searchTables platform.toTableOps key =
      Layered.orElse (.ok (memtable.get key))
        (engine.searchTables platform.toTableOps key) := by
  rw [Platform.flushTable] at flushed
  split at flushed
  next empty =>
    cases flushed
    rw [MemTable.get_of_count_eq_zero empty, Layered.none_orElse, install]
  next nonempty =>
    obtain ⟨micros, middle, -, flushed⟩ := bind_eq_ok.mp flushed
    obtain ⟨reader, after, ran, returned⟩ := bind_eq_ok.mp flushed
    cases returned
    have answers := faithful _ _ _ _ _ _ (MemTable.entryList_ne_nil nonempty)
      memtable.entryList_ascending ran
    rw [install, searchTables_pushLevel0 leveled, answers.lookupTable,
      MemTable.entryFor_entryList]

end StorageEngine

namespace Machine

/-- A flush changes the tables when it succeeds and nothing when it fails. -/
theorem flushMemtable_apply (platform : Platform World Table) (memtable : MemTable)
    (machine : Machine World Table) :
    flushMemtable platform memtable machine =
      match platform.flushTable machine.engine.config memtable machine.world with
      | .ok made world => .ok () { engine := machine.engine.install made, world }
      | .error fault world => .error fault { machine with world } := by
  rw [flushMemtable, bind_eq, get_apply]
  simp only [bind_eq, onWorld]
  cases platform.flushTable machine.engine.config memtable machine.world with
  | error fault world => rfl
  | ok made world => cases made <;> rfl

theorem rotateMemtable_apply (platform : Platform World Table)
    (machine : Machine World Table) :
    rotateMemtable platform machine =
      flushExcess platform (machine.engine.immutableMemtables.length + 1)
        { machine with engine := machine.engine.rotated } := by
  have length : machine.engine.rotated.immutableMemtables.length =
      machine.engine.immutableMemtables.length + 1 := by
    simp [StorageEngine.rotated]
  rw [← length]
  rfl

end Machine

/-! ## The flushes of a rotation -/

/-- Flush memtables in order, up to the first flush that returns an error: the
memtables flushed before it, and the memtable whose flush failed. -/
def Platform.failedFlush (platform : Platform World Table) (config : Config) :
    List MemTable → World → Option (List MemTable × MemTable)
  | [], _ => none
  | memtable :: waiting, world =>
      match platform.flushTable config memtable world with
      | .ok _ reached =>
          (platform.failedFlush config waiting reached).map fun failure =>
            (memtable :: failure.1, failure.2)
      | .error (.error _) _ => some ([], memtable)
      | .error .panic _ => none

namespace StorageEngine

/-- The memtables beyond `max_memtables`, oldest first. -/
def excess (engine : StorageEngine Table) : List MemTable :=
  engine.immutableMemtables.take
    (engine.immutableMemtables.length - engine.config.maxMemtables)

theorem excess_cons {engine : StorageEngine Table} {oldest : MemTable}
    {rest : List MemTable} (listed : engine.immutableMemtables = oldest :: rest)
    (full : engine.config.maxMemtables < rest.length + 1) :
    engine.excess = oldest :: rest.take (rest.length - engine.config.maxMemtables) := by
  rw [excess, listed, List.length_cons, Nat.sub_add_comm (by omega), List.take_succ_cons]

/-- Turning the oldest memtable into a table keeps every read as it was. -/
theorem readsAlike_flushOldest {ops : TableOps Table} {engine : StorageEngine Table}
    {oldest : MemTable} {rest : List MemTable} {made : Option Table}
    (listed : engine.immutableMemtables = oldest :: rest)
    (below : ∀ key, ((engine.setImmutable rest).install made).searchTables ops key =
      Layered.orElse (.ok (oldest.get key)) (engine.searchTables ops key)) :
    engine.ReadsAlike ops ((engine.setImmutable rest).install made) where
  config := by simp
  closed := by simp
  search := by
    intro key
    have split : engine.memtables = engine.memtable :: rest.reverse ++ [oldest] := by
      simp [memtables, listed]
    rw [search_eq, search_eq, below, split, List.findSome?_append, ← Layered.orElse_ok_ok,
      Layered.orElse_assoc]
    simp [memtables]

/-- What is left of an engine when a flush has failed: the memtables flushed before
it are tables, the newer ones are still listed, the one in between is gone. -/
structure AfterLoss (ops : TableOps Table) (before : StorageEngine Table)
    (flushed newer : List MemTable) (after : StorageEngine Table) : Prop where
  config : after.config = before.config
  closed : after.closed = before.closed
  memtables : after.memtables = before.memtable :: newer.reverse
  tables : ∀ key, after.searchTables ops key =
    Layered.orElse (.ok (flushed.reverse.findSome? fun memtable => memtable.get key))
      (before.searchTables ops key)

theorem AfterLoss.flushOldest {ops : TableOps Table} {engine after : StorageEngine Table}
    {oldest : MemTable} {rest flushed newer : List MemTable} {made : Option Table}
    (left : ((engine.setImmutable rest).install made).AfterLoss ops flushed newer after)
    (below : ∀ key, ((engine.setImmutable rest).install made).searchTables ops key =
      Layered.orElse (.ok (oldest.get key)) (engine.searchTables ops key)) :
    engine.AfterLoss ops (oldest :: flushed) newer after where
  config := by simpa using left.config
  closed := by simpa using left.closed
  memtables := by simpa using left.memtables
  tables := by
    intro key
    rw [left.tables, below, List.reverse_cons, List.findSome?_append, ← Layered.orElse_ok_ok,
      Layered.orElse_assoc]
    simp

end StorageEngine

namespace Machine

/-- One turn of the loop of `rotate_memtable`. -/
theorem flushExcess_succ (platform : Platform World Table) (fuel : Nat)
    {machine : Machine World Table} {oldest : MemTable} {rest : List MemTable}
    (listed : machine.engine.immutableMemtables = oldest :: rest) :
    flushExcess platform (fuel + 1) machine =
      if machine.engine.config.maxMemtables < rest.length + 1 then
        match platform.flushTable machine.engine.config oldest machine.world with
        | .ok made world =>
            flushExcess platform fuel
              { engine := (machine.engine.setImmutable rest).install made, world }
        | .error fault world =>
            .error fault { engine := machine.engine.setImmutable rest, world }
      else .ok () machine := by
  rw [flushExcess, bind_eq, get_apply]
  simp only [listed, gt_iff_lt]
  split
  · simp only [bind_eq, onEngine_apply, flushMemtable_apply, StorageEngine.config_setImmutable]
    cases platform.flushTable machine.engine.config oldest machine.world <;> rfl
  · rfl

/-- What the flushes of a rotation leave behind.  When they succeed, every read is
as before.  When one fails, its memtable is gone from the stack: the older ones
are tables by then, the newer ones still wait. -/
theorem flushExcess_spec {platform : Platform World Table} (faithful : platform.Faithful)
    (immutable : List MemTable) (machine : Machine World Table)
    (listed : machine.engine.immutableMemtables = immutable)
    (leveled : 0 < machine.engine.config.maxLevels) :
    match flushExcess platform immutable.length machine with
    | .ok _ reached =>
        platform.failedFlush machine.engine.config machine.engine.excess machine.world = none ∧
        reached.engine.memtable = machine.engine.memtable ∧
        machine.engine.ReadsAlike platform.toTableOps reached.engine
    | .error (.error _) reached => ∃ flushed lost newer,
        platform.failedFlush machine.engine.config machine.engine.excess machine.world =
          some (flushed, lost) ∧
        immutable = flushed ++ lost :: newer ∧
        machine.engine.AfterLoss platform.toTableOps flushed newer reached.engine
    | .error .panic _ =>
        platform.failedFlush machine.engine.config machine.engine.excess machine.world = none := by
  induction immutable generalizing machine with
  | nil =>
      have excess : machine.engine.excess = [] := by
        simp [StorageEngine.excess, listed]
      rw [excess]
      exact ⟨rfl, rfl, .refl _ _⟩
  | cons oldest rest ih =>
      rw [List.length_cons, flushExcess_succ platform _ listed]
      by_cases full : machine.engine.config.maxMemtables < rest.length + 1
      · rw [if_pos full, StorageEngine.excess_cons listed full, Platform.failedFlush]
        cases flushed : platform.flushTable machine.engine.config oldest machine.world with
        | ok made world =>
            have below := StorageEngine.searchTables_install faithful
              (machine.engine.setImmutable rest) leveled flushed
            have later := ih
              { engine := (machine.engine.setImmutable rest).install made, world }
              (by simp) (by simpa using leveled)
            simp only [StorageEngine.excess, StorageEngine.config_install,
              StorageEngine.immutableMemtables_install,
              StorageEngine.immutableMemtables_setImmutable,
              StorageEngine.config_setImmutable] at later ⊢
            revert later
            cases flushExcess platform rest.length
              { engine := (machine.engine.setImmutable rest).install made, world } with
            | ok _ reached =>
                rintro ⟨none, memtable, alike⟩
                refine ⟨by rw [none]; rfl, by simpa using memtable, .trans ?_ alike⟩
                exact StorageEngine.readsAlike_flushOldest listed below
            | error fault reached =>
                cases fault with
                | panic =>
                    intro none
                    simp only [none, Option.map_none]
                | error failure =>
                    rintro ⟨flushed, lost, newer, failed, split, left⟩
                    exact ⟨oldest :: flushed, lost, newer, by rw [failed]; rfl,
                      by rw [split]; rfl, left.flushOldest below⟩
        | error fault world =>
            cases fault with
            | panic => rfl
            | error failure =>
                exact ⟨[], oldest, rest, rfl, rfl, rfl, rfl, rfl, fun key => rfl⟩
      · rw [if_neg full]
        have excess : machine.engine.excess = [] := by
          rw [StorageEngine.excess, listed, List.length_cons, Nat.sub_eq_zero_of_le (by omega),
            List.take_zero]
        rw [excess]
        exact ⟨rfl, rfl, .refl _ _⟩

/-- Room is made by a rotation with its flushes, or there is room already. -/
theorem checkRotateMemtable_apply (platform : Platform World Table)
    (machine : Machine World Table) :
    checkRotateMemtable platform machine =
      if machine.engine.memtable.shouldFlush then
        flushExcess platform (machine.engine.immutableMemtables.length + 1)
          { machine with engine := machine.engine.rotated }
      else .ok () machine := by
  simp only [checkRotateMemtable, bind_eq, get_apply]
  by_cases full : machine.engine.memtable.shouldFlush = true
  · rw [if_pos full, if_pos full, rotateMemtable_apply]
  · rw [if_neg full, if_neg full, pure_apply]

/-- What making room leaves behind: a state that reads alike, or a memtable lost by
the rotation. -/
theorem checkRotateMemtable_spec {platform : Platform World Table}
    (faithful : platform.Faithful) {machine : Machine World Table}
    (leveled : 0 < machine.engine.config.maxLevels) :
    match checkRotateMemtable platform machine with
    | .ok _ reached =>
        (machine.engine.memtable.shouldFlush = true →
          platform.failedFlush machine.engine.config machine.engine.rotated.excess
            machine.world = none) ∧
        machine.engine.ReadsAlike platform.toTableOps reached.engine
    | .error (.error _) reached => machine.engine.memtable.shouldFlush = true ∧
        ∃ flushed lost newer,
          platform.failedFlush machine.engine.config machine.engine.rotated.excess
            machine.world = some (flushed, lost) ∧
          machine.engine.rotated.immutableMemtables = flushed ++ lost :: newer ∧
          machine.engine.rotated.AfterLoss platform.toTableOps flushed newer reached.engine
    | .error .panic _ => machine.engine.memtable.shouldFlush = true ∧
        platform.failedFlush machine.engine.config machine.engine.rotated.excess
          machine.world = none := by
  rw [checkRotateMemtable_apply]
  by_cases full : machine.engine.memtable.shouldFlush = true
  · rw [if_pos full]
    have spec := flushExcess_spec faithful machine.engine.rotated.immutableMemtables
      { machine with engine := machine.engine.rotated } rfl leveled
    rw [show machine.engine.rotated.immutableMemtables.length =
      machine.engine.immutableMemtables.length + 1 by simp [StorageEngine.rotated]] at spec
    revert spec
    cases flushExcess platform (machine.engine.immutableMemtables.length + 1)
      { machine with engine := machine.engine.rotated } with
    | ok _ reached =>
        rintro ⟨none, -, alike⟩
        exact ⟨fun _ => none, (StorageEngine.readsAlike_rotated _ _).trans alike⟩
    | error fault reached =>
        cases fault with
        | panic => exact fun none => ⟨full, none⟩
        | error failure => exact fun lost => ⟨full, lost⟩
  · rw [if_neg full]
    exact ⟨fun rotates => absurd rotates full, .refl _ _⟩

end Machine

end JustDb

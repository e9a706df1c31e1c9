import JustDb.Storage.CrashRecovery

/-!
# Recovery after a crash of a shutdown

`close` flushes the immutable memtables from the oldest on and then the current one.
Where no file operation fails, a process that dies in between leaves the first so many of
the writes, and one that does not leaves them all.  A flush that fails is only reported,
so a file operation that fails can lose writes in the middle.
-/

namespace JustDb

open Stateful Machine

namespace Directory

open MemoryTable

variable {host : Host} {config : Config} {directory : Directory}
  {opened : Machine Directory MemoryTable}

/-- The memtables that `close` flushes, oldest first. -/
def closing (engine : StorageEngine MemoryTable) : List MemTable :=
  engine.immutableMemtables ++ [engine.memtable.makeImmutable]

/-- An empty current memtable needs no flush, and its flush would do nothing. -/
theorem close_apply {machine : Machine Directory MemoryTable}
    (running : machine.engine.closed = false) :
    close (platform host) machine =
      ((closing machine.engine).forM fun memtable =>
          reportError (flushMemtable (platform host) memtable))
        { machine with
          engine := { machine.engine with closed := true, immutableMemtables := [] } } := by
  have last : (if machine.engine.memtable.count > 0 then
        reportError (flushMemtable (platform host) machine.engine.memtable.makeImmutable)
      else pure ()) =
      reportError (flushMemtable (platform host) machine.engine.memtable.makeImmutable) := by
    split
    · rfl
    next empty =>
      refine funext fun machine' => ?_
      have nothing : machine.engine.memtable.makeImmutable.count = 0 := Nat.eq_zero_of_not_pos empty
      rw [reportError, flushMemtable_apply, Platform.flushTable, if_pos nothing]
      rfl
  have single : ([machine.engine.memtable.makeImmutable].forM fun memtable =>
      reportError (flushMemtable (platform host) memtable)) =
      reportError (flushMemtable (platform host) machine.engine.memtable.makeImmutable) :=
    bind_pure_unit
  rw [close, bind_of_ok (get_apply machine), running, closing, forM_append, single]
  dsimp only
  rw [last, if_neg Bool.false_ne_true]
  rfl

theorem attempt_of_reliable (directory : Directory)
    (reliable : Outcome.failed ∉ directory.outcomes) :
    (∃ outcomes, attempt directory = .ok () { directory with outcomes } ∧
        Outcome.failed ∉ outcomes) ∨ ∃ reached, attempt directory = .error .panic reached := by
  obtain ⟨files, ticks, outcomes⟩ := directory
  cases outcomes with
  | nil => exact .inl ⟨[], rfl, reliable⟩
  | cons outcome outcomes =>
      obtain ⟨other, rest⟩ := not_or.mp fun either => reliable (List.mem_cons.mpr either)
      cases outcome with
      | done => exact .inl ⟨outcomes, rfl, rest⟩
      | failed => exact absurd rfl other
      | crashed => exact .inr ⟨_, rfl⟩

/-- A file that is there opens, unless the process dies. -/
theorem openTable_of_reliable {directory : Directory} {table : MemoryTable} (mapped : Bool)
    (reliable : Outcome.failed ∉ directory.outcomes)
    (found : directory.find table.path = some table) :
    (∃ reached, openTable table.path mapped directory = .ok table reached ∧
        Outcome.failed ∉ reached.outcomes) ∨
      ∃ reached, openTable table.path mapped directory = .error .panic reached := by
  rcases attempt_of_reliable directory reliable with
    ⟨outcomes, attempted, left⟩ | ⟨reached, attempted⟩
  · have found : ({ directory with outcomes } : Directory).find table.path = some table := found
    refine .inl ⟨{ directory with outcomes }, ?_, left⟩
    rw [openTable, bind_of_ok attempted, bind_of_ok (get_apply _), found]
    rfl
  · exact .inr ⟨reached, bind_of_error attempted⟩

theorem makeTable_of_reliable (config : Config) (path : FileName) (entries : List Entry) :
    Ensures (fun directory : Directory => Outcome.failed ∉ directory.outcomes)
      (fun fault _ => fault = .panic) ((platform host).makeTable config path entries) := by
  intro directory reliable
  rcases attempt_of_reliable { directory with ticks := directory.ticks + 1 } reliable with
    ⟨outcomes, attempted, left⟩ | ⟨reached, attempted⟩
  · let table := built host path entries directory
    let stored : Directory :=
      { files := table :: directory.files.filter fun file => file.path ≠ table.path
        ticks := directory.ticks + 1, outcomes }
    have found : stored.find table.path = some table := List.find?_cons_of_pos (decide_eq_true rfl)
    have building : (platform host).buildFromVec config path entries directory =
        .ok table.metadata stored := by
      rw [buildFromVec_eq, bind_of_ok attempted]
      rfl
    rw [Platform.makeTable, bind_of_ok building]
    rcases openTable_of_reliable config.useMmap left found with
      ⟨reached, opened, rest⟩ | ⟨reached, opened⟩
    · have opened : (platform host).openTable path config.useMmap stored =
        .ok table reached := opened
      rw [opened]
      exact rest
    · have opened : (platform host).openTable path config.useMmap stored =
        .error .panic reached := opened
      rw [opened]
  · have building : (platform host).buildFromVec config path entries directory =
        .error .panic reached := by
      rw [buildFromVec_eq, bind_of_error attempted]
    rw [Platform.makeTable, bind_of_error building]

/-- Where no file operation fails, a flush stops only because the process dies. -/
theorem flushTable_of_reliable (host : Host) (config : Config) (memtable : MemTable) :
    Ensures (fun directory : Directory => Outcome.failed ∉ directory.outcomes)
      (fun fault _ => fault = .panic) ((platform host).flushTable config memtable) := by
  rw [Platform.flushTable]
  exact (ensures_pure _).ite (Ensures.bind (fun _ reliable => reliable) fun micros =>
    (makeTable_of_reliable config _ _).bind fun reader => ensures_pure _)

/-- The memtables that `close` flushes come to be recoverable, in their order. -/
theorem Recoverable.flushAll {base : List MemoryTable} {writes : List Write}
    {memtables : List MemTable} {recents : List (List Write)}
    {machine : Machine Directory MemoryTable}
    (recoverable : Recoverable base writes machine.world.files)
    (records : List.Forall₂ MemTable.Records memtables recents)
    (reliable : Outcome.failed ∉ machine.world.outcomes)
    (onTime : OnTime host machine memtables) :
    match (memtables.forM fun memtable =>
        reportError (flushMemtable (platform host) memtable)) machine with
    | .ok _ reached => Recoverable base (writes ++ recents.flatten) reached.world.files
    | .error _ reached => ∃ moved, moved <+: recents.flatten ∧
        Recoverable base (writes ++ moved) reached.world.files := by
  induction records generalizing machine writes with
  | nil =>
      rw [List.flatten_nil, List.append_nil]
      exact recoverable
  | @cons memtable recent memtables recents first _ ih =>
      have flushing := recoverable.flushTable machine.engine.config first onTime.1
      have safe := flushTable_of_reliable host machine.engine.config memtable
        machine.world reliable
      have ahead := onTime.2
      rw [afterFlush] at ahead
      rw [forM_cons, List.flatten_cons]
      cases ran : (platform host).flushTable machine.engine.config memtable machine.world with
      | ok made world =>
          have stepped : reportError (flushMemtable (platform host) memtable) machine =
              .ok () { engine := machine.engine.install made, world } := by
            rw [reportError, flushMemtable_apply, ran]
          rw [ran] at flushing safe ahead
          rw [bind_of_ok stepped]
          have rest : OnTime host { engine := machine.engine.install made, world } memtables := by
            rwa [OnTime, StorageEngine.config_install]
          have later := ih flushing safe rest
          generalize (memtables.forM fun memtable =>
            reportError (flushMemtable (platform host) memtable))
              { engine := machine.engine.install made, world } = result at later ⊢
          cases result with
          | ok _ reached =>
              rw [← List.append_assoc]
              exact later
          | error fault reached =>
              obtain ⟨moved, oldest, left⟩ := later
              exact ⟨recent ++ moved, (List.prefix_append_right_inj recent).mpr oldest,
                by rwa [← List.append_assoc]⟩
      | error fault world =>
          rw [ran] at flushing safe
          cases safe
          have stepped : reportError (flushMemtable (platform host) memtable) machine =
              .error .panic { machine with world } := by
            rw [reportError, flushMemtable_apply, ran]
          rw [bind_of_error stepped]
          rcases flushing with same | more
          · exact ⟨[], List.nil_prefix, by rwa [List.append_nil]⟩
          · exact ⟨recent, List.prefix_append _ _, more⟩

/-- `close` makes what is in memory recoverable, from the oldest write on. -/
theorem Logged.close {base : List MemoryTable} {flushed pending : List Write}
    {machine : Machine Directory MemoryTable} (logged : Logged base flushed pending machine)
    (reliable : Outcome.failed ∉ machine.world.outcomes)
    (onTime : OnTime host machine (closing machine.engine)) :
    match close (platform host) machine with
    | .ok _ reached => Recoverable base (flushed ++ pending) reached.world.files
    | .error _ reached => ∃ moved, moved <+: pending ∧
        Recoverable base (flushed ++ moved) reached.world.files := by
  obtain ⟨older, current, rfl, stacked⟩ := logged
  have records : List.Forall₂ MemTable.Records (closing machine.engine) (older ++ [current]) :=
    List.rel_append stacked.waiting (.cons stacked.newest .nil)
  have joined : (older ++ [current]).flatten = older.flatten ++ current := by simp
  rw [close_apply stacked.running, ← joined]
  exact Recoverable.flushAll stacked.files records reliable onTime

theorem stable_reliable (host : Host) :
    Stable (platform host) fun machine => Outcome.failed ∉ machine.world.outcomes where
  clock := fun _ reliable => reliable
  flush := by
    intro memtable machine reliable
    have safe := flushTable_of_reliable host machine.engine.config memtable
      machine.world reliable
    rw [flushMemtable_apply]
    cases ran : (platform host).flushTable machine.engine.config memtable machine.world with
    | ok made world =>
        rw [ran] at safe
        exact safe
    | error fault world =>
        rw [ran] at safe
        exact fun alive => absurd safe alive
  engine := fun _ _ _ _ reliable => reliable

/-- An engine is opened on a directory, takes writes until one of them fails, and is closed.
No file operation fails, but the process may die during any of them.  Then a prefix of the
writes is recoverable, and all of them if `close` has returned. -/
theorem exists_recoverable_closed {writes : List Write} (dated : Dated directory.files)
    (reliable : Outcome.failed ∉ directory.outcomes)
    (opening : openEngine (platform host) config directory = .ok () opened)
    (timely : Runs.Guarded (Timely host) (WriteBehind.after (Write.run (platform host))) opened
      writes)
    (onTime : OnTime host (final (Write.runAll (platform host) writes opened))
      (closing (final (Write.runAll (platform host) writes opened)).engine)) :
    ∃ recovered, recovered <+: writes ∧
      (succeeded ((do Write.runAll (platform host) writes; close (platform host)) opened) = true →
        recovered = writes) ∧
      Recoverable directory.files recovered
        (final ((do Write.runAll (platform host) writes; close (platform host)) opened)).world.files
    := by
  have start := logged_of_openEngine dated opening
  have suffix := (openEngine_eq_ok opening).2.2.2.2.2
  cases ran : Write.runAll (platform host) writes opened with
  | error fault reached =>
      obtain ⟨recovered, first, recoverable, -⟩ :=
        (recorder host directory.files).stopped start timely
      have stopped : final (writes.forM (Write.run (platform host)) opened) = reached :=
        congrArg final ran
      rw [stopped, List.nil_append] at recoverable
      rw [bind_of_error ran]
      exact ⟨recovered, first, Bool.noConfusion, recoverable⟩
  | ok _ before =>
      obtain ⟨moved, left, split, logged⟩ := (recorder host directory.files).run start timely ran
      rw [ran] at onTime
      have calm : Outcome.failed ∉ before.world.outcomes :=
        (Ensures.forM fun write _ => (stable_reliable host).run write).of_ok
          (fun failed => reliable (suffix.subset failed)) ran
      have closed := logged.close calm onTime
      rw [List.nil_append] at split closed
      rw [bind_of_ok ran]
      generalize close (platform host) before = result at closed ⊢
      cases result with
      | ok _ reached =>
          rw [← split] at closed
          exact ⟨writes, List.prefix_rfl, fun _ => rfl, closed⟩
      | error fault reached =>
          obtain ⟨more, oldest, recoverable⟩ := closed
          refine ⟨moved ++ more, ?_, Bool.noConfusion, recoverable⟩
          rw [split]
          exact (List.prefix_append_right_inj moved).mpr oldest

end Directory

end JustDb

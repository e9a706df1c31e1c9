import JustDb.Storage.Disk
import JustDb.Storage.Invariants
import JustDb.Storage.ReadYourWrites

/-!
# Clean shutdown

An engine is opened on an empty directory, takes writes, is closed and is opened
again.  No table file that a flush leaves can be opened, flushes that fail while
the engine closes are only reported, and loading skips files that do not open.
So the second engine starts empty: of all that was written, only deletes survive.
-/

namespace JustDb

open Stateful Machine

variable {World Table : Type}

/-! ## Disks on which no file opens -/

namespace Disk

variable {external : External} {host : Host}

/-- No file of the directory can be opened. -/
def Illegible (disk : Disk) : Prop :=
  ∀ file ∈ disk.files, Unreadable file.2

/-- Opening a table of such a directory fails and changes nothing. -/
theorem Illegible.openTable {disk : Disk} (illegible : disk.Illegible) (path : FileName)
    (mapped : Bool) : ∃ fault, Disk.openTable path mapped disk = .error fault disk := by
  rw [Disk.openTable, bind_of_ok (get_apply disk)]
  cases found : disk.find path with
  | none => exact ⟨_, rfl⟩
  | some contents =>
      obtain ⟨file, held, rfl⟩ := Option.map_eq_some_iff.mp found
      have unreadable := illegible file (List.mem_of_find?_eq_some held)
      cases opened : SSTableReader.openFile path file.2 mapped with
      | error fault => exact ⟨fault, lift_eq_error.mpr ⟨opened, rfl⟩⟩
      | ok reader => exact absurd opened (unreadable path mapped reader)

/-- A build leaves a file that cannot be opened, unless it panics. -/
theorem upholds_buildFromVec (legible : Bytes → Prop)
    (vacuous : ∀ contents, Unreadable contents → legible contents)
    (compresses : external.ZstdCompresses) (config : Config) (path : FileName)
    {entries : List Entry} (nonempty : entries ≠ []) (ascending : Ascending entries) :
    Upholds (fun disk => ∀ file ∈ disk.files, legible file.2)
      (buildFromVec external host config path entries) := by
  intro disk before
  have stored : ∀ {contents}, Unreadable contents →
      ∀ file ∈ ((disk.readClock host).2.store path contents).files, legible file.2 := by
    intro contents unreadable file member
    rcases List.mem_cons.mp member with rfl | kept
    · exact vacuous _ unreadable
    · exact before file (List.mem_filter.mp kept).1
  simp only [buildFromVec]
  cases ran : config.builder.buildFromVec external (disk.readClock host).1.toUInt64 entries
      { output := .reliable } with
  | ok metadata sink => exact stored (SSTableBuilder.unreadable_of_buildFromVec nonempty ran)
  | error fault sink =>
      exact fun notPanic => absurd (SSTableBuilder.panic_of_buildFromVec compresses ascending ran)
        notPanic

theorem upholds_openTable (path : FileName) (mapped : Bool) :
    Upholds Illegible (Disk.openTable path mapped) := by
  intro disk illegible
  obtain ⟨fault, failed⟩ := illegible.openTable path mapped
  rw [failed]
  exact fun _ => illegible

/-- Whatever the engine flushes, no file of the directory comes to be one that opens. -/
theorem upholds_flushTable (compresses : external.ZstdCompresses) (host : Host)
    (config : Config) (memtable : MemTable) :
    Upholds Illegible ((platform external host).flushTable config memtable) := by
  rw [Platform.flushTable]
  split
  · exact ensures_pure none
  next some =>
    have ticking : Upholds Illegible (platform external host).currentMicros :=
      fun _ illegible => illegible
    refine ticking.bind fun micros => Ensures.bind ?_ fun reader => ensures_pure _
    exact (upholds_buildFromVec Unreadable (fun _ => id) compresses config _
      (MemTable.entryList_ne_nil some) memtable.entryList_ascending).bind
        fun _ => upholds_openTable _ _

/-- A table that was just built does not open. -/
theorem makeTable_ne_ok {config : Config} {path : FileName} {entries : List Entry}
    {disk reached : Disk} {reader : SSTableReader} (nonempty : entries ≠ []) :
    (platform external host).makeTable config path entries disk ≠ .ok reader reached := by
  intro ran
  obtain ⟨metadata, written, building, opening⟩ := bind_eq_ok.mp ran
  change buildFromVec external host config path entries disk = .ok metadata written at building
  change openTable path config.useMmap written = .ok reader reached at opening
  obtain ⟨createdAt, sink, built, found⟩ := buildFromVec_eq_ok building
  rw [openTable, bind_of_ok (get_apply _), found] at opening
  exact SSTableBuilder.unreadable_of_buildFromVec nonempty built _ _ _ (lift_eq_ok.mp opening).1

/-- No flush of the engine adds a table, so reads never ask one. -/
theorem platform_faithful (external : External) (host : Host) :
    (platform external host).Faithful :=
  fun _ _ _ _ _ _ nonempty _ ran => absurd ran (makeTable_ne_ok nonempty)

/-- A flush that returns `Ok` had nothing to write. -/
theorem flushTable_eq_ok {config : Config} {memtable : MemTable} {disk reached : Disk}
    {made : Option SSTableReader}
    (ran : (platform external host).flushTable config memtable disk = .ok made reached) :
    made = none := by
  rw [Platform.flushTable] at ran
  split at ran
  · cases ran
    rfl
  next some =>
    obtain ⟨micros, ticked, _, making⟩ := bind_eq_ok.mp ran
    obtain ⟨reader, _, opened, _⟩ := bind_eq_ok.mp making
    exact absurd opened (makeTable_ne_ok (MemTable.entryList_ne_nil some))

/-- An engine without tables, on a directory where none can be opened. -/
structure Barren (config : Config) (machine : Machine Disk SSTableReader) : Prop where
  illegible : machine.world.Illegible
  config : machine.engine.config = config
  sstables : machine.engine.sstables = fun _ => none

theorem stable_barren (compresses : external.ZstdCompresses) (host : Host) (config : Config) :
    Stable (platform external host) (Barren config) where
  clock := fun _ barren => ⟨barren.illegible, barren.config, barren.sstables⟩
  flush := by
    intro memtable machine barren
    have kept := upholds_flushTable compresses host machine.engine.config memtable machine.world
      barren.illegible
    rw [flushMemtable_apply]
    cases ran : (platform external host).flushTable machine.engine.config memtable
        machine.world with
    | ok made world =>
        rw [ran] at kept
        rw [flushTable_eq_ok ran]
        exact ⟨kept, barren.config, barren.sstables⟩
    | error fault world =>
        rw [ran] at kept
        exact fun error => ⟨kept error, barren.config, barren.sstables⟩
  engine := fun _ _ config sstables barren =>
    ⟨barren.illegible, config.trans barren.config, sstables.trans barren.sstables⟩

/-- Without tables there is nothing to compact. -/
theorem Barren.backgroundCompaction {config : Config} {machine : Machine Disk SSTableReader}
    (barren : Barren config machine) (valid : config.validate = .ok ()) :
    Machine.backgroundCompaction (platform external host) machine = .ok () machine := by
  have few : ¬ (machine.engine.tables 0).length ≥ machine.engine.config.l0CompactionThreshold := by
    rw [StorageEngine.tables, barren.sstables, barren.config]
    exact not_le.mpr (Config.l0CompactionThreshold_pos valid)
  have needless : ∀ level, machine.engine.levelNeedsCompaction (SSTableReader.ops external) level =
      .ok false := by
    intro level
    rw [StorageEngine.levelNeedsCompaction, barren.sstables]
  have idle : runCompaction (platform external host) machine = .ok () machine := by
    rw [runCompaction, bind_of_ok (get_apply machine)]
    dsimp only
    rw [if_neg few]
    refine forM_of_unchanged (fun level => ?_) _
    rw [bind_of_ok (get_apply machine)]
    exact bind_of_ok (lift_eq_ok.mpr ⟨needless level, rfl⟩)
  rw [Machine.backgroundCompaction, bind_of_ok (get_apply machine)]
  split
  · rw [reportError, idle]
  · rfl

/-! ## Opening an engine on such a disk -/

variable {disk : Disk}

/-- Loading skips a file that does not open. -/
theorem loadFile_eq_ok {found next : List (Nat × SSTableReader)} {name : FileName}
    {machine reached : Machine Disk SSTableReader} (illegible : machine.world.Illegible)
    (ran : loadFile (platform external host) found name machine = .ok next reached) :
    next = found ∧ reached = machine := by
  obtain ⟨fault, failed⟩ := illegible.openTable name machine.engine.config.useMmap
  have opening : onWorld ((platform external host).openTable name machine.engine.config.useMmap)
      machine = .error fault machine := by
    rw [onWorld_eq_error]
    exact ⟨machine.world, failed, rfl⟩
  rw [loadFile] at ran
  split at ran
  · split at ran
    · cases ran
      exact ⟨rfl, rfl⟩
    · rw [opening] at ran
      cases fault with
      | error failure =>
          cases ran
          exact ⟨rfl, rfl⟩
      | panic => cases ran
  · cases ran
    exact ⟨rfl, rfl⟩

/-- Loading a directory of such files finds no table. -/
theorem foldlM_loadFile_eq_ok {names : List FileName} {found next : List (Nat × SSTableReader)}
    {machine reached : Machine Disk SSTableReader} (illegible : machine.world.Illegible)
    (ran : names.foldlM (loadFile (platform external host)) found machine = .ok next reached) :
    next = found ∧ reached = machine := by
  induction names generalizing found with
  | nil =>
      cases ran
      exact ⟨rfl, rfl⟩
  | cons name names ih =>
      rw [List.foldlM_cons] at ran
      obtain ⟨between, middle, loaded, rest⟩ := bind_eq_ok.mp ran
      obtain ⟨rfl, rfl⟩ := loadFile_eq_ok illegible loaded
      exact ih rest

/-- An engine opened on such a directory starts without tables. -/
theorem openEngine_eq_ok {config : Config} {reached : Machine Disk SSTableReader}
    (illegible : disk.Illegible)
    (ran : openEngine (platform external host) config disk = .ok () reached) :
    config.validate = .ok () ∧ reached = { engine := .fresh config, world := disk } := by
  unfold openEngine at ran
  split at ran
  · cases ran
  next valid =>
    refine ⟨valid, ?_⟩
    obtain ⟨names, listed, listing, loading⟩ := bind_eq_ok.mp ran
    cases listing
    obtain ⟨found, loaded, folding, setting⟩ := bind_eq_ok.mp loading
    obtain ⟨rfl, rfl⟩ := foldlM_loadFile_eq_ok illegible folding
    cases setting
    rfl

end Disk

/-! ## From one engine to the next -/

namespace StorageEngine

/-- An engine without entries and tables finds nothing. -/
theorem get_fresh (ops : TableOps Table) (config : Config) (key : Key) :
    (fresh config).get ops key = .ok none := by
  have held : (fresh config : StorageEngine Table).memtables.findSome?
      (fun memtable => memtable.get key) = none := by
    simp [memtables, fresh]
  have levels : ∀ level ∈ List.range config.maxLevels,
      (fresh config).lookupLevel ops key level = .ok none := by
    intro level _
    rw [lookupLevel]
    split <;> rfl
  have tables : (fresh config).searchTables ops key = .ok none :=
    (Layered.first_map_of_ok levels).trans (by simp)
  rw [get_eq rfl, search_eq, held, tables]
  rfl

end StorageEngine

namespace Disk

variable {external : External} {host : Host} {config : Config}

theorem barren_fresh {disk : Disk} (illegible : disk.Illegible) (config : Config) :
    Barren config { engine := .fresh config, world := disk } :=
  ⟨illegible, rfl, rfl⟩

/-- The background task changes nothing, so a run of steps is the run of its writes, and
leaves the engine barren. -/
theorem Barren.runAll {steps : List Step} {machine reached : Machine Disk SSTableReader}
    (barren : Barren config machine) (valid : config.validate = .ok ())
    (compresses : external.ZstdCompresses)
    (ran : Step.runAll (platform external host) steps machine = .ok () reached) :
    Write.runAll (platform external host) (Step.writes steps) machine = .ok () reached ∧
      Barren config reached := by
  induction steps generalizing machine with
  | nil =>
      cases ran
      exact ⟨rfl, barren⟩
  | cons step steps ih =>
      obtain ⟨⟨⟩, middle, stepped, rest⟩ := bind_eq_ok.mp ran
      cases step with
      | background =>
          cases (barren.backgroundCompaction valid).symm.trans stepped
          exact ih barren rest
      | write call =>
          have kept := ((stable_barren compresses host config).run call).of_ok barren stepped
          obtain ⟨later, left⟩ := ih kept rest
          exact ⟨(bind_of_ok stepped).trans later, left⟩

end Disk

namespace Machine

/-- An engine is opened, takes writes that all return `Ok`, with turns of the background
task between them, is closed, and is opened again with the same configuration.
`before` is the state just before `close`. -/
structure CleanShutdown (platform : Platform World Table) (config : Config) (world : World)
    (steps : List Step) (before reopened : Machine World Table) : Prop where
  ran : ∃ opened, openEngine platform config world = .ok () opened ∧
    Step.runAll platform steps opened = .ok () before
  restarted : ∃ closed, close platform before = .ok () closed ∧
    openEngine platform config closed.world = .ok () reopened

/-- What reads return before a clean shutdown and after it. -/
theorem CleanShutdown.reads {external : External} {host : Host} {config : Config} {disk : Disk}
    {steps : List Step} {before reopened : Machine Disk SSTableReader}
    (compresses : external.ZstdCompresses) (empty : disk.files = [])
    (shutdown : CleanShutdown (Disk.platform external host) config disk steps before reopened)
    (key : Key) :
    before.engine.get (SSTableReader.ops external) key =
        .ok ((Write.last (Step.writes steps) key).bind Write.value) ∧
      reopened.engine.get (SSTableReader.ops external) key = .ok none := by
  obtain ⟨opened, opening, ran⟩ := shutdown.ran
  obtain ⟨closed, closing, reopening⟩ := shutdown.restarted
  have start : disk.Illegible := by
    intro file member
    rw [empty] at member
    cases member
  obtain ⟨valid, rfl⟩ := Disk.openEngine_eq_ok start opening
  obtain ⟨wrote, barren⟩ := (Disk.barren_fresh start config).runAll valid compresses ran
  have shut := (Disk.stable_barren compresses host config).close.of_ok barren closing
  obtain ⟨_, rfl⟩ := Disk.openEngine_eq_ok shut.illegible reopening
  refine ⟨?_, StorageEngine.get_fresh _ _ _⟩
  have reads := (Write.reads_runAll (Disk.platform_faithful external host)
    (Config.maxLevels_pos valid) wrote).2 key
  refine reads.trans ?_
  cases Write.last (Step.writes steps) key with
  | some write => rfl
  | none => exact StorageEngine.get_fresh _ _ _

end Machine

namespace Write

/-- Every key reads after a clean shutdown as it did before, exactly when the last write
to each key is a delete. -/
theorem survives_iff {external : External} {host : Host} {config : Config} {disk : Disk}
    {steps : List Step} {before reopened : Machine Disk SSTableReader}
    (compresses : external.ZstdCompresses) (empty : disk.files = [])
    (shutdown : CleanShutdown (Disk.platform external host) config disk steps before reopened) :
    (∀ key, reopened.engine.get (SSTableReader.ops external) key =
        before.engine.get (SSTableReader.ops external) key) ↔
      ∀ key write, last (Step.writes steps) key = some write → write.value = none := by
  refine forall_congr' fun key => ?_
  obtain ⟨earlier, later⟩ := shutdown.reads compresses empty key
  rw [earlier, later]
  cases last (Step.writes steps) key with
  | none => simp
  | some write => simp [eq_comm]

/-- A machine whose clock stands still. -/
private def stillHost : Host where
  clock _ := 1000000
  order := id
  lists _ := .rfl

private abbrev plainDisk : Platform Disk SSTableReader :=
  Disk.platform .plain stillHost

/-- A key that is put and deleted, with a turn of the background task in between. -/
private def deletedKey : List Step :=
  [.write (.put [1] [10]), .background, .write (.delete [1])]

private def onePut : List Step :=
  [.write (.put [1] [10])]

/-- The state after some steps on an empty directory. -/
private def stateAfter (steps : List Step) : Machine Disk SSTableReader :=
  final (Step.runAll plainDisk steps (final (openEngine plainDisk {} { files := [], ticks := 0 })))

/-- The state after closing and opening again. -/
private def restarted (steps : List Step) : Machine Disk SSTableReader :=
  final (openEngine plainDisk {} (final (close plainDisk (stateAfter steps))).world)

private theorem shutdown_of_succeeded {steps : List Step}
    (opens : succeeded (openEngine plainDisk {} { files := [], ticks := 0 }) = true)
    (runs : succeeded (Step.runAll plainDisk steps
      (final (openEngine plainDisk {} { files := [], ticks := 0 }))) = true)
    (closes : succeeded (close plainDisk (stateAfter steps)) = true)
    (reopens : succeeded (openEngine plainDisk {}
      (final (close plainDisk (stateAfter steps))).world) = true) :
    CleanShutdown plainDisk {} { files := [], ticks := 0 } steps (stateAfter steps)
      (restarted steps) :=
  ⟨⟨_, eq_ok_of_succeeded opens, eq_ok_of_succeeded runs⟩,
    ⟨_, eq_ok_of_succeeded closes, eq_ok_of_succeeded reopens⟩⟩

theorem survives_iff_deletedKey :
    (∀ key, (restarted deletedKey).engine.get (SSTableReader.ops .plain) key =
        (stateAfter deletedKey).engine.get (SSTableReader.ops .plain) key) ↔
      ∀ key write, last (Step.writes deletedKey) key = some write → write.value = none :=
  survives_iff External.plain_zstdCompresses rfl
    (shutdown_of_succeeded (by decide +kernel) (by decide +kernel) (by decide +kernel)
      (by decide +kernel))

/-- A key that was put reads as absent after `close` and `open` have returned `Ok`. -/
theorem put_lost_by_shutdown :
    ¬ ∀ before reopened, CleanShutdown plainDisk {} { files := [], ticks := 0 } onePut before
        reopened →
      ∀ key, reopened.engine.get (SSTableReader.ops .plain) key =
        before.engine.get (SSTableReader.ops .plain) key := by
  intro durable
  have shutdown : CleanShutdown plainDisk {} { files := [], ticks := 0 } onePut
      (stateAfter onePut) (restarted onePut) :=
    shutdown_of_succeeded (by decide +kernel) (by decide +kernel) (by decide +kernel)
      (by decide +kernel)
  obtain ⟨earlier, later⟩ := shutdown.reads External.plain_zstdCompresses rfl [1]
  have same := (later.symm.trans (durable _ _ shutdown [1])).trans earlier
  cases same

end Write

end JustDb

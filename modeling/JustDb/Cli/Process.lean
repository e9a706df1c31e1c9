import JustDb.Cli.Session

/-!
# One process after another

`main` makes a configuration from its options, opens the engine on the data directory, runs
one command and closes the engine; an error of the command is returned before the close.
What a process leaves to the next is the directory.
-/

namespace JustDb

open Stateful Machine

variable {World Table : Type}

namespace Cli

/-- The options that the configuration is made from. -/
structure Options where
  memtableSize : Nat := 64
  noCompression : Bool := false
  deriving DecidableEq, Repr

/-- create config: the memtable size is given in mebibytes -/
def Options.config (options : Options) : Result Config := do
  let kibibytes ← checkedMul options.memtableSize 1024
  let bytes ← checkedMul kibibytes 1024
  .ok {
    memtableSizeThreshold := bytes
    compression := if options.noCompression then .none else .lz4 }

/-- The commands, apart from the benchmark. -/
inductive Command where
  | put (key value : String)
  | get (key : String)
  | delete (key : String)
  | scan (start stop : String)
  | stats
  | interactive (inputs : List Input)
  deriving DecidableEq, Repr

/-- How a process ends; one that still waits for input is running. -/
inductive Exit where
  | success
  | failure (error : StorageError)
  | panicked
  | running
  deriving DecidableEq, Repr

def Exit.ofFault : Fault → Exit
  | .error error => .failure error
  | .panic => .panicked

/-- What a process has printed for each line or command, and how it has ended. -/
structure Report where
  transcript : List (Line × Reply)
  exit : Exit
  deriving DecidableEq, Repr

/-- A command that makes one call: `engine.put(..).await?` and its siblings. -/
def oneShot (platform : Platform World Table) (line : Line) (machine : Machine World Table) :
    Report × Machine World Table :=
  match call platform .debug line machine with
  | .ok reply reached => ({ transcript := [(line, reply)], exit := .success }, reached)
  | .error fault reached => ({ transcript := [], exit := .ofFault fault }, reached)

def Exit.ofEnding : Option Ending → Exit
  | none => .running
  | some .goodbye => .success
  | some .aborted => .failure .io
  | some .panicked => .panicked

/-- execute commands -/
def Command.run (platform : Platform World Table) (command : Command)
    (machine : Machine World Table) : Report × Machine World Table :=
  match command with
  | .put key value => oneShot platform (.put (asBytes key) (asBytes value)) machine
  | .get key => oneShot platform (.get (asBytes key)) machine
  | .delete key => oneShot platform (.delete (asBytes key)) machine
  | .scan start stop => oneShot platform (.scan (asBytes start) (asBytes stop)) machine
  | .stats => oneShot platform .stats machine
  | .interactive inputs =>
      let session := (Session.start machine).run platform inputs
      ({ transcript := session.transcript, exit := .ofEnding session.ending }, session.machine)

/-- A process, with the turns that the background task gets before the command and after
it. -/
structure Process where
  options : Options := {}
  command : Command
  early : Nat := 0
  late : Nat := 0
  deriving DecidableEq, Repr

/-- Some turns of the background task. -/
def rest (platform : Platform World Table) (turns : Nat) (machine : Machine World Table) :
    Machine World Table :=
  Nat.iterate (fun machine => final (backgroundCompaction platform machine)) turns machine

/-- The part of `main` after the engine has been opened. -/
def Process.work (platform : Platform World Table) (process : Process)
    (machine : Machine World Table) : Report × World :=
  let (report, reached) := process.command.run platform (rest platform process.early machine)
  if report.exit = .success then
    match close platform (rest platform process.late reached) with
    | .ok _ closed => (report, closed.world)
    | .error fault closed => ({ report with exit := .ofFault fault }, closed.world)
  else (report, reached.world)

/-- `main` -/
def Process.run (platform : Platform World Table) (process : Process) (world : World) :
    Report × World :=
  match process.options.config with
  | .error fault => ({ transcript := [], exit := .ofFault fault }, world)
  | .ok config =>
      match openEngine platform config world with
      | .error fault reached => ({ transcript := [], exit := .ofFault fault }, reached.world)
      | .ok _ machine => process.work platform machine

/-- A directory that processes have worked on, and what they have printed. -/
structure Succession (World : Type) where
  world : World
  reports : List Report

/-- The next process. -/
def Succession.step (platform : Platform World Table) (succession : Succession World)
    (process : Process) : Succession World :=
  let (report, world) := process.run platform succession.world
  { world, reports := succession.reports ++ [report] }

/-! ## Commands on an engine that holds nothing -/

/-- The statistics of an engine that has just been opened on an empty directory. -/
def Figures.initial : Figures where
  sequenceNumber := 1
  isClosed := false
  entryCount := 0
  approximateSize := 0
  isImmutable := false
  immutableMemtableCount := 0
  levels := []

namespace Command

/-- What a command prints on an empty directory, or its error; a session is left open. -/
def alone : Command → Option (Except StorageError (Line × Reply))
  | .put key value => some <|
      match (Write.put (asBytes key) (asBytes value)).oversize with
      | some error => .error error
      | none => .ok (.put (asBytes key) (asBytes value), .ok)
  | .get key => some (.ok (.get (asBytes key), .nil))
  | .delete key => some <|
      match (Write.delete (asBytes key)).oversize with
      | some error => .error error
      | none => .ok (.delete (asBytes key), .ok)
  | .scan start stop => some (.ok (.scan (asBytes start) (asBytes stop), .pairs []))
  | .stats => some (.ok (.stats, .stats .initial))
  | .interactive _ => none

/-- A report that shows nothing of earlier processes: a command prints what it prints on an
empty directory, and a session that is served answers as a map that is empty at first. -/
def Forgets (command : Command) (report : Report) : Prop :=
  match command.alone with
  | some (.ok exchange) =>
      report.transcript = [exchange] ∧ (report.exit = .success ∨ report.exit = .panicked)
  | some (.error error) => report = { transcript := [], exit := .failure error }
  | none => Served report.transcript → Fits (fun _ => none) report.transcript

end Command

/-- A write to an engine that has just been opened. -/
theorem run_fresh (platform : Platform World Table) {config : Config}
    (positive : 0 < config.memtableSizeThreshold) (world : World) {write : Write}
    (small : write.oversize = none) :
    ∃ reached, write.run platform { engine := .fresh config, world } = .ok () reached := by
  have room : (MemTable.new config.memtableSizeThreshold).shouldFlush = false := by
    simpa [MemTable.shouldFlush, MemTable.new] using positive.ne'
  have still : checkRotateMemtable platform { engine := .fresh config, world } =
      .ok () { engine := .fresh config, world } := by
    rw [checkRotateMemtable, bind_of_ok (get_apply _), StorageEngine.fresh]
    simp only [room]
    rfl
  rw [Write.run_apply, Write.rejection_of_running rfl, small]
  exact ⟨_, (bind_of_ok still).trans (writeMemtable_apply platform _ _ _)⟩

theorem scan_fresh (ops : TableOps Table) (config : Config) (start stop : Key) :
    (StorageEngine.fresh config).scan ops start stop = .ok [] := by
  have nothing : (MemTable.new config.memtableSizeThreshold).rangeIter start stop = .ok [] := by
    rw [MemTable.rangeIter, if_neg (by simp [MemTable.new])]
    simp [MemTable.inRange, MemTable.new]
  have levels : ∀ (levels : List Nat) (held : StorageEngine.ScanResults),
      levels.foldlM (fun held level =>
        ((StorageEngine.fresh config : StorageEngine Table).tables level).foldlM
          (fun held table => do
            let entries ← ops.range table start stop
            pure (StorageEngine.scanOlder held (entries.map fun entry => (entry.key, entry))))
          held) held = (.ok held : Result StorageEngine.ScanResults) := by
    intro levels held
    induction levels with
    | nil => rfl
    | cons level levels ih => exact ih
  rw [StorageEngine.scan, if_neg (by simp [StorageEngine.fresh])]
  change (do
    let current ← (MemTable.new config.memtableSizeThreshold).rangeIter start stop
    let results ← (List.range config.maxLevels).foldlM _ (StorageEngine.scanMemtable ∅ current)
    Except.ok (StorageEngine.scanFinish results)) = _
  rw [nothing, Result.ok_bind, levels]
  rfl

theorem stats_fresh (ops : TableOps Table) (config : Config) :
    printStats ((StorageEngine.fresh config).stats ops) = .ok .initial := by
  rfl

theorem oneShot_eq (platform : Platform World Table) {line : Line} {machine : Machine World Table}
    {reply : Reply} {reached : Machine World Table}
    (called : call platform .debug line machine = .ok reply reached) :
    oneShot platform line machine =
      ({ transcript := [(line, reply)], exit := .success }, reached) := by
  rw [oneShot, called]

/-- A write of a proper size. -/
theorem oneShot_of_small (platform : Platform World Table) {config : Config}
    (positive : 0 < config.memtableSizeThreshold) (world : World) {line : Line} {write : Write}
    (asks : line.write? = some write) (small : write.oversize = none) :
    (oneShot platform line { engine := .fresh config, world }).1 =
      { transcript := [(line, .ok)], exit := .success } := by
  obtain ⟨reached, ran⟩ := run_fresh platform positive world small
  have called : call platform .debug line { engine := .fresh config, world } =
      .ok .ok reached := by
    rw [call_of_write platform _ asks, bind_of_ok ran]
    rfl
  rw [oneShot_eq platform called]

/-- A write that fails its checks. -/
theorem oneShot_of_oversize (platform : Platform World Table) (config : Config) (world : World)
    {line : Line} {write : Write} (asks : line.write? = some write) {error : StorageError}
    (oversize : write.oversize = some error) :
    (oneShot platform line { engine := .fresh config, world }).1 =
      { transcript := [], exit := .failure error } := by
  have called : call platform .debug line { engine := .fresh config, world } =
      .error (.error error) { engine := .fresh config, world } := by
    rw [call_of_write platform _ asks, bind_eq, Write.run_apply,
      Write.rejection_of_running rfl, oversize]
  rw [oneShot, called]
  rfl

/-- Commands other than a session, on an engine that has just been opened. -/
theorem run_alone (platform : Platform World Table) {config : Config}
    (positive : 0 < config.memtableSizeThreshold) (world : World) (command : Command) :
    match command.alone with
    | some (.ok exchange) => (command.run platform { engine := .fresh config, world }).1 =
        { transcript := [exchange], exit := .success }
    | some (.error error) => (command.run platform { engine := .fresh config, world }).1 =
        { transcript := [], exit := .failure error }
    | none => True := by
  have reading : ∀ (line : Line) (read : StorageEngine Table → Result Reply) (reply : Reply),
      call platform .debug line = reading read → read (.fresh config) = .ok reply →
        (oneShot platform line { engine := .fresh config, world }).1 =
          { transcript := [(line, reply)], exit := .success } := by
    intro line read reply same answer
    rw [oneShot_eq platform (by rw [same, reading_apply, answer])]
  cases command with
  | put key value =>
      cases checked : (Write.put (asBytes key) (asBytes value)).oversize with
      | none =>
          simp only [Command.alone, checked]
          exact oneShot_of_small platform positive world rfl checked
      | some error =>
          simp only [Command.alone, checked]
          exact oneShot_of_oversize platform config world rfl checked
  | delete key =>
      cases checked : (Write.delete (asBytes key)).oversize with
      | none =>
          simp only [Command.alone, checked]
          exact oneShot_of_small platform positive world rfl checked
      | some error =>
          simp only [Command.alone, checked]
          exact oneShot_of_oversize platform config world rfl checked
  | get key =>
      refine reading _ _ _ (by rw [call]) ?_
      rw [StorageEngine.get_fresh]
      rfl
  | scan start stop =>
      refine reading _ _ _ (by rw [call]) ?_
      rw [scan_fresh]
      rfl
  | stats =>
      refine reading _ _ _ (by rw [call]) ?_
      rw [stats_fresh]
      rfl
  | interactive inputs => trivial

/-! ## Processes on the disk -/

section Disk

variable {external : External} {host : Host} {config : Config}

/-- An engine without tables has nothing to compact. -/
theorem settled_of_barren {machine : Machine Disk SSTableReader}
    (barren : Disk.Barren config machine) (valid : config.validate = .ok ()) :
    machine.engine.Settled (SSTableReader.ops external) where
  level0 := by
    rw [StorageEngine.tables, barren.sstables, barren.config]
    exact Config.l0CompactionThreshold_pos valid
  deeper := by
    intro level _
    rw [StorageEngine.levelNeedsCompaction, barren.sstables]

/-- The background task leaves such an engine as it is. -/
theorem rest_of_barren {machine : Machine Disk SSTableReader}
    (barren : Disk.Barren config machine) (valid : config.validate = .ok ()) (turns : Nat) :
    rest (Disk.platform external host) turns machine = machine := by
  have idle : final (backgroundCompaction (Disk.platform external host) machine) = machine := by
    rw [backgroundCompaction_of_settled (settled_of_barren barren valid)]
    rfl
  exact Function.iterate_fixed idle turns

/-- A line leaves the engine without tables, unless its call panics. -/
theorem barren_call (compresses : external.ZstdCompresses) (notText : Value → Reply)
    (line : Line) :
    Upholds (Disk.Barren config) (call (Disk.platform external host) notText line) := by
  cases asks : line.write? with
  | none =>
      obtain ⟨read, same⟩ := call_of_read (Disk.platform external host) notText asks
      rw [same]
      exact ensures_get_bind fun machine _ => upholds_lift _
  | some write =>
      rw [call_of_write _ notText asks]
      exact ((Disk.stable_barren compresses host config).run write).bind fun _ => ensures_pure _

/-- A session that has ended asks nothing more of the background task. -/
theorem settled_of_ended {platform : Platform World Table} {session : Session World Table}
    (ended : session.ending.isSome) (inputs : List Input) : session.Settled platform inputs := by
  induction inputs with
  | nil => trivial
  | cons input inputs ih =>
      refine ⟨fun _ live => absurd live (Option.isSome_iff_ne_none.mp ended), ?_⟩
      rw [Session.step, if_pos ended]
      exact ih

theorem upholds_printError {invariant : Machine World Table → Prop}
    {action : Action World Table Reply} (upholds : Upholds invariant action) :
    Upholds invariant (printError action) := by
  intro machine holds
  have kept := upholds machine holds
  rw [printError]
  cases ran : action machine with
  | ok reply reached =>
      rw [ran] at kept
      exact kept
  | error fault reached =>
      rw [ran] at kept
      cases fault with
      | error failure => exact kept (by simp)
      | panic => exact kept

theorem barren_respond (compresses : external.ZstdCompresses) (line : Line) :
    Upholds (Disk.Barren config) (respond (Disk.platform external host) line) :=
  upholds_printError (barren_call compresses (fun _ => .notText) line)

/-- One input, unless a call of it panics. -/
theorem barren_hear (compresses : external.ZstdCompresses) (valid : config.validate = .ok ())
    {session : Session Disk SSTableReader} (barren : Disk.Barren config session.machine)
    (input : Input)
    (sane : (session.hear (Disk.platform external host) input).ending ≠ some .panicked) :
    Disk.Barren config (session.hear (Disk.platform external host) input).machine := by
  cases input with
  | broken => exact barren
  | background =>
      rw [Session.hear, backgroundCompaction_of_settled (settled_of_barren barren valid)]
      exact barren
  | line text =>
      rw [Session.hear, Session.answer] at sane ⊢
      cases answered : respond (Disk.platform external host) (.ofText text) session.machine with
      | ok reply machine => exact (barren_respond compresses _).of_ok barren answered
      | error fault machine =>
          rw [answered] at sane
          exact absurd rfl sane

/-- A session leaves the engine without tables, unless a call of it panics, and the
background task finds nothing to do while it lasts. -/
theorem barren_session (compresses : external.ZstdCompresses) (valid : config.validate = .ok ())
    {session : Session Disk SSTableReader} (live : session.ending = none)
    (barren : Disk.Barren config session.machine) (inputs : List Input) :
    session.Settled (Disk.platform external host) inputs ∧
      ((session.run (Disk.platform external host) inputs).ending ≠ some .panicked →
        Disk.Barren config (session.run (Disk.platform external host) inputs).machine) := by
  induction inputs generalizing session with
  | nil => exact ⟨trivial, fun _ => barren⟩
  | cons input inputs ih =>
      have kept := @barren_hear external host config compresses valid session barren input
      rw [Session.run_cons_of_live live, Session.Settled, Runs.Guarded, Session.step_of_live live]
      cases ended : (session.hear (Disk.platform external host) input).ending with
      | none =>
          obtain ⟨settled, after⟩ := ih ended (kept (by simp [ended]))
          exact ⟨⟨fun _ _ => settled_of_barren barren valid, settled⟩, after⟩
      | some ending =>
          have finished : (session.hear (Disk.platform external host) input).ending.isSome := by
            simp [ended]
          rw [Session.run_of_ended finished]
          exact ⟨⟨fun _ _ => settled_of_barren barren valid,
            settled_of_ended finished inputs⟩, kept⟩

/-- A command, unless a call of it panics. -/
theorem barren_command (compresses : external.ZstdCompresses) (valid : config.validate = .ok ())
    {machine : Machine Disk SSTableReader} (barren : Disk.Barren config machine)
    (command : Command)
    (sane : (command.run (Disk.platform external host) machine).1.exit ≠ .panicked) :
    Disk.Barren config (command.run (Disk.platform external host) machine).2 := by
  have single : ∀ line, (oneShot (Disk.platform external host) line machine).1.exit ≠ .panicked →
      Disk.Barren config (oneShot (Disk.platform external host) line machine).2 := by
    intro line sane
    have kept := @barren_call external host config compresses .debug line machine barren
    rw [oneShot] at sane ⊢
    cases called : call (Disk.platform external host) .debug line machine with
    | ok reply reached =>
        rw [called] at kept
        exact kept
    | error fault reached =>
        rw [called] at kept sane
        cases fault with
        | error error => exact kept (by simp)
        | panic => exact absurd rfl sane
  cases command with
  | interactive inputs =>
      refine (barren_session compresses valid rfl barren inputs).2 fun panicked => sane ?_
      simp only [Command.run, panicked]
      rfl
  | _ => exact single _ sane

theorem keeps_openTable (name : FileName) (mapped : Bool) :
    Keeps id (Disk.openTable name mapped) := by
  refine keeps_get.bind fun disk => ?_
  cases disk.find name with
  | none => exact fun _ => rfl
  | some contents => exact keeps_lift _

/-- Opening an engine changes nothing on the disk. -/
theorem world_openEngine (config : Config) (disk : Disk) :
    (final (openEngine (Disk.platform external host) config disk)).world = disk := by
  have loading : Keeps Machine.world (loadSstables (Disk.platform external host)) := by
    have listing : Keeps Machine.world (onWorld (Disk.platform external host).readDir :
        Action Disk SSTableReader (List FileName)) := fun _ => rfl
    have opening : ∀ name mapped, Keeps Machine.world
        (onWorld ((Disk.platform external host).openTable name mapped) :
          Action Disk SSTableReader SSTableReader) := by
      intro name mapped machine
      rw [final_onWorld]
      exact keeps_openTable name mapped machine.world
    exact listing.bind fun names =>
      (Keeps.foldlM (keeps_loadFile opening) _).bind fun _ _ => rfl
  rw [openEngine]
  split
  · rfl
  · exact loading _

/-- The work of a process leaves no file that opens, unless it panics. -/
theorem illegible_work (compresses : external.ZstdCompresses) (valid : config.validate = .ok ())
    {machine : Machine Disk SSTableReader} (barren : Disk.Barren config machine)
    (process : Process)
    (sane : (process.work (Disk.platform external host) machine).1.exit ≠ .panicked) :
    (process.work (Disk.platform external host) machine).2.Illegible := by
  have kept := @barren_command external host config compresses valid machine barren
    process.command
  rw [Process.work, rest_of_barren barren valid] at sane ⊢
  generalize process.command.run (Disk.platform external host) machine = ran at kept sane ⊢
  obtain ⟨report, reached⟩ := ran
  dsimp only at kept sane ⊢
  split at sane
  next ended =>
    have shut := kept (by simp [ended])
    have closing := (Disk.stable_barren compresses host config).close _ shut
    rw [if_pos ended]
    rw [rest_of_barren shut valid] at sane ⊢
    cases closed : close (Disk.platform external host) reached with
    | ok _ after =>
        rw [closed] at closing
        exact closing.illegible
    | error fault after =>
        rw [closed] at closing sane
        cases fault with
        | error error => exact (closing (by simp)).illegible
        | panic => exact absurd rfl sane
  next going =>
    rw [if_neg going]
    exact (kept sane).illegible

/-- A process leaves no file that opens, unless it panics. -/
theorem illegible_run (compresses : external.ZstdCompresses) {disk : Disk}
    (illegible : disk.Illegible) (process : Process)
    (sane : (process.run (Disk.platform external host) disk).1.exit ≠ .panicked) :
    (process.run (Disk.platform external host) disk).2.Illegible := by
  rw [Process.run] at sane ⊢
  split at sane
  next => exact illegible
  next config configured =>
    have same := @world_openEngine external host config disk
    split at sane
    next fault reached failed =>
      rw [failed] at same
      have unchanged : reached.world = disk := same
      rw [← unchanged] at illegible
      exact illegible
    next machine opened =>
      obtain ⟨valid, rfl⟩ := Disk.openEngine_eq_ok illegible opened
      exact illegible_work compresses valid (Disk.barren_fresh illegible config) process sane

/-- The directory after some processes, none of which has panicked. -/
theorem illegible_succession (compresses : external.ZstdCompresses) {disk : Disk}
    (empty : disk.files = []) {earlier : List Process}
    (sane : ∀ report ∈ (Runs.run (Succession.step (Disk.platform external host)) ⟨disk, []⟩
      earlier).reports, report.exit ≠ .panicked) :
    (Runs.run (Succession.step (Disk.platform external host)) ⟨disk, []⟩
      earlier).world.Illegible := by
  let invariant (succession : Succession Disk) : Prop :=
    (∀ report ∈ succession.reports, report.exit ≠ .panicked) → succession.world.Illegible
  have preserved : ∀ succession process, invariant succession →
      invariant (Succession.step (Disk.platform external host) succession process) := by
    intro succession process kept sane
    obtain ⟨before, last⟩ := List.forall_mem_append.mp sane
    exact illegible_run compresses (kept before) process (last _ (List.mem_singleton_self _))
  have start : invariant ⟨disk, []⟩ := by
    intro _ file member
    rw [empty] at member
    cases member
  have throughout := Runs.throughout_of_invariant (fun _ holds => holds) preserved start earlier
  exact throughout.finally sane

/-- The report of a process is that of its command, which a panic while the engine closes
ends. -/
theorem work_report {platform : Platform World Table} {process : Process}
    {machine : Machine World Table} {report : Report}
    (ran : (process.command.run platform (rest platform process.early machine)).1 = report) :
    (process.work platform machine).1 = report ∨ report.exit = .success ∧
      (process.work platform machine).1 = { report with exit := .panicked } := by
  rw [Process.work]
  generalize process.command.run platform (rest platform process.early machine) = pair at ran ⊢
  obtain ⟨_, reached⟩ := pair
  cases ran
  dsimp only
  split
  next ended =>
    cases closed : close platform (rest platform process.late reached) with
    | ok _ after => exact .inl rfl
    | error fault after =>
        cases panic_of_close closed
        exact .inr ⟨ended, rfl⟩
  next => exact .inl rfl

/-- A process on a disk where no file opens prints what it prints on an empty one. -/
theorem forgets_work (compresses : external.ZstdCompresses) {disk : Disk}
    (illegible : disk.Illegible) (valid : config.validate = .ok ()) (process : Process) :
    process.command.Forgets (process.work (Disk.platform external host)
      { engine := .fresh config, world := disk }).1 := by
  have barren := Disk.barren_fresh illegible config
  have positive : 0 < config.memtableSizeThreshold :=
    Config.pos_of_check valid "memtable_size_threshold must be greater than 0"
      (by simp [Config.checks])
  have alone := run_alone (Disk.platform external host) positive disk process.command
  have report := work_report (congrArg (fun machine => (process.command.run
    (Disk.platform external host) machine).1) (rest_of_barren barren valid process.early))
  rw [Command.Forgets]
  cases known : process.command.alone with
  | some answer =>
      rw [known] at alone
      cases answer with
      | ok exchange =>
          simp only [alone] at report ⊢
          rcases report with same | ⟨_, cut⟩
          · rw [same]
            exact ⟨rfl, .inl rfl⟩
          · rw [cut]
            exact ⟨rfl, .inr rfl⟩
      | error error =>
          simp only [alone] at report ⊢
          exact report.resolve_right fun cut => by simp at cut
  | none =>
      cases asked : process.command with
      | interactive inputs =>
          rw [asked] at report
          let session : Session Disk SSTableReader :=
            .start { engine := .fresh config, world := disk }
          have shown : (process.work (Disk.platform external host) session.machine).1.transcript =
              (session.run (Disk.platform external host) inputs).transcript := by
            rcases report with same | ⟨_, cut⟩
            · exact congrArg Report.transcript same
            · exact congrArg Report.transcript cut
          intro served
          have served : Served (session.run (Disk.platform external host) inputs).transcript :=
            shown ▸ served
          have live : session.ending = none := rfl
          have settled := (@barren_session external host config compresses valid session live
            barren inputs).1
          have reads : Reads (Disk.platform external host).toTableOps session.machine.engine
              fun _ => none :=
            ⟨Config.maxLevels_pos valid, StorageEngine.get_fresh _ config⟩
          obtain ⟨given, recorded, fits, _⟩ :=
            Session.run_fits (Disk.platform_faithful external host) live reads settled served
          exact (shown.trans recorded) ▸ fits
      | _ =>
          rw [asked] at known
          cases known

/-- A machine whose clock stands still. -/
def frozenHost : Host where
  clock _ := 0
  order names := names
  lists names := .refl names

/-- Processes that write and read back, one of them in a session. -/
def predecessors : List Process :=
  [{ command := .put "a" "1", late := 1 },
    { command := .interactive [.line "put b 2", .background, .line "get b", .line "get a",
        .line "quit"] },
    { command := .delete "b", early := 1 }]

example : (Runs.run (Succession.step (Disk.platform .plain frozenHost)) ⟨⟨[], 0⟩, []⟩
    predecessors).reports.map (fun report => report.transcript.map Prod.snd) =
    [[.ok], [.ok, .text "2", .nil, .goodbye], [.ok]] := by
  decide +kernel

def reader : Process := { command := .get "a" }

end Disk

end Cli

end JustDb

import JustDb.SSTable.InternalFaults
import JustDb.Storage.Deeds
import JustDb.Storage.Disk
import JustDb.Storage.ReadYourWrites
import JustDb.Library.Runs

/-!
# Errors of the client

A client error is returned for a call that its checks refuse, before anything is done,
and for no other call: flushes build tables of ascending entries only, tables never blame
the client, and no current memtable is immutable.
-/

namespace JustDb

open Stateful Machine Result

variable {World Table : Type}

/-- What the calls of an engine reach outside it fails by a panic or by an error of the
system. -/
structure Platform.Internal (platform : Platform World Table) : Prop where
  builds : ∀ config path {entries}, Ascending entries →
    FailsInternally (platform.buildFromVec config path entries)
  opens : ∀ name mapped, FailsInternally (platform.openTable name mapped)
  lists : FailsInternally platform.readDir
  mightContain : ∀ table key, (platform.mightContain table key).FailsInternally
  get : ∀ table key, (platform.get table key).FailsInternally
  range : ∀ table start stop, (platform.range table start stop).FailsInternally

variable {platform : Platform World Table}

/-- The entries of a memtable make a table, unless the system fails. -/
theorem Platform.Internal.flushTable (internal : platform.Internal) (config : Config)
    (memtable : MemTable) : FailsInternally (platform.flushTable config memtable) := by
  have clock : FailsInternally platform.currentMicros := fun _ _ => trivial
  have making : ∀ path, FailsInternally (platform.makeTable config path memtable.entryList) :=
    fun path => (internal.builds config path memtable.entryList_ascending).bind fun _ =>
      internal.opens path _
  exact .ite (ensures_pure none) (clock.bind fun _ => (making _).bind fun _ => ensures_pure _)

/-! ## Reads -/

namespace StorageEngine

/-- A running engine answers, or the system fails. -/
theorem failsInternally_get (internal : platform.Internal) {engine : StorageEngine Table}
    (running : engine.closed = false) (key : Key) :
    (engine.get platform.toTableOps key).FailsInternally := by
  have table : ∀ table, (lookupTable platform.toTableOps key table).FailsInternally :=
    fun table => (internal.mightContain table key).bind fun _ =>
      (internal.get table key).ite (failsInternally_ok none)
  have level : ∀ level, (engine.lookupLevel platform.toTableOps key level).FailsInternally := by
    intro level
    unfold lookupLevel
    split
    · intro fault failed
      obtain ⟨held, _, answer⟩ := List.mem_map.mp (Layered.mem_of_first_error failed)
      exact table held fault answer
    · split
      · exact table _
      · exact failsInternally_ok none
  have search : Result.FailsInternally
      (Layered.first (engine.answers platform.toTableOps key)) := by
    intro fault failed
    rcases List.mem_append.mp (Layered.mem_of_first_error failed) with held | deeper
    · obtain ⟨memtable, _, answer⟩ := List.mem_map.mp held
      cases answer
    · obtain ⟨number, _, answer⟩ := List.mem_map.mp deeper
      exact level number fault answer
  rw [get, running]
  exact search.bind fun _ => failsInternally_ok _

theorem failsInternally_scan (internal : platform.Internal) {engine : StorageEngine Table}
    (running : engine.closed = false) (start stop : Key) :
    (engine.scan platform.toTableOps start stop).FailsInternally := by
  have memtable : ∀ memtable : MemTable, (memtable.rangeIter start stop).FailsInternally :=
    fun _ => .ite (failsInternally_error trivial) (failsInternally_ok _)
  rw [scan, running]
  refine (memtable _).bind fun current => ?_
  refine (FailsInternally.foldlM (fun held waiting => (memtable waiting).bind fun _ =>
    failsInternally_ok _) _ _).bind fun results => ?_
  refine (FailsInternally.foldlM (fun held level => FailsInternally.foldlM (fun held table =>
    (internal.range table start stop).bind fun _ => failsInternally_ok _) _ _) _ _).bind ?_
  exact fun _ => failsInternally_ok _

end StorageEngine

/-! ## Writes -/

namespace Machine

/-- The current memtable takes writes. -/
def Unsealed (machine : Machine World Table) : Prop :=
  machine.engine.memtable.immutable = false

/-- The action leaves the current memtable open, and blames nobody but the system. -/
abbrev Blameless {α : Type} (action : Action World Table α) : Prop :=
  Ensures Unsealed (fun fault reached => fault.Internal ∧ Unsealed reached) action

theorem blameless_onWorld {α : Type} {action : EStateM Fault World α}
    (internal : FailsInternally action) :
    Blameless (onWorld action : Action World Table α) := by
  intro machine unsealed
  rw [onWorld]
  cases ran : action machine.world with
  | ok value world => exact unsealed
  | error fault world => exact ⟨internal.of_error ran, unsealed⟩

theorem blameless_onEngine {change : StorageEngine Table → StorageEngine Table}
    (kept : ∀ engine, engine.memtable.immutable = false →
      (change engine).memtable.immutable = false) :
    Blameless (onEngine change : Action World Table Unit) :=
  ensures_modify fun machine unsealed => kept machine.engine unsealed

theorem blameless_flushMemtable (internal : platform.Internal) (memtable : MemTable) :
    Blameless (flushMemtable platform memtable) := by
  refine ensures_get_bind fun machine _ =>
    (blameless_onWorld (internal.flushTable _ memtable)).bind fun made => ?_
  cases made with
  | none => exact ensures_pure ()
  | some table => exact blameless_onEngine fun _ open_ => open_

theorem blameless_flushExcess (internal : platform.Internal) (fuel : Nat) :
    Blameless (flushExcess platform fuel) := by
  induction fuel with
  | zero => exact ensures_pure ()
  | succ fuel ih =>
      refine ensures_get_bind fun machine _ => ?_
      split
      · exact ensures_pure ()
      · exact .ite (Ensures.bind (blameless_onEngine fun _ open_ => open_) fun _ =>
          (blameless_flushMemtable internal _).bind fun _ => ih) (ensures_pure ())

/-- A rotation swaps in a memtable that takes writes. -/
theorem blameless_checkRotateMemtable (internal : platform.Internal) :
    Blameless (checkRotateMemtable platform) := by
  have numbering : Blameless (nextSequence : Action World Table SequenceNumber) :=
    ensures_get_bind fun machine _ =>
      Ensures.bind (blameless_onEngine fun _ open_ => open_) fun _ => ensures_pure _
  have swapping : Blameless (swapMemtable : Action World Table MemTable) :=
    numbering.bind fun start => ensures_get_bind fun machine _ =>
      Ensures.bind (blameless_onEngine fun _ _ => rfl) fun _ => ensures_pure _
  have rotating : Blameless (rotateMemtable platform) :=
    swapping.bind fun old => Ensures.bind (blameless_onEngine fun _ open_ => open_) fun _ =>
      ensures_get_bind fun machine _ => blameless_flushExcess internal _
  exact ensures_get_bind fun machine _ => rotating.ite (ensures_pure ())

theorem blameless_writeMemtable (key : Key) (value : Option Value) :
    Blameless (writeMemtable platform key value) := by
  intro machine unsealed
  rw [writeMemtable_apply]
  cases stored : machine.engine.memtable.write key value
      (platform.now machine.world).1.toUInt64 with
  | ok written =>
      obtain ⟨_, rfl⟩ := MemTable.write_eq_ok stored
      exact unsealed
  | error fault =>
      rw [MemTable.write, unsealed] at stored
      cases stored

/-- A write past its checks. -/
theorem blameless_accepted (internal : platform.Internal) (key : Key) (value : Option Value) :
    Blameless (do checkRotateMemtable platform; writeMemtable platform key value) :=
  (blameless_checkRotateMemtable internal).bind fun _ => blameless_writeMemtable key value

/-! ## Opening -/

theorem unsealed_fresh (config : Config) (world : World) :
    Unsealed ({ engine := .fresh config, world } : Machine World Table) :=
  rfl

/-- A file that cannot be opened is passed over. -/
theorem blameless_loadFile (internal : platform.Internal) (found : List (Nat × Table))
    (name : FileName) : Blameless (loadFile platform found name) := by
  intro machine unsealed
  have opening := blameless_onWorld
    (internal.opens name machine.engine.config.useMmap) machine unsealed
  have loads := loads_loadFile platform found name machine
  generalize loadFile platform found name machine = outcome at loads
  cases loads with
  | passed => exact unsealed
  | opened _ ran | panicked ran =>
      rw [ran] at opening
      exact opening
  | reported ran =>
      rw [ran] at opening
      exact opening.2

theorem blameless_loadSstables (internal : platform.Internal) :
    Blameless (loadSstables platform) :=
  (blameless_onWorld internal.lists).bind fun _ =>
    (Ensures.foldlM (blameless_loadFile internal) []).bind fun _ =>
      blameless_onEngine fun _ open_ => open_

theorem unsealed_openEngine (internal : platform.Internal) {config : Config} {world : World}
    {reached : Machine World Table}
    (opened : openEngine platform config world = .ok () reached) : reached.Unsealed := by
  rw [openEngine] at opened
  split at opened
  · cases opened
  · exact (blameless_loadSstables internal).of_ok (unsealed_fresh _ _) opened

end Machine

/-! ## Deeds -/

namespace Deed

/-- The checks of a deed that are made before anything is done. -/
def rejection (engine : StorageEngine Table) : Deed → Option StorageError
  | .write call => call.rejection engine
  | .reopen config =>
      match config.validate with
      | .error message => some (.config message)
      | .ok () => none
  | .background | .close => none

section Rejection

variable {machine : Machine World Table} {deed : Deed} {failure : StorageError}

/-- What is refused is the client's fault. -/
theorem isClientError_of_rejection {engine : StorageEngine Table}
    (rejected : deed.rejection engine = some failure) : failure.isClientError = true := by
  cases deed with
  | write call =>
      rw [rejection, Write.rejection] at rejected
      split at rejected
      · cases rejected
        rfl
      · split at rejected
        · cases rejected
          rfl
        · split at rejected
          · split at rejected
            · cases rejected
              rfl
            · cases rejected
          · cases rejected
  | reopen config =>
      rw [rejection] at rejected
      split at rejected
      · cases rejected
        rfl
      · cases rejected
  | background | close => cases rejected

/-- What is refused is not begun. -/
theorem run_of_rejection (platform : Platform World Table)
    (rejected : deed.rejection machine.engine = some failure) :
    deed.run platform machine = .error (.error failure) machine := by
  cases deed with
  | write call =>
      rw [rejection] at rejected
      rw [run, Write.run_apply, rejected]
  | reopen config =>
      rw [rejection] at rejected
      simp only [run, openEngine]
      cases valid : config.validate with
      | error message =>
          rw [valid] at rejected
          cases rejected
          rfl
      | ok done =>
          rw [valid] at rejected
          cases rejected
  | background | close => cases rejected

end Rejection

variable {machine : Machine World Table}

/-- A deed that is not refused blames nobody but the system. -/
theorem internal_of_run (internal : platform.Internal) (unsealed : machine.Unsealed) {deed : Deed}
    (accepted : deed.rejection machine.engine = none) {fault : Fault}
    {reached : Machine World Table} (ran : deed.run platform machine = .error fault reached) :
    fault.Internal := by
  cases deed with
  | write call =>
      rw [rejection] at accepted
      rw [run, Write.run_apply, accepted] at ran
      exact ((blameless_accepted internal _ _).of_error unsealed ran).1
  | background =>
      rw [panic_of_backgroundCompaction ran]
      trivial
  | close =>
      rw [panic_of_close ran]
      trivial
  | reopen config =>
      simp only [run] at ran
      cases opened : openEngine platform config machine.world with
      | ok _ reached =>
          rw [opened] at ran
          cases ran
      | error failure reached =>
          rw [opened] at ran
          cases ran
          cases valid : config.validate with
          | error message =>
              rw [rejection, valid] at accepted
              cases accepted
          | ok done =>
              rw [openEngine, valid] at opened
              exact ((blameless_loadSstables internal).of_error (unsealed_fresh _ _) opened).1

/-- Every deed leaves a current memtable that takes writes. -/
theorem unsealed_perform (internal : platform.Internal) (unsealed : machine.Unsealed)
    (deed : Deed) : (deed.perform platform machine).Unsealed := by
  have blind : Blind fun engine : StorageEngine Table => engine.memtable.immutable :=
    ⟨fun _ _ => rfl, fun _ _ _ => rfl⟩
  cases deed with
  | write call =>
      rw [perform, run, Write.run_apply]
      cases call.rejection machine.engine with
      | some failure => exact unsealed
      | none =>
          have kept := blameless_accepted internal call.key call.value machine unsealed
          dsimp only
          split at kept
          next ran =>
            rw [ran]
            exact kept
          next ran =>
            rw [ran]
            exact kept.2
  | background => exact (blind.keeps_backgroundCompaction machine).trans unsealed
  | close =>
      cases stopped : machine.engine.closed with
      | true =>
          rw [perform, run, Machine.close, bind_of_ok (get_apply machine), if_pos stopped]
          exact unsealed
      | false => exact (blind.view_close stopped).trans unsealed
  | reopen config =>
      simp only [perform, run]
      cases opened : openEngine platform config machine.world with
      | error fault reached => exact unsealed
      | ok _ reached => exact unsealed_openEngine internal opened

end Deed

namespace Machine

/-- The errors that an engine returns tell whose fault they are: a client error stands for
the checks of a call, which end it before anything is done, and the reads of a closed engine
return one. -/
structure Blames (platform : Platform World Table) (machine : Machine World Table) : Prop where
  refused : ∀ {deed failure}, Deed.rejection machine.engine deed = some failure →
    deed.run platform machine = .error (.error failure) machine
  deed : ∀ {deed failure reached},
    Deed.run platform deed machine = .error (.error failure) reached →
    (failure.isClientError = true ↔ deed.rejection machine.engine = some failure)
  closed : machine.engine.closed = true →
    (∀ key, machine.engine.get platform.toTableOps key = .error (.error .closed)) ∧
    ∀ start stop, machine.engine.scan platform.toTableOps start stop = .error (.error .closed)
  get : ∀ {key failure}, machine.engine.get platform.toTableOps key = .error (.error failure) →
    (failure.isClientError = true ↔ machine.engine.closed = true)
  scan : ∀ {start stop failure},
    machine.engine.scan platform.toTableOps start stop = .error (.error failure) →
    (failure.isClientError = true ↔ machine.engine.closed = true)

theorem blames_of_unsealed (internal : platform.Internal) {machine : Machine World Table}
    (unsealed : machine.Unsealed) : machine.Blames platform := by
  have closedGet : machine.engine.closed = true →
      ∀ key, machine.engine.get platform.toTableOps key = .error (.error .closed) := by
    intro closed key
    rw [StorageEngine.get, closed]
    rfl
  have closedScan : machine.engine.closed = true → ∀ start stop,
      machine.engine.scan platform.toTableOps start stop = .error (.error .closed) := by
    intro closed start stop
    rw [StorageEngine.scan, closed]
    rfl
  have reading : ∀ {α : Type} {result : Result α} {failure : StorageError},
      (machine.engine.closed = true → result = .error (.error .closed)) →
      (machine.engine.closed = false → result.FailsInternally) →
      result = .error (.error failure) →
      (failure.isClientError = true ↔ machine.engine.closed = true) := by
    intro α result failure stopped running failed
    cases closed : machine.engine.closed with
    | true =>
        rw [stopped closed] at failed
        cases failed
        exact ⟨fun _ => rfl, fun _ => rfl⟩
    | false =>
        have blamed : failure.isClientError = false := running closed _ failed
        rw [blamed]
  constructor
  · exact Deed.run_of_rejection platform
  · intro deed failure reached ran
    refine ⟨fun client => ?_, Deed.isClientError_of_rejection⟩
    cases checked : deed.rejection machine.engine with
    | some refusal =>
        rw [Deed.run_of_rejection platform checked] at ran
        cases ran
        rfl
    | none =>
        have blamed : failure.isClientError = false :=
          Deed.internal_of_run internal unsealed checked ran
        rw [blamed] at client
        cases client
  · exact fun closed => ⟨closedGet closed, closedScan closed⟩
  · intro key failure
    exact reading (fun closed => closedGet closed key)
      fun running => StorageEngine.failsInternally_get internal running key
  · intro start stop failure
    exact reading (fun closed => closedScan closed start stop)
      fun running => StorageEngine.failsInternally_scan internal running start stop

end Machine

/-! ## On files -/

/-- The platform runs the code's builder and reader on a file system that may refuse any
call, the reads of an open table included, and whose files may hold anything. -/
structure Platform.OnFiles (external : External) (platform : Platform World SSTableReader) :
    Prop where
  mightContain : platform.mightContain = (SSTableReader.ops external).mightContain
  get : ∀ table key, platform.get table key = .error (.error .io) ∨
    platform.get table key = (SSTableReader.ops external).get table key
  range : ∀ table start stop, platform.range table start stop = .error (.error .io) ∨
    platform.range table start stop = (SSTableReader.ops external).range table start stop
  builds : ∀ {config path entries world fault reached},
    platform.buildFromVec config path entries world = .error fault reached →
    ∃ createdAt output sink,
      config.builder.buildFromVec external createdAt entries { output } = .error fault sink
  opens : ∀ {name mapped world fault reached},
    platform.openTable name mapped world = .error fault reached →
    fault = .error .io ∨ ∃ contents, SSTableReader.openFile name contents mapped = .error fault
  lists : ∀ {world fault reached},
    platform.readDir world = .error fault reached → fault = .error .io

theorem Platform.OnFiles.internal {external : External} {platform : Platform World SSTableReader}
    (onFiles : platform.OnFiles external) : platform.Internal where
  builds := by
    refine fun config path entries ascending => failsInternally_of_error fun failed => ?_
    obtain ⟨_, _, _, building⟩ := onFiles.builds failed
    exact SSTableBuilder.internal_of_buildFromVec (ascending.imp fun below => below.ne) building
  opens := by
    refine fun name mapped => failsInternally_of_error fun failed => ?_
    rcases onFiles.opens failed with rfl | ⟨contents, opening⟩
    · rfl
    · exact SSTableReader.failsInternally_openFile name contents mapped _ opening
  lists := by
    refine failsInternally_of_error fun failed => ?_
    rw [onFiles.lists failed]
    rfl
  mightContain := by
    rw [onFiles.mightContain]
    exact SSTableReader.failsInternally_mightContain external
  get := by
    intro table key
    rcases onFiles.get table key with refused | answered
    · rw [refused]
      exact failsInternally_error rfl
    · rw [answered]
      exact (SSTableReader.failsInternally_get external key).outcome table
  range := by
    intro table start stop
    rcases onFiles.range table start stop with refused | answered
    · rw [refused]
      exact failsInternally_error rfl
    · rw [answered]
      exact (SSTableReader.failsInternally_range external start stop).outcome table

/-- A disk that refuses nothing but what is not there. -/
theorem Disk.onFiles (external : External) (host : Host) :
    (Disk.platform external host).OnFiles external where
  mightContain := rfl
  get _ _ := .inr rfl
  range _ _ _ := .inr rfl
  builds := by
    intro config path entries disk fault reached failed
    simp only [Disk.platform, Disk.buildFromVec] at failed
    split at failed
    · cases failed
    next building =>
      cases failed
      exact ⟨_, _, _, building⟩
  opens := by
    intro name mapped disk fault reached failed
    change Disk.openTable name mapped disk = .error fault reached at failed
    rw [Disk.openTable, bind_of_ok (get_apply disk)] at failed
    cases found : disk.find name with
    | some contents =>
        rw [found] at failed
        exact .inr ⟨contents, (lift_eq_error.mp failed).1⟩
    | none =>
        rw [found] at failed
        cases failed
        exact .inl rfl
  lists := nofun

namespace Deed

/-- From the first opening on, whatever the files hold and whichever file operations fail, a
client error is returned exactly for the calls that their checks refuse, which change
nothing. -/
theorem client_errors_refuse {external : External} {platform : Platform World SSTableReader}
    (onFiles : platform.OnFiles external) {config : Config} {world : World}
    {machine : Machine World SSTableReader}
    (opened : openEngine platform config world = .ok () machine) (deeds : List Deed) :
    Runs.Throughout (Blames platform) (perform platform) machine deeds := by
  have preserved : ∀ (machine : Machine World SSTableReader) (deed : Deed), machine.Unsealed →
      (deed.perform platform machine).Unsealed :=
    fun machine deed unsealed => unsealed_perform onFiles.internal unsealed deed
  exact Runs.throughout_of_invariant (fun _ => blames_of_unsealed onFiles.internal) preserved
    (unsealed_openEngine onFiles.internal opened) deeds

/-- A clock that stands still, and files in the order they are kept. -/
private def idleHost : Host where
  clock _ := 1000000
  order := id
  lists := .refl

/-- A directory with a file that is no table. -/
private def litteredDisk : Disk :=
  ⟨[(sstableName 0 0 1, [1, 2, 3])], 0⟩

theorem client_errors_refuse_littered :
    Runs.Throughout (Blames (Disk.platform .plain idleHost))
      (perform (Disk.platform .plain idleHost))
      (final (openEngine (Disk.platform .plain idleHost) {} litteredDisk))
      [.write (.put [1] [10]), .background, .reopen { maxLevels := 0 }, .close,
        .write (.delete [1])] :=
  client_errors_refuse (Disk.onFiles .plain idleHost) (eq_ok_of_succeeded (by decide +kernel)) _

end Deed

end JustDb

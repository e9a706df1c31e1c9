import JustDb.MemTableSize
import JustDb.Storage.Disk
import JustDb.Storage.ReadPath
import JustDb.Library.Traced

/-!
# The paths of new table files

A flush names its file by the second and by the sequence counter of the memtable, a
compaction by the second and by the engine's counter, which starts over at each opening.
The platform here notes every path at which a build finds a file already, which
`SSTableWriter::new` truncates.
-/

namespace JustDb

open Stateful Machine

variable {World Table : Type}

/-- A platform on a directory of files: only a build adds one, at its own path. -/
structure Filing (World Table : Type) extends Platform World Table where
  files : World → List FileName
  files_now : ∀ world, files (now world).2 = files world
  files_build : ∀ config path entries world,
    files (final (buildFromVec config path entries world)) ⊆ path :: files world
  files_open : ∀ path mapped world, files (final (openTable path mapped world)) ⊆ files world
  files_remove : ∀ path world, files (final (removeFile path world)) ⊆ files world
  files_readDir : ∀ world, files (final (readDir world)) ⊆ files world

/-- A world, and the paths at which builds have found a file. -/
structure Audited (World : Type) where
  world : World
  reused : List FileName

namespace Filing

variable (filing : Filing World Table)

/-- Act on the world and note nothing. -/
def unnoted {α : Type} (action : EStateM Fault World α) : EStateM Fault (Audited World) α :=
  fun audited =>
    match action audited.world with
    | .ok value world => .ok value { audited with world }
    | .error fault world => .error fault { audited with world }

/-- Note a path if there is a file. -/
def note (path : FileName) (audited : Audited World) : Audited World :=
  if path ∈ filing.files audited.world then
    { audited with reused := path :: audited.reused }
  else
    audited

/-- The platform, with the paths of its builds noted. -/
def audited : Platform (Audited World) Table where
  toTableOps := filing.toTableOps
  now audited :=
    ((filing.now audited.world).1, { audited with world := (filing.now audited.world).2 })
  buildFromVec config path entries audited :=
    unnoted (filing.buildFromVec config path entries) (filing.note path audited)
  openTable path mapped := unnoted (filing.openTable path mapped)
  removeFile path := unnoted (filing.removeFile path)
  readDir := unnoted filing.readDir

end Filing

/-- What the name of a table file is made of. -/
structure TableLabel where
  level : Nat
  seconds : Nat
  sequence : SequenceNumber
  deriving DecidableEq, Repr

def TableLabel.name (label : TableLabel) : FileName :=
  sstableName label.level label.seconds label.sequence

theorem TableLabel.name_injective : Function.Injective TableLabel.name := by
  rintro ⟨level, seconds, sequence⟩ ⟨level', seconds', sequence'⟩ same
  obtain ⟨rfl, rfl, rfl⟩ := sstableName_inj same
  rfl

/-- What flushes, compactions, openings and closings of an engine do one after another:
the calls that reach the file system or the clock, and changes of the engine in between,
such as the writes to its memtable or the replacement by an engine just opened. -/
inductive Stage (Table : Type) where
  | flush (memtable : MemTable)
  | create (level : Nat) (entries : List Entry)
  | remove (path : FileName)
  | openTable (path : FileName) (mapped : Bool)
  | readDir
  | readClock
  | engine (change : StorageEngine Table → StorageEngine Table)

namespace Stage

variable (filing : Filing World Table)

/-- What the stage leaves, whether it returns `Ok` or not. -/
def run (machine : Machine (Audited World) Table) : Stage Table → Machine (Audited World) Table
  | .flush memtable => final (flushMemtable filing.audited memtable machine)
  | .create level entries => final (createSstable filing.audited level entries machine)
  | .remove path => final (onWorld (filing.audited.removeFile path) machine)
  | .openTable path mapped => final (onWorld (filing.audited.openTable path mapped) machine)
  | .readDir => final (onWorld filing.audited.readDir machine)
  | .readClock => final (onWorld filing.audited.currentMicros machine)
  | .engine change => final (onEngine change machine)

/-- The second that the next reading of the clock falls in. -/
def seconds (machine : Machine (Audited World) Table) : Nat :=
  (filing.now machine.world.world).1 / 1000000

/-- The second and the counter that the stage names a new table by, if it builds one. -/
def label (machine : Machine (Audited World) Table) : Stage Table → Option TableLabel
  | .flush memtable =>
      if memtable.count = 0 then none
      else some { level := 0, seconds := seconds filing machine,
                  sequence := memtable.currentSequence }
  | .create level _ =>
      some { level, seconds := seconds filing machine,
             sequence := machine.engine.sequenceCounter }
  | _ => none

end Stage

/-- A machine, and the labels of all tables that builds have begun on. -/
structure Filed (World Table : Type) where
  machine : Machine (Audited World) Table
  made : List TableLabel

namespace Filed

variable (filing : Filing World Table)

def step (filed : Filed World Table) (stage : Stage Table) : Filed World Table where
  machine := stage.run filing filed.machine
  made := (stage.label filing filed.machine).toList ++ filed.made

/-- The condition on a stage: of the tables whose files are there none is of the same
level, made in the same second under the same number as the one to be built. -/
def Unclaimed (filed : Filed World Table) (stage : Stage Table) : Prop :=
  ∀ label, stage.label filing filed.machine = some label →
    ∀ made ∈ filed.made, made.name ∈ filing.files filed.machine.world.world → made ≠ label

/-- Before the first stage. -/
def start (machine : Machine World Table) : Filed World Table where
  machine := { engine := machine.engine, world := { world := machine.world, reused := [] } }
  made := []

/-- No build has found a file at its path. -/
def NoneReused (filed : Filed World Table) : Prop :=
  filed.machine.world.reused = []

end Filed

/-! ## What a stage does -/

namespace Filing

variable {filing : Filing World Table} {path : FileName} {before middle after : Audited World}

@[simp] theorem final_unnoted {α : Type} (action : EStateM Fault World α)
    (audited : Audited World) :
    final (unnoted action audited) = { audited with world := final (action audited.world) } := by
  unfold unnoted
  cases action audited.world <;> rfl

@[simp] theorem world_note (path : FileName) (audited : Audited World) :
    (filing.note path audited).world = audited.world := by
  unfold note
  split <;> rfl

/-- A build at a path: it adds no other file, and the path is noted if it has one. -/
structure Placed (filing : Filing World Table) (path : FileName) (before after : Audited World) :
    Prop where
  files : filing.files after.world ⊆ path :: filing.files before.world
  reused : after.reused = (filing.note path before).reused

/-- No build: no file is added and no path is noted. -/
structure Quiet (filing : Filing World Table) (before after : Audited World) : Prop where
  files : filing.files after.world ⊆ filing.files before.world
  reused : after.reused = before.reused

theorem Placed.trans_quiet (placed : filing.Placed path before middle)
    (quiet : filing.Quiet middle after) : filing.Placed path before after where
  files := List.Subset.trans quiet.files placed.files
  reused := quiet.reused.trans placed.reused

theorem quiet_unnoted {α : Type} {action : EStateM Fault World α}
    (files : ∀ world, filing.files (final (action world)) ⊆ filing.files world)
    (audited : Audited World) : filing.Quiet audited (final (unnoted action audited)) where
  files := by
    rw [final_unnoted]
    exact files audited.world
  reused := by rw [final_unnoted]

theorem placed_buildFromVec (config : Config) (path : FileName) (entries : List Entry)
    (audited : Audited World) :
    filing.Placed path audited
      (final (filing.audited.buildFromVec config path entries audited)) where
  files := by
    rw [Filing.audited, final_unnoted, world_note]
    exact filing.files_build config path entries audited.world
  reused := by rw [Filing.audited, final_unnoted]

theorem placed_makeTable (config : Config) (path : FileName) (entries : List Entry)
    (audited : Audited World) :
    filing.Placed path audited
      (final (filing.audited.makeTable config path entries audited)) := by
  have placed := filing.placed_buildFromVec config path entries audited
  rw [Platform.makeTable, bind_eq]
  cases ran : filing.audited.buildFromVec config path entries audited with
  | error fault reached =>
      rw [ran] at placed
      exact placed
  | ok metadata reached =>
      rw [ran] at placed
      exact placed.trans_quiet (quiet_unnoted (filing.files_open path config.useMmap) reached)

/-- The world once the clock has been read. -/
def ticked (filing : Filing World Table) (audited : Audited World) : Audited World :=
  { audited with world := (filing.now audited.world).2 }

theorem currentMicros_audited (audited : Audited World) :
    filing.audited.currentMicros audited =
      .ok (filing.now audited.world).1 (filing.ticked audited) := rfl

/-- Reading the clock first makes no difference. -/
theorem Placed.of_ticked (placed : filing.Placed path (filing.ticked before) after) :
    filing.Placed path before after where
  files := by
    rw [← filing.files_now before.world]
    exact placed.files
  reused := by
    rw [placed.reused, note, note, ticked, filing.files_now]
    split <;> rfl

end Filing

namespace Stage

open Filing

variable {filing : Filing World Table}

/-- A memtable that is not empty is built once the clock has been read. -/
theorem world_flush {memtable : MemTable} (filled : memtable.count ≠ 0)
    (machine : Machine (Audited World) Table) :
    (Stage.run filing machine (.flush memtable)).world =
      final (filing.audited.makeTable machine.engine.config
        (sstableName 0 (seconds filing machine) memtable.currentSequence) memtable.entryList
        (filing.ticked machine.world)) := by
  have table : final (filing.audited.flushTable machine.engine.config memtable machine.world) =
      final (filing.audited.makeTable machine.engine.config
        (sstableName 0 (seconds filing machine) memtable.currentSequence) memtable.entryList
        (filing.ticked machine.world)) := by
    rw [Platform.flushTable, if_neg filled, bind_of_ok (currentMicros_audited _)]
    exact final_bind_pure ..
  rw [← table, Stage.run, flushMemtable_apply]
  cases filing.audited.flushTable machine.engine.config memtable machine.world <;> rfl

/-- An empty memtable is not built. -/
theorem world_flush_of_empty {memtable : MemTable} (empty : memtable.count = 0)
    (machine : Machine (Audited World) Table) :
    (Stage.run filing machine (.flush memtable)).world = machine.world := by
  rw [Stage.run, flushMemtable_apply, Platform.flushTable, if_pos empty]
  rfl

/-- A table of a compaction is built once the clock has been read. -/
theorem world_create (level : Nat) (entries : List Entry)
    (machine : Machine (Audited World) Table) :
    (Stage.run filing machine (.create level entries)).world =
      final (filing.audited.makeTable machine.engine.config
        (sstableName level (seconds filing machine) machine.engine.sequenceCounter) entries
        (filing.ticked machine.world)) := by
  have clock : onWorld filing.audited.currentMicros machine =
      .ok (filing.now machine.world.world).1
        { machine with world := filing.ticked machine.world } := rfl
  rw [Stage.run, createSstable, bind_of_ok clock]
  exact congrArg Machine.world (final_onWorld _ _)

/-- A stage builds a table at the path of its label, or builds none. -/
theorem run_cases (filing : Filing World Table) (machine : Machine (Audited World) Table)
    (stage : Stage Table) :
    (∃ label, stage.label filing machine = some label ∧
        filing.Placed label.name machine.world (stage.run filing machine).world) ∨
      stage.label filing machine = none ∧
        filing.Quiet machine.world (stage.run filing machine).world := by
  have quiet : ∀ {α : Type} {action : EStateM Fault World α},
      (∀ world, filing.files (final (action world)) ⊆ filing.files world) →
      filing.Quiet machine.world
        (final (onWorld (unnoted action) machine : EStateM.Result _ _ α)).world := by
    intro α action files
    rw [final_onWorld]
    exact quiet_unnoted files machine.world
  cases stage with
  | flush memtable =>
      by_cases empty : memtable.count = 0
      · refine .inr ⟨if_pos empty, ?_⟩
        rw [world_flush_of_empty empty]
        exact ⟨List.Subset.refl _, rfl⟩
      · refine .inl ⟨_, if_neg empty, ?_⟩
        rw [world_flush empty]
        exact (placed_makeTable ..).of_ticked
  | create level entries =>
      refine .inl ⟨_, rfl, ?_⟩
      rw [world_create]
      exact (placed_makeTable ..).of_ticked
  | remove path => exact .inr ⟨rfl, quiet (filing.files_remove path)⟩
  | openTable path mapped => exact .inr ⟨rfl, quiet (filing.files_open path mapped)⟩
  | readDir => exact .inr ⟨rfl, quiet filing.files_readDir⟩
  | readClock =>
      have same : filing.files (filing.now machine.world.world).2 ⊆
          filing.files machine.world.world :=
        (List.Perm.of_eq (filing.files_now machine.world.world)).subset
      exact .inr ⟨rfl, same, rfl⟩
  | engine change => exact .inr ⟨rfl, List.Subset.refl _, rfl⟩

end Stage

/-! ## When no path is reused -/

namespace Filed

open Filing

variable {filing : Filing World Table}

/-- No path has been reused, and each file has the name of a label. -/
structure Named (filing : Filing World Table) (filed : Filed World Table) : Prop where
  noneReused : filed.NoneReused
  named : ∀ name ∈ filing.files filed.machine.world.world, ∃ made ∈ filed.made, made.name = name

theorem Named.step {filed : Filed World Table} (named : filed.Named filing)
    {stage : Stage Table} (unclaimed : filed.Unclaimed filing stage) :
    (filed.step filing stage).Named filing := by
  rcases stage.run_cases filing filed.machine with ⟨label, labelled, placed⟩ | ⟨plain, quiet⟩
  · have fresh : label.name ∉ filing.files filed.machine.world.world := by
      intro present
      obtain ⟨made, member, same⟩ := named.named label.name present
      exact unclaimed label labelled made member (same ▸ present)
        (TableLabel.name_injective same)
    constructor
    · rw [NoneReused, Filed.step, placed.reused, note, if_neg fresh]
      exact named.noneReused
    · intro name present
      rw [Filed.step, labelled]
      rcases List.mem_cons.mp (placed.files present) with rfl | before
      · exact ⟨label, List.mem_cons_self, rfl⟩
      · obtain ⟨made, member, same⟩ := named.named name before
        exact ⟨made, List.mem_cons_of_mem _ member, same⟩
  · constructor
    · exact quiet.reused.trans named.noneReused
    · intro name present
      rw [Filed.step, plain]
      exact named.named name (quiet.files present)

/-- A directory that starts without files. -/
theorem named_start {machine : Machine World Table} (empty : filing.files machine.world = []) :
    (start machine).Named filing := by
  refine ⟨rfl, fun name present => ?_⟩
  rw [start, empty] at present
  cases present

/-- A stage that claims a label of its own finds no file, and one that does not, does. -/
theorem NoneReused.unclaimed {filed : Filed World Table} {stage : Stage Table}
    (noneReused : (filed.step filing stage).NoneReused) : filed.Unclaimed filing stage := by
  rintro label labelled made _ present rfl
  rcases stage.run_cases filing filed.machine with ⟨other, labelled', placed⟩ | ⟨plain, -⟩
  · rw [labelled, Option.some.injEq] at labelled'
    subst labelled'
    rw [NoneReused, Filed.step, placed.reused, note, if_pos present] at noneReused
    cases noneReused
  · rw [labelled] at plain
    cases plain

/-- In a directory that starts without files no build ever finds a file at its path
exactly when at each build no table whose file is there is of its level, second and
number. -/
theorem noneReused_iff_unclaimed (filing : Filing World Table)
    (machine : Machine World Table) (empty : filing.files machine.world = [])
    (stages : List (Stage Table)) :
    Runs.Throughout NoneReused (step filing) (start machine) stages ↔
      Runs.Guarded (Unclaimed filing) (step filing) (start machine) stages := by
  exact Runs.throughout_iff_guarded (fun _ named => named.noneReused)
    (fun _ _ named unclaimed => named.step unclaimed)
    (fun _ _ _ noneReused => noneReused.unclaimed) (named_start empty) stages

/-- One table a second is enough. -/
theorem unclaimed_of_later {filed : Filed World Table}
    (later : ∀ made ∈ filed.made, made.seconds < Stage.seconds filing filed.machine)
    (stage : Stage Table) : filed.Unclaimed filing stage := by
  rintro label labelled made member - rfl
  have before := later made member
  cases stage with
  | flush memtable =>
      by_cases empty : memtable.count = 0
      · rw [Stage.label, if_pos empty] at labelled
        cases labelled
      · rw [Stage.label, if_neg empty] at labelled
        cases labelled
        exact lt_irrefl _ before
  | create level entries =>
      cases labelled
      exact lt_irrefl _ before
  | _ => cases labelled

/-- A flush claims its path where no file of level 0 that this second has seen is numbered by
the start of the memtable and its writes together. -/
theorem unclaimed_flush_iff {filed : Filed World Table} {memtable : MemTable} {maxSize : Nat}
    {start : SequenceNumber} {calls : List MemTable.Call}
    (ran : MemTable.Call.applyAll (.withSequence maxSize start) calls = .ok memtable)
    (filled : memtable.count ≠ 0) :
    filed.Unclaimed filing (.flush memtable) ↔
      ∀ made ∈ filed.made, made.name ∈ filing.files filed.machine.world.world →
        made.level = 0 → made.seconds = Stage.seconds filing filed.machine →
          made.sequence ≠ start + UInt64.ofNat calls.length := by
  have number := MemTable.Call.currentSequence_applyAll ran
  have begun : (MemTable.withSequence maxSize start).currentSequence = start := rfl
  rw [begun] at number
  rw [Unclaimed, Stage.label, if_neg filled, number]
  simp only [Option.some.injEq, forall_eq']
  refine forall₃_congr fun made _ _ => ?_
  obtain ⟨level, seconds, sequence⟩ := made
  rw [Ne, TableLabel.mk.injEq, not_and, not_and]

end Filed

/-! ## A clock that moves on -/

namespace Filing

variable {filing : Filing World Table}

/-- The second that the next reading of the clock falls in. -/
def second (filing : Filing World Table) (world : World) : Nat :=
  (filing.now world).1 / 1000000

/-- Each reading of the clock falls in a later second than the one before, and no file
operation sets the clock back. -/
structure Spaced (filing : Filing World Table) : Prop where
  now : ∀ world, second filing world < second filing (filing.now world).2
  build : ∀ config path entries world,
    second filing world ≤ second filing (final (filing.buildFromVec config path entries world))
  open_ : ∀ path mapped world,
    second filing world ≤ second filing (final (filing.openTable path mapped world))
  remove : ∀ path world, second filing world ≤ second filing (final (filing.removeFile path world))
  readDir : ∀ world, second filing world ≤ second filing (final (filing.readDir world))

theorem Spaced.makeTable (spaced : filing.Spaced) (config : Config) (path : FileName)
    (entries : List Entry) (audited : Audited World) :
    second filing audited.world ≤
      second filing (final (filing.audited.makeTable config path entries audited)).world := by
  have builds : Maintains
      (fun reached : Audited World => second filing audited.world ≤ second filing reached.world)
      (filing.audited.makeTable config path entries) := by
    refine Ensures.bind (maintains_of_final fun reached later => ?_)
      fun _ => maintains_of_final fun reached later => ?_
    · rw [Filing.audited, final_unnoted, world_note]
      exact later.trans (spaced.build config path entries reached.world)
    · rw [Filing.audited, final_unnoted]
      exact later.trans (spaced.open_ path config.useMmap reached.world)
  exact builds.final le_rfl

end Filing

namespace Stage

variable {filing : Filing World Table}

/-- A stage does not set the clock back, and one that builds a table moves it on. -/
theorem seconds_run (spaced : filing.Spaced) (machine : Machine (Audited World) Table)
    (stage : Stage Table) :
    seconds filing machine ≤ seconds filing (stage.run filing machine) ∧
      ∀ label, stage.label filing machine = some label →
        label.seconds < seconds filing (stage.run filing machine) := by
  have built : ∀ config path entries, seconds filing machine <
      filing.second (final (filing.audited.makeTable config path entries
        (filing.ticked machine.world))).world :=
    fun config path entries => (spaced.now machine.world.world).trans_le
      (spaced.makeTable config path entries (filing.ticked machine.world))
  have worked : ∀ {α : Type} {action : EStateM Fault World α},
      (∀ world, filing.second world ≤ filing.second (final (action world))) →
      seconds filing machine ≤ filing.second (final (onWorld (Filing.unnoted action) machine :
        EStateM.Result _ _ α)).world.world := by
    intro α action later
    rw [final_onWorld]
    dsimp only
    rw [Filing.final_unnoted]
    exact later machine.world.world
  cases stage with
  | flush memtable =>
      rw [label, seconds]
      by_cases empty : memtable.count = 0
      · have same : (Stage.run filing machine (.flush memtable)).world = machine.world :=
          world_flush_of_empty empty machine
        rw [if_pos empty, seconds, same]
        exact ⟨le_rfl, fun _ labelled => by cases labelled⟩
      · rw [if_neg empty, seconds, world_flush empty]
        refine ⟨(built _ _ _).le, fun label labelled => ?_⟩
        cases labelled
        exact built _ _ _
  | create level entries =>
      rw [label, seconds, seconds, world_create]
      refine ⟨(built _ _ _).le, fun label labelled => ?_⟩
      cases labelled
      exact built _ _ _
  | remove path => exact ⟨worked (spaced.remove path), fun _ labelled => by cases labelled⟩
  | openTable path mapped =>
      exact ⟨worked (spaced.open_ path mapped), fun _ labelled => by cases labelled⟩
  | readDir => exact ⟨worked spaced.readDir, fun _ labelled => by cases labelled⟩
  | readClock => exact ⟨(spaced.now machine.world.world).le, fun _ labelled => by cases labelled⟩
  | engine change => exact ⟨le_rfl, fun _ labelled => by cases labelled⟩

end Stage

namespace Filed

variable {filing : Filing World Table}

/-- All tables were begun on before the second that it is now. -/
def Dated (filing : Filing World Table) (filed : Filed World Table) : Prop :=
  ∀ made ∈ filed.made, made.seconds < Stage.seconds filing filed.machine

theorem Dated.step (spaced : filing.Spaced) {filed : Filed World Table}
    (dated : filed.Dated filing) (stage : Stage Table) : (filed.step filing stage).Dated filing := by
  obtain ⟨later, labels⟩ := Stage.seconds_run spaced filed.machine stage
  intro made member
  rcases List.mem_append.mp member with new | old
  · exact labels made (Option.mem_toList.mp new)
  · exact (dated made old).trans_le later

/-- Where no two readings of the clock fall in one second, no path is reused. -/
theorem noneReused_of_spaced (spaced : filing.Spaced) (machine : Machine World Table)
    (empty : filing.files machine.world = []) (stages : List (Stage Table)) :
    (Runs.run (step filing) (start machine) stages).NoneReused := by
  have begun : (start machine).Named filing ∧ (start machine).Dated filing := by
    refine ⟨named_start empty, fun made member => ?_⟩
    cases member
  have kept : ∀ (filed : Filed World Table) (stage : Stage Table),
      filed.Named filing ∧ filed.Dated filing →
        (filed.step filing stage).Named filing ∧ (filed.step filing stage).Dated filing :=
    fun filed stage holds =>
      ⟨holds.1.step (unclaimed_of_later holds.2 stage), holds.2.step spaced stage⟩
  have never : Runs.Throughout NoneReused (step filing) (start machine) stages :=
    Runs.throughout_of_invariant (fun _ holds => holds.1.noneReused) kept begun stages
  exact never.finally

end Filed

/-! ## The calls of a process -/

/-- What one process after another does on a directory: open an engine, write and compact,
close it. -/
inductive DirectoryCall where
  | openEngine (config : Config)
  | step (turn : Step)
  | close

/-- What a call leaves, whatever it returns. -/
def DirectoryCall.run (platform : Platform World Table) (machine : Machine World Table) :
    DirectoryCall → Machine World Table
  | .openEngine config => final (Machine.openEngine platform config machine.world)
  | .step turn => final (turn.run platform machine)
  | .close => final (Machine.close platform machine)

namespace Stage

variable (filing : Filing World Table)

/-- The stages of an action. -/
abbrev Staged {α : Type} (action : Action (Audited World) Table α) : Prop :=
  Traced (Stage.run filing) action

variable {filing}

theorem staged_onEngine (change : StorageEngine Table → StorageEngine Table) :
    Staged filing (onEngine change) :=
  traced_of_event (.engine change) fun _ => rfl

theorem staged_reportError {action : Action (Audited World) Table Unit}
    (staged : Staged filing action) : Staged filing (reportError action) := by
  intro machine
  rw [final_reportError]
  exact staged machine

theorem staged_flushMemtable (memtable : MemTable) :
    Staged filing (flushMemtable filing.audited memtable) :=
  traced_of_event (.flush memtable) fun _ => rfl

theorem staged_createSstable (level : Nat) (entries : List Entry) :
    Staged filing (createSstable filing.audited level entries) :=
  traced_of_event (.create level entries) fun _ => rfl

theorem staged_flushExcess (fuel : Nat) : Staged filing (flushExcess filing.audited fuel) := by
  induction fuel with
  | zero => exact traced_pure _
  | succ fuel ih =>
      rw [flushExcess]
      apply traced_get_bind
      intro machine
      split
      · exact traced_pure _
      · exact .ite ((staged_onEngine _).bind fun _ =>
          (staged_flushMemtable _).bind fun _ => ih) (traced_pure _)

theorem staged_rotateMemtable : Staged filing (rotateMemtable filing.audited) := by
  have counting : Staged filing nextSequence := by
    apply traced_get_bind
    exact fun _ => (staged_onEngine _).bind fun _ => traced_pure _
  have swapping : Staged filing swapMemtable := by
    apply counting.bind
    intro sequence
    apply traced_get_bind
    exact fun _ => (staged_onEngine _).bind fun _ => traced_pure _
  apply swapping.bind
  intro old
  apply (staged_onEngine _).bind
  intro _
  apply traced_get_bind
  exact fun _ => staged_flushExcess _

theorem staged_writeMemtable (key : Key) (value : Option Value) :
    Staged filing (writeMemtable filing.audited key value) := by
  have clock : Staged filing (onWorld filing.audited.currentMicros) :=
    traced_of_event .readClock fun _ => rfl
  apply clock.bind
  intro micros
  apply traced_get_bind
  exact fun _ => (traced_lift _).bind fun _ => staged_onEngine _

theorem staged_write (write : Write) : Staged filing (write.run filing.audited) := by
  have rotating : Staged filing (checkRotateMemtable filing.audited) := by
    apply traced_get_bind
    exact fun _ => .ite staged_rotateMemtable (traced_pure _)
  intro machine
  rw [Write.run_apply]
  cases write.rejection machine.engine with
  | some failure => exact ⟨[], rfl⟩
  | none => exact (rotating.bind fun _ => staged_writeMemtable _ _) machine

theorem staged_createChunks (level targetSize : Nat) (entries current : List Entry)
    (currentSize : Nat) (sstables : List Table) :
    Staged filing
      (createChunks filing.audited level targetSize entries current currentSize sstables) := by
  induction entries generalizing current currentSize sstables with
  | nil =>
      rw [createChunks]
      exact .ite (traced_pure _) ((staged_createSstable _ _).bind fun _ => traced_pure _)
  | cons entry entries ih =>
      rw [createChunks]
      exact (traced_lift _).bind fun _ =>
        .ite ((staged_createSstable _ _).bind fun _ => ih _ _ _) (ih _ _ _)

theorem staged_compactInto (level : Nat) : Staged filing (compactInto filing.audited level) := by
  have merging : ∀ current next, Staged filing (mergeInto filing.audited level current next) := by
    intro current next
    apply (traced_lift _).bind
    intro merged
    apply Traced.ite (traced_pure _)
    apply traced_get_bind
    exact fun _ => (traced_lift _).bind fun _ => staged_createChunks _ _ _ _ _ _
  have deleting : ∀ tables, Staged filing (deleteOldFiles filing.audited tables) := by
    intro tables
    apply Traced.forM
    intro table
    exact staged_reportError (traced_of_event (.remove _) fun _ => rfl)
  apply traced_get_bind
  exact fun _ => .ite (traced_pure _) ((merging _ _).bind fun _ =>
    (staged_onEngine _).bind fun _ => deleting _)

theorem staged_backgroundCompaction :
    Staged filing (backgroundCompaction filing.audited) := by
  have levels : ∀ level, Staged filing (do
      let machine ← get
      let needed ← lift
        (machine.engine.levelNeedsCompaction filing.audited.toTableOps level)
      if needed then compactLevel filing.audited level else pure ()) := by
    intro level
    apply traced_get_bind
    exact fun _ => (traced_lift _).bind fun _ => .ite (staged_compactInto level) (traced_pure _)
  have compacting : Staged filing (runCompaction filing.audited) := by
    apply traced_get_bind
    exact fun _ => .ite ((staged_compactInto 0).bind fun _ => .forM levels) (.forM levels)
  apply traced_get_bind
  exact fun _ => .ite (staged_reportError compacting) (traced_pure _)

theorem staged_close : Staged filing (close filing.audited) := by
  apply traced_get_bind
  intro machine
  apply Traced.ite (traced_pure _)
  apply (staged_onEngine _).bind
  intro _
  apply (staged_onEngine _).bind
  intro _
  apply Traced.bind
  · exact .forM fun _ => staged_reportError (staged_flushMemtable _)
  · exact fun _ => .ite (staged_reportError (staged_flushMemtable _)) (traced_pure _)

theorem staged_loadFile (found : List (Nat × Table)) (name : FileName) :
    Staged filing (loadFile filing.audited found name) := by
  intro machine
  rw [loadFile]
  split
  · split
    · exact ⟨[], rfl⟩
    · refine ⟨[.openTable name machine.engine.config.useMmap], ?_⟩
      rw [Runs.run_cons, Runs.run_nil, Stage.run]
      split
      next ran => rw [ran]; rfl
      next ran => rw [ran]; rfl
      next ran => rw [ran]; rfl
  · exact ⟨[], rfl⟩

theorem staged_loadSstables : Staged filing (loadSstables filing.audited) := by
  have listing : Staged filing (onWorld filing.audited.readDir) :=
    traced_of_event .readDir fun _ => rfl
  apply listing.bind
  exact fun _ => (Traced.foldlM staged_loadFile _).bind fun _ => staged_onEngine _

end Stage

namespace DirectoryCall

/-- A call is done in stages. -/
theorem staged_run (filing : Filing World Table) (call : DirectoryCall)
    (machine : Machine (Audited World) Table) :
    ∃ stages, call.run filing.audited machine = Runs.run (Stage.run filing) machine stages := by
  cases call with
  | openEngine config =>
      rw [run, Machine.openEngine]
      cases config.validate with
      | error message => exact ⟨[.engine fun _ => .fresh config], rfl⟩
      | ok _ =>
          have staged : Stage.Staged filing (Machine.loadSstables filing.audited) :=
            Stage.staged_loadSstables
          obtain ⟨stages, loaded⟩ := staged { machine with engine := .fresh config }
          exact ⟨.engine (fun _ => .fresh config) :: stages, loaded⟩
  | step turn =>
      cases turn with
      | write write => exact Stage.staged_write write machine
      | background => exact Stage.staged_backgroundCompaction machine
  | close => exact Stage.staged_close machine

theorem machine_run_stages (filing : Filing World Table) (stages : List (Stage Table))
    (filed : Filed World Table) :
    (Runs.run (Filed.step filing) filed stages).machine =
      Runs.run (Stage.run filing) filed.machine stages := by
  induction stages generalizing filed with
  | nil => rfl
  | cons stage stages ih => exact ih _

/-- Whatever processes do on a directory is done in stages. -/
theorem exists_stages (filing : Filing World Table) (calls : List DirectoryCall)
    (filed : Filed World Table) :
    ∃ stages, (Runs.run (Filed.step filing) filed stages).machine =
      Runs.run (run filing.audited) filed.machine calls := by
  induction calls generalizing filed with
  | nil => exact ⟨[], rfl⟩
  | cons call calls ih =>
      obtain ⟨first, ran⟩ := call.staged_run filing filed.machine
      obtain ⟨later, rest⟩ := ih (Runs.run (Filed.step filing) filed first)
      refine ⟨first ++ later, ?_⟩
      rw [Runs.run_append, rest, machine_run_stages, ← ran]
      rfl

/-- Whatever processes do on a directory without files, no build finds a file at its path
if no two readings of the clock fall in one second. -/
theorem reused_of_spaced {filing : Filing World Table} (spaced : filing.Spaced)
    (machine : Machine World Table) (empty : filing.files machine.world = [])
    (calls : List DirectoryCall) :
    (Runs.run (run filing.audited) (Filed.start machine).machine calls).world.reused = [] := by
  obtain ⟨stages, ran⟩ := exists_stages filing calls (Filed.start machine)
  rw [← ran]
  exact Filed.noneReused_of_spaced spaced machine empty stages

end DirectoryCall

/-! ## The directory of the repository -/

namespace Disk

theorem mem_files_store {disk : Disk} {path name : FileName} {contents : Bytes}
    (present : name ∈ (disk.store path contents).files.map Prod.fst) :
    name ∈ path :: disk.files.map Prod.fst := by
  rcases List.mem_cons.mp present with rfl | kept
  · exact List.mem_cons_self
  · exact List.mem_cons_of_mem _ ((List.filter_sublist.map _).subset kept)

/-- The table files on disk, under their names. -/
def filing (external : External) (host : Host) : Filing Disk SSTableReader where
  toPlatform := platform external host
  files disk := disk.files.map Prod.fst
  files_now _ := rfl
  files_build := by
    intro config path entries disk name present
    simp only [platform, buildFromVec] at present
    split at present
    · exact mem_files_store present
    · exact mem_files_store present
  files_open := by
    intro path mapped disk
    simp only [platform, openTable, bind_eq, get_apply]
    cases disk.find path with
    | none => exact List.Subset.refl _
    | some contents =>
        dsimp only
        cases SSTableReader.openFile path contents mapped <;> exact List.Subset.refl _
  files_remove := by
    intro path disk
    simp only [platform, removeFile, bind_eq, get_apply]
    cases disk.find path with
    | none => exact List.Subset.refl _
    | some contents => exact (List.filter_sublist.map _).subset
  files_readDir _ := List.Subset.refl _

/-- The file operations of the repository read the clock and set nothing back. -/
theorem spaced_filing (external : External) {host : Host}
    (later : ∀ tick, host.clock tick / 1000000 < host.clock (tick + 1) / 1000000) :
    (filing external host).Spaced where
  now disk := later disk.ticks
  build := by
    intro config path entries disk
    change host.clock disk.ticks / 1000000 ≤ _
    simp only [filing, platform, buildFromVec]
    split
    · exact (later disk.ticks).le
    · exact (later disk.ticks).le
  open_ := by
    intro path mapped disk
    simp only [filing, platform, openTable, bind_eq, get_apply]
    cases disk.find path with
    | none => exact le_rfl
    | some contents =>
        dsimp only
        cases SSTableReader.openFile path contents mapped <;> exact le_rfl
  remove := by
    intro path disk
    simp only [filing, platform, removeFile, bind_eq, get_apply]
    cases disk.find path with
    | none => exact le_rfl
    | some contents => exact le_rfl
  readDir _ := le_rfl

/-- Nothing that processes do on a directory of the repository reuses a path, from no file on,
if no two readings of the clock fall in one second. -/
theorem reused_of_later (external : External) {host : Host}
    (later : ∀ tick, host.clock tick / 1000000 < host.clock (tick + 1) / 1000000)
    {machine : Machine Disk SSTableReader} (empty : machine.world.files = [])
    (calls : List DirectoryCall) :
    (Runs.run (DirectoryCall.run (filing external host).audited) (Filed.start machine).machine
      calls).world.reused = [] := by
  have none : (filing external host).files machine.world = [] := congrArg (List.map Prod.fst) empty
  exact DirectoryCall.reused_of_spaced (spaced_filing external later) machine none calls

/-- A clock that stays within one second, and `read_dir` in the order of creation. -/
def withinOneSecond : Host where
  clock tick := 5000000 + tick
  order names := names.reverse
  lists := List.reverse_perm

/-- Two small values fill a memtable, and so does one larger value. -/
def smallMemtables : Config :=
  { memtableSizeThreshold := 30, compression := .none }

/-- An engine on an empty directory. -/
def emptyDirectory : Machine Disk SSTableReader where
  engine := .fresh smallMemtables
  world := { files := [], ticks := 0 }

end Disk

/-- A flush and a compaction name their tables by different levels. -/
theorem Filed.noneReused_iff_unclaimed_flush_and_create :
    Runs.Throughout Filed.NoneReused (Filed.step (Disk.filing .plain Disk.withinOneSecond))
      (Filed.start Disk.emptyDirectory)
      [.flush ((MemTable.withSequence 30 6).insertEntry ⟨[1], some [10], 5, 6⟩),
        .create 1 [⟨[1], some [10], 5, 6⟩]] := by
  apply (Filed.noneReused_iff_unclaimed _ _ rfl _).mpr
  refine ⟨?_, ?_, trivial⟩
  · rintro label - made member
    cases member
  · rintro label labelled made member - rfl
    cases labelled
    simp [Filed.step, Filed.start, Stage.label] at member

/-- The first memtable takes two puts and counts from 0, the second takes one and counts
from 1: within a second both are flushed to the same path. -/
theorem DirectoryCall.second_flush_reuses_path :
    ¬ ∀ calls : List DirectoryCall,
      (Runs.run (DirectoryCall.run (Disk.filing .plain Disk.withinOneSecond).audited)
        (Filed.start Disk.emptyDirectory).machine calls).world.reused = [] := by
  intro never
  have found := never [.openEngine Disk.smallMemtables, .step (.write (.put [1] [10])),
    .step (.write (.put [2] [10])), .step (.write (.put [3] (List.replicate 20 0))), .close]
  revert found
  decide +kernel

end JustDb

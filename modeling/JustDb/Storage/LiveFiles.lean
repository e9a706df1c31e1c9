import JustDb.Storage.TablePaths
import JustDb.Storage.Deeds
import JustDb.Storage.Chunks
import JustDb.Storage.CrashRecovery

/-!
# The files of the tables in use

An engine holds tables whose files it or an earlier engine has made, and compactions
remove files by their paths.  As long as no build finds a file at its path, what is removed
or replaced is never the file of a table in use: not by a compaction that fails half way,
not by one that goes on after a removal has failed, and not over any number of engines on
one directory.
-/

namespace JustDb

open Stateful Machine

variable {World Table : Type}

/-- A filing platform on which a table keeps its file until there is a build or a removal at
its path.  `Stays` says that the file of a table is there and holds it. -/
structure Shelving (World Table : Type) extends Filing World Table where
  Stays : World → Table → Prop
  filed : ∀ {world table}, Stays world table → path table ∈ files world
  stays_now : ∀ {world table}, Stays world table → Stays (now world).2 table
  stays_build : ∀ config name entries {world table}, Stays world table → path table ≠ name →
    Stays (final (buildFromVec config name entries world)) table
  stays_open : ∀ name mapped {world table}, Stays world table →
    Stays (final (openTable name mapped world)) table
  stays_remove : ∀ name {world table}, Stays world table → path table ≠ name →
    Stays (final (removeFile name world)) table
  stays_readDir : ∀ {world table}, Stays world table → Stays (final (readDir world)) table
  opened : ∀ {name mapped world table reached}, openTable name mapped world = .ok table reached →
    path table = name ∧ Stays reached table

namespace Shelving

variable {shelving : Shelving World Table}

/-! ## Steps of the world -/

/-- Nothing is built, and every table keeps its file. -/
structure Calm (shelving : Shelving World Table) (before after : Audited World) : Prop where
  reused : after.reused = before.reused
  stays : ∀ {table}, shelving.Stays before.world table → shelving.Stays after.world table

/-- There is a build at a path.  Unless a path is reused, there has been no file, and the
tables of other paths keep theirs. -/
structure Builds (shelving : Shelving World Table) (name : FileName)
    (before after : Audited World) : Prop where
  fresh : after.reused = [] → before.reused = [] ∧ name ∉ shelving.files before.world
  stays : ∀ {table}, shelving.Stays before.world table → shelving.path table ≠ name →
    shelving.Stays after.world table

theorem Calm.refl (shelving : Shelving World Table) (audited : Audited World) :
    shelving.Calm audited audited :=
  ⟨rfl, id⟩

theorem Calm.trans {first second third : Audited World} (left : shelving.Calm first second)
    (right : shelving.Calm second third) : shelving.Calm first third :=
  ⟨right.reused.trans left.reused, fun stays => right.stays (left.stays stays)⟩

theorem Builds.trans_calm {name : FileName} {first second third : Audited World}
    (builds : shelving.Builds name first second) (calm : shelving.Calm second third) :
    shelving.Builds name first third :=
  ⟨fun none => builds.fresh (calm.reused.symm.trans none),
    fun stays other => calm.stays (builds.stays stays other)⟩

theorem calm_unnoted {α : Type} (action : EStateM Fault World α)
    (stays : ∀ {world table}, shelving.Stays world table →
      shelving.Stays (final (action world)) table) (audited : Audited World) :
    shelving.Calm audited (final (Filing.unnoted action audited)) := by
  rw [Filing.final_unnoted]
  exact ⟨rfl, stays⟩

theorem calm_openTable (shelving : Shelving World Table) (name : FileName) (mapped : Bool)
    (audited : Audited World) :
    shelving.Calm audited (final (shelving.audited.openTable name mapped audited)) :=
  calm_unnoted (shelving.openTable name mapped) (shelving.stays_open _ _) audited

/-- A table that is opened is of the path it was opened at, and has its file. -/
theorem opened_audited {name : FileName} {mapped : Bool} {table : Table}
    {audited reached : Audited World}
    (ran : shelving.audited.openTable name mapped audited = .ok table reached) :
    shelving.path table = name ∧ shelving.Stays reached.world table := by
  change Filing.unnoted (shelving.openTable name mapped) audited = .ok table reached at ran
  rw [Filing.unnoted] at ran
  cases opened : shelving.openTable name mapped audited.world with
  | error fault world =>
      rw [opened] at ran
      cases ran
  | ok reader world =>
      rw [opened] at ran
      cases ran
      exact shelving.opened opened

theorem calm_ticked (audited : Audited World) :
    shelving.Calm audited (shelving.ticked audited) :=
  ⟨rfl, shelving.stays_now⟩

/-- What a build leaves at its path, and what a table that is made is. -/
theorem builds_makeTable (shelving : Shelving World Table) (config : Config) (name : FileName)
    (entries : List Entry) (audited : Audited World) :
    match shelving.audited.makeTable config name entries audited with
    | .ok table reached => shelving.Builds name audited reached ∧
        shelving.path table = name ∧ shelving.Stays reached.world table
    | .error _ reached => shelving.Builds name audited reached := by
  have built : shelving.Builds name audited
      (final (shelving.audited.buildFromVec config name entries audited)) := by
    rw [Filing.audited, Filing.final_unnoted]
    constructor
    · intro none
      change (shelving.note name audited).reused = [] at none
      rw [Filing.note] at none
      split at none
      · cases none
      next missing => exact ⟨none, missing⟩
    · intro table stays other
      rw [Filing.world_note]
      exact shelving.stays_build config name entries stays other
  rw [Platform.makeTable, bind_eq]
  cases ran : shelving.audited.buildFromVec config name entries audited with
  | error fault reached =>
      rw [ran] at built
      exact built
  | ok metadata middle =>
      rw [ran] at built
      have whole := built.trans_calm (shelving.calm_openTable name config.useMmap middle)
      dsimp only
      cases opened : shelving.audited.openTable name config.useMmap middle with
      | error fault reached =>
          rw [opened] at whole
          exact whole
      | ok table reached =>
          rw [opened] at whole
          exact ⟨whole, opened_audited opened⟩

/-! ## Shelves of tables -/

/-- Tables in use are on shelves: each has its file, and no path is on two shelves. -/
structure Shelved {Shelf : Type} (shelving : Shelving World Table) (world : World)
    (shelves : Shelf → List Table) : Prop where
  stays : ∀ {shelf table}, table ∈ shelves shelf → shelving.Stays world table
  apart : ∀ {shelf other table twin}, table ∈ shelves shelf → twin ∈ shelves other →
    shelving.path table = shelving.path twin → shelf = other

section Shelves

variable {Shelf Room : Type} {shelves more : Shelf → List Table} {moved : Room → List Table}
  {before after : World}

theorem Shelved.later (shelved : shelving.Shelved before shelves)
    (stays : ∀ {table}, shelving.Stays before table → shelving.Stays after table) :
    shelving.Shelved after shelves :=
  ⟨fun member => stays (shelved.stays member), shelved.apart⟩

/-- Tables may be dropped, and shelves carried to others. -/
theorem Shelved.carry (shelved : shelving.Shelved before shelves) (target : Shelf → Room)
    (found : ∀ room, ∀ held ∈ moved room, ∃ shelf, held ∈ shelves shelf ∧ target shelf = room) :
    shelving.Shelved before moved := by
  constructor
  · intro room held member
    obtain ⟨shelf, source, -⟩ := found room held member
    exact shelved.stays source
  · intro room other held twin member twinMember same
    obtain ⟨first, source, rfl⟩ := found room held member
    obtain ⟨second, twinSource, rfl⟩ := found other twin twinMember
    rw [shelved.apart source twinSource same]

/-- One more table, of a path that is not on the shelves. -/
theorem Shelved.add (shelved : shelving.Shelved before shelves) (shelf : Shelf) {table : Table}
    (stays : shelving.Stays before table)
    (new : ∀ other, ∀ old ∈ shelves other, shelving.path old ≠ shelving.path table)
    (found : ∀ other, ∀ held ∈ more other,
      held ∈ shelves other ∨ other = shelf ∧ held = table) :
    shelving.Shelved before more := by
  constructor
  · intro other held member
    rcases found other held member with old | ⟨-, rfl⟩
    · exact shelved.stays old
    · exact stays
  · intro first second held twin member twinMember same
    rcases found first held member with old | ⟨rfl, rfl⟩ <;>
      rcases found second twin twinMember with oldTwin | ⟨rfl, rfl⟩
    · exact shelved.apart old oldTwin same
    · exact absurd same (new first held old)
    · exact absurd same.symm (new second twin oldTwin)
    · rfl

/-- A build at a path that had no file disturbs no table on the shelves. -/
theorem Builds.shelved {name : FileName} {first last : Audited World}
    (builds : shelving.Builds name first last) (none : last.reused = [])
    (shelved : first.reused = [] → shelving.Shelved first.world shelves) :
    shelving.Shelved last.world shelves ∧
      ∀ shelf, ∀ table ∈ shelves shelf, shelving.path table ≠ name := by
  obtain ⟨clean, missing⟩ := builds.fresh none
  have shelved := shelved clean
  have other : ∀ shelf, ∀ table ∈ shelves shelf, shelving.path table ≠ name := by
    rintro shelf table member rfl
    exact missing (shelving.filed (shelved.stays member))
  exact ⟨⟨fun member => builds.stays (shelved.stays member) (other _ _ member), shelved.apart⟩,
    other⟩

end Shelves

/-- The tables of an engine by their level, and those that a compaction has made so far. -/
def shelves (made : List Table) (engine : StorageEngine Table) : Option Nat → List Table
  | none => made
  | some level => engine.tables level

/-- As long as no path is reused, all tables in use are shelved. -/
def Safe (shelving : Shelving World Table) (made : List Table)
    (machine : Machine (Audited World) Table) : Prop :=
  machine.world.reused = [] →
    shelving.Shelved machine.world.world (shelves made machine.engine)

section Safe

variable {made : List Table} {machine : Machine (Audited World) Table}

theorem Safe.calm (safe : shelving.Safe made machine) {audited : Audited World}
    (calm : shelving.Calm machine.world audited) :
    shelving.Safe made { machine with world := audited } :=
  fun none => (safe (calm.reused.symm.trans none)).later calm.stays

theorem Safe.change (safe : shelving.Safe made machine) {engine : StorageEngine Table}
    (same : engine.sstables = machine.engine.sstables) :
    shelving.Safe made { machine with engine } := by
  have tables : shelves made engine = shelves made machine.engine := by
    funext shelf
    cases shelf with
    | none => rfl
    | some level => rw [shelves, shelves, StorageEngine.tables, same, StorageEngine.tables]
  rw [Safe, tables]
  exact safe

/-- Tables that are made and not taken into use may be forgotten. -/
theorem Safe.forget (safe : shelving.Safe made machine) : shelving.Safe [] machine := by
  refine fun none => (safe none).carry id fun shelf held member => ⟨shelf, ?_, rfl⟩
  cases shelf with
  | none => cases member
  | some level => exact member

/-- The outcome of making one more table. -/
theorem Safe.make (safe : shelving.Safe made machine) (config : Config) (name : FileName)
    (entries : List Entry) :
    match shelving.audited.makeTable config name entries machine.world with
    | .ok table audited => shelving.Safe (made ++ [table]) { machine with world := audited }
    | .error _ audited => shelving.Safe made { machine with world := audited } := by
  have built := shelving.builds_makeTable config name entries machine.world
  cases ran : shelving.audited.makeTable config name entries machine.world with
  | error fault audited =>
      rw [ran] at built
      exact fun none => (built.shelved none safe).1
  | ok table audited =>
      rw [ran] at built
      obtain ⟨builds, rfl, stays⟩ := built
      intro clean
      obtain ⟨shelved, new⟩ := builds.shelved clean safe
      refine shelved.add none stays new fun shelf held member => ?_
      cases shelf with
      | none => simpa [shelves] using member
      | some level => exact .inl member

theorem maintains_onWorld {α : Type} {action : EStateM Fault (Audited World) α}
    (calm : ∀ audited, shelving.Calm audited (final (action audited))) :
    Maintains (shelving.Safe made) (onWorld action) := by
  apply maintains_of_final
  intro machine safe
  rw [final_onWorld]
  exact safe.calm (calm machine.world)

theorem maintains_onEngine {change : StorageEngine Table → StorageEngine Table}
    (same : ∀ engine, (change engine).sstables = engine.sstables) :
    Maintains (shelving.Safe made)
      (onEngine change : Action (Audited World) Table Unit) :=
  fun machine safe => safe.change (same machine.engine)

/-! ## Flushes and writes -/

/-- A table that is made goes to the end of level 0. -/
theorem Safe.pushLevel0 {table : Table} (safe : shelving.Safe [table] machine) :
    shelving.Safe [] { machine with engine := machine.engine.pushLevel0 table } := by
  refine fun clean => (safe clean).carry (fun shelf => some (shelf.getD 0)) ?_
  intro room held member
  cases room with
  | none => cases member
  | some level =>
      rw [shelves, StorageEngine.pushLevel0, StorageEngine.tables_setLevel] at member
      split at member
      next first =>
        subst first
        rcases List.mem_append.mp member with old | new
        · exact ⟨some 0, old, rfl⟩
        · exact ⟨none, new, rfl⟩
      next => exact ⟨some level, member, rfl⟩

theorem maintains_flushMemtable (memtable : MemTable) :
    Maintains (shelving.Safe []) (flushMemtable shelving.audited memtable) := by
  apply maintains_of_final
  intro machine safe
  rw [flushMemtable_apply]
  by_cases empty : memtable.count = 0
  · rw [Platform.flushTable, if_pos empty]
    exact safe
  · have made := (safe.calm (calm_ticked machine.world)).make machine.engine.config
      (sstableName 0 ((shelving.now machine.world.world).1 / 1000000) memtable.currentSequence)
      memtable.entryList
    rw [Platform.flushTable, if_neg empty, bind_of_ok (Filing.currentMicros_audited _), bind_eq]
    dsimp only at made
    split at made
    next table audited built =>
      rw [built]
      exact made.pushLevel0
    next fault audited built =>
      rw [built]
      exact made

theorem maintains_flushExcess (fuel : Nat) :
    Maintains (shelving.Safe []) (flushExcess shelving.audited fuel) := by
  induction fuel with
  | zero => exact ensures_pure ()
  | succ fuel ih =>
      refine ensures_get_bind fun machine _ => ?_
      split
      · exact ensures_pure ()
      · exact .ite (Ensures.bind (maintains_onEngine fun _ => rfl) fun _ =>
          (maintains_flushMemtable _).bind fun _ => ih) (ensures_pure ())

/-- A write changes the tables and the files through flushes only. -/
theorem maintains_write (write : Write) :
    Maintains (shelving.Safe []) (write.run shelving.audited) := by
  have rotating : Maintains (shelving.Safe []) (checkRotateMemtable shelving.audited) := by
    refine ensures_get_bind fun machine _ => .ite (maintains_of_final ?_) (ensures_pure ())
    intro machine safe
    rw [rotateMemtable_apply]
    exact (maintains_flushExcess _).final (safe.change rfl)
  have writing : Maintains (shelving.Safe [])
      (writeMemtable shelving.audited write.key write.value) :=
    (maintains_onWorld calm_ticked).bind fun _ => ensures_get_bind fun _ _ =>
      (ensures_lift fun _ _ _ safe => safe).bind fun _ => maintains_onEngine fun _ => rfl
  intro machine safe
  rw [Write.run_apply]
  cases write.rejection machine.engine with
  | some failure => exact safe
  | none => exact (rotating.bind fun _ => writing) machine safe

theorem maintains_close : Maintains (shelving.Safe []) (close shelving.audited) := by
  refine ensures_get_bind fun machine _ => .ite (ensures_pure ()) ?_
  have flushing : ∀ memtable, Maintains (shelving.Safe [])
      (reportError (flushMemtable shelving.audited memtable)) :=
    fun memtable => maintains_reportError (maintains_flushMemtable memtable)
  exact Ensures.bind (maintains_onEngine fun _ => rfl) fun _ =>
    Ensures.bind (maintains_onEngine fun _ => rfl) fun _ =>
      Ensures.bind (.forM fun memtable _ => flushing memtable) fun _ =>
        .ite (flushing _) (ensures_pure ())

/-! ## Compactions -/

theorem Safe.createSstable (safe : shelving.Safe made machine) (level : Nat)
    (entries : List Entry) :
    match createSstable shelving.audited level entries machine with
    | .ok table reached => shelving.Safe (made ++ [table]) reached
    | .error _ reached => shelving.Safe made reached := by
  let numbered : Machine (Audited World) Table :=
    { engine := machine.engine.setCounter (machine.engine.sequenceCounter + 1),
      world := shelving.ticked machine.world }
  have ready : shelving.Safe made numbered := (safe.calm (calm_ticked machine.world)).change rfl
  have outcome := ready.make numbered.engine.config (sstableName level
    ((shelving.now machine.world.world).1 / 1000000) machine.engine.sequenceCounter) entries
  have created : Machine.createSstable shelving.audited level entries machine =
      onWorld (shelving.audited.makeTable numbered.engine.config (sstableName level
        ((shelving.now machine.world.world).1 / 1000000) machine.engine.sequenceCounter) entries)
        numbered := rfl
  rw [created, onWorld]
  split at outcome
  next built => rw [built]; exact outcome
  next built => rw [built]; exact outcome

/-- The tables of a compaction are shelved apart from those in use. -/
theorem Safe.makesEach (safe : shelving.Safe made machine) {level : Nat}
    {pieces : List (List Entry)}
    {outcome : EStateM.Result Fault (Machine (Audited World) Table) (List Table)} :
    MakesEach shelving.audited level pieces made machine outcome →
      match outcome with
      | .ok tables reached => shelving.Safe tables reached
      | .error _ reached => shelving.Safe [] reached := by
  intro makes
  induction makes with
  | done => exact safe
  | overflowed => exact safe.forget
  | @failed piece _ _ _ _ _ created =>
      have kept := safe.createSstable level piece
      rw [created] at kept
      exact kept.forget
  | @made piece _ _ _ _ _ _ created _ ih =>
      have kept := safe.createSstable level piece
      rw [created] at kept
      exact ih kept

theorem Safe.mergeInto (safe : shelving.Safe [] machine) (level : Nat)
    (currentTables nextTables : List Table) :
    match mergeInto shelving.audited level currentTables nextTables machine with
    | .ok tables reached => shelving.Safe tables reached
    | .error _ reached => shelving.Safe [] reached := by
  rw [Machine.mergeInto, bind_eq]
  cases StorageEngine.mergeSstables shelving.audited.toTableOps currentTables nextTables with
  | error fault => exact safe
  | ok entries =>
      dsimp only [lift_ok]
      rw [createSstablesForLevel]
      by_cases empty : entries.isEmpty = true
      · rw [if_pos empty]
        exact safe
      · rw [if_neg empty, bind_of_ok (get_apply _), bind_eq]
        cases machine.engine.config.targetSize (level + 1) with
        | error fault => exact safe
        | ok targetSize =>
            dsimp only [lift_ok]
            exact safe.makesEach (makesEach_createChunks rfl)

/-- Where the tables of an engine come from after the swap: none is from the two levels that
were merged. -/
theorem mem_shelves_swapped {engine : StorageEngine Table} {level : Nat} {room : Option Nat}
    {held : Table}
    (member : held ∈ shelves [] ((engine.setLevel level []).setLevel (level + 1) made) room) :
    ∃ shelf, held ∈ shelves made engine shelf ∧ some (shelf.getD (level + 1)) = room ∧
      shelf ≠ some level ∧ shelf ≠ some (level + 1) := by
  cases room with
  | none => cases member
  | some other =>
      rw [shelves, StorageEngine.tables_setLevel, StorageEngine.tables_setLevel] at member
      split at member
      next next =>
        subst next
        exact ⟨none, member, rfl, nofun, nofun⟩
      next below =>
        split at member
        · cases member
        next apart =>
          exact ⟨some other, member, rfl, fun same => apart (Option.some.inj same),
            fun same => below (Option.some.inj same)⟩

/-- Removing files whose paths are on no shelf. -/
theorem maintains_deleteOldFiles {tables : List Table} {engine : StorageEngine Table}
    {reused : List FileName}
    (unused : reused = [] → ∀ table ∈ tables, ∀ shelf, ∀ held ∈ shelves [] engine shelf,
      shelving.path held ≠ shelving.path table) :
    Maintains (fun machine : Machine (Audited World) Table => machine.engine = engine ∧
        machine.world.reused = reused ∧ shelving.Safe [] machine)
      (deleteOldFiles shelving.audited tables) := by
  refine Ensures.forM fun table member => maintains_reportError (maintains_of_final ?_)
  rintro machine ⟨rfl, rfl, safe⟩
  have removed : final (onWorld
      (shelving.audited.removeFile (shelving.audited.path table)) machine) =
      { machine with world := { machine.world with
          world := final (shelving.removeFile (shelving.path table) machine.world.world) } } := by
    rw [final_onWorld]
    exact congrArg (Machine.mk machine.engine) (Filing.final_unnoted _ _)
  rw [removed]
  refine ⟨rfl, rfl, fun clean => ?_⟩
  have shelved := safe clean
  exact ⟨fun held => shelving.stays_remove _ (shelved.stays held)
    (unused clean table member _ _ held), shelved.apart⟩

theorem maintains_compactInto (level : Nat) :
    Maintains (shelving.Safe []) (compactInto shelving.audited level) := by
  apply maintains_of_final
  intro machine safe
  rw [compactInto, bind_of_ok (get_apply machine)]
  by_cases empty : (machine.engine.tables level).isEmpty = true
  · rw [if_pos empty]
    exact safe
  · rw [if_neg empty]
    have merged := safe.mergeInto level (machine.engine.tables level)
      (machine.engine.tables (level + 1))
    rw [bind_eq]
    split at merged
    next made reached ran =>
      rw [ran]
      have kept : reached.engine.tables = machine.engine.tables :=
        (keeps_mergeInto shelving.audited StorageEngine.tables (fun _ _ => rfl) level _ _).of_ok ran
      dsimp only
      rw [swapIn, bind_of_ok (onEngine_apply _ _)]
      have unused : reached.world.reused = [] →
          ∀ table ∈ machine.engine.tables level ++ machine.engine.tables (level + 1),
          ∀ shelf, ∀ held ∈ shelves []
            ((reached.engine.setLevel level []).setLevel (level + 1) made) shelf,
          shelving.path held ≠ shelving.path table := by
        intro clean table member shelf held source same
        obtain ⟨first, origin, -, notCurrent, notNext⟩ := mem_shelves_swapped source
        have apart : ∀ old, table ∈ shelves made reached.engine (some old) → first = some old :=
          fun old member => (merged clean).apart origin member same
        rw [← kept] at member
        rcases List.mem_append.mp member with current | next
        · exact notCurrent (apart level current)
        · exact notNext (apart (level + 1) next)
      have swapped : shelving.Safe [] { reached with
          engine := (reached.engine.setLevel level []).setLevel (level + 1) made } := by
        refine fun clean => (merged clean).carry (fun shelf => some (shelf.getD (level + 1))) ?_
        intro room held member
        obtain ⟨shelf, source, target, -⟩ := mem_shelves_swapped member
        exact ⟨shelf, source, target⟩
      refine ((maintains_deleteOldFiles unused).final ?_).2.2
      exact ⟨rfl, rfl, swapped⟩
    next fault reached ran =>
      rw [ran]
      exact merged

end Safe

/-! ## Opening -/

/-- What loading has found so far: tables with their files, each at the level of its name. -/
def Loaded (shelving : Shelving World Table) (world : World) (found : List (Nat × Table)) :
    Prop :=
  ∀ item ∈ found, shelving.Stays world item.2 ∧
    parseLevelFromFilename (shelving.path item.2) = some item.1

section Loading

variable {machine : Machine (Audited World) Table} {found : List (Nat × Table)}

theorem Loaded.loadFile (loaded : shelving.Loaded machine.world.world found) (name : FileName) :
    match loadFile shelving.audited found name machine with
    | .ok more reached => shelving.Calm machine.world reached.world ∧
        shelving.Loaded reached.world.world more
    | .error _ reached => shelving.Calm machine.world reached.world := by
  have calm := shelving.calm_openTable name machine.engine.config.useMmap machine.world
  have loads := loads_loadFile shelving.audited found name machine
  generalize Machine.loadFile shelving.audited found name machine = outcome at loads
  cases loads with
  | passed => exact ⟨.refl _ _, loaded⟩
  | opened parsed ran =>
      obtain ⟨audited, opened, rfl⟩ := onWorld_eq_ok.mp ran
      rw [opened] at calm
      obtain ⟨named, stays⟩ := opened_audited opened
      refine ⟨calm, fun item member => ?_⟩
      rcases List.mem_append.mp member with old | new
      · exact ⟨calm.stays (loaded item old).1, (loaded item old).2⟩
      · rw [List.mem_singleton.mp new, named]
        exact ⟨stays, parsed⟩
  | reported ran =>
      obtain ⟨audited, failed, rfl⟩ := onWorld_eq_error.mp ran
      rw [failed] at calm
      exact ⟨calm, fun item member =>
        ⟨calm.stays (loaded item member).1, (loaded item member).2⟩⟩
  | panicked ran =>
      obtain ⟨audited, failed, rfl⟩ := onWorld_eq_error.mp ran
      rw [failed] at calm
      exact calm

theorem Loaded.foldlM (machine : Machine (Audited World) Table)
    (loaded : shelving.Loaded machine.world.world found) (names : List FileName) :
    match names.foldlM (Machine.loadFile shelving.audited) found machine with
    | .ok more reached => shelving.Calm machine.world reached.world ∧
        shelving.Loaded reached.world.world more
    | .error _ reached => shelving.Calm machine.world reached.world := by
  induction names generalizing found machine with
  | nil => exact ⟨.refl _ _, loaded⟩
  | cons name names ih =>
      have first := loaded.loadFile name
      rw [List.foldlM_cons, bind_eq]
      cases ran : Machine.loadFile shelving.audited found name machine with
      | error fault reached =>
          rw [ran] at first
          exact first
      | ok more reached =>
          rw [ran] at first
          have rest := ih reached first.2
          dsimp only
          split at rest
          next ranRest =>
            rw [ranRest]
            exact ⟨first.1.trans rest.1, rest.2⟩
          next ranRest =>
            rw [ranRest]
            exact first.1.trans rest

/-- A newly opened engine has shelved tables; one that does not open leaves all files. -/
theorem loadSstables_cases (shelving : Shelving World Table)
    (machine : Machine (Audited World) Table) :
    match loadSstables shelving.audited machine with
    | .ok _ reached => shelving.Safe [] reached
    | .error _ reached => shelving.Calm machine.world reached.world := by
  have listing : shelving.Calm machine.world
      (final (Filing.unnoted shelving.readDir machine.world)) :=
    calm_unnoted _ shelving.stays_readDir _
  have listed : shelving.audited.readDir = Filing.unnoted shelving.readDir := rfl
  rw [loadSstables, bind_eq, onWorld, listed]
  cases ran : Filing.unnoted shelving.readDir machine.world with
  | error fault audited =>
      rw [ran] at listing
      exact listing
  | ok names audited =>
      rw [ran] at listing
      have none : shelving.Loaded audited.world ([] : List (Nat × Table)) := by simp [Loaded]
      have loading := none.foldlM { machine with world := audited } names
      dsimp only
      rw [bind_eq]
      split at loading
      next found reached ran =>
        rw [ran]
        have placed : ∀ {shelf table}, table ∈ shelves [] { reached.engine with
            sstables := levelsOf shelving.audited.toTableOps found } shelf →
            shelving.Stays reached.world.world table ∧
              parseLevelFromFilename (shelving.path table) = shelf := by
          intro shelf table member
          cases shelf with
          | none => cases member
          | some level => exact loading.2 _ (mem_of_mem_levelsOf member)
        exact fun _ => ⟨fun member => (placed member).1, fun member twin same =>
          (placed member).2.symm.trans ((congrArg _ same).trans (placed twin).2)⟩
      next fault reached ran =>
        rw [ran]
        exact listing.trans loading

end Loading

/-! ## Runs -/

theorem Safe.perform {machine : Machine (Audited World) Table} (safe : shelving.Safe [] machine)
    (deed : Deed) : shelving.Safe [] (deed.perform shelving.audited machine) := by
  cases deed with
  | write call => exact (maintains_write call).final safe
  | background => exact (maintains_background maintains_compactInto).final safe
  | close => exact maintains_close.final safe
  | reopen config =>
      rw [Deed.perform, Deed.run]
      unfold openEngine
      cases config.validate with
      | error message => exact safe
      | ok _ =>
          have opened := shelving.loadSstables_cases
            { engine := .fresh config, world := machine.world }
          dsimp only
          split at opened
          next ran =>
            rw [ran]
            exact opened
          next ran =>
            rw [ran]
            exact safe.calm opened

/-- The engine starts with no tables. -/
theorem safe_fresh (shelving : Shelving World Table) (config : Config)
    (audited : Audited World) :
    shelving.Safe [] { engine := .fresh config, world := audited } := by
  have none : ∀ {shelf table}, table ∉ shelves [] (.fresh config : StorageEngine Table) shelf := by
    intro shelf table member
    cases shelf <;> cases member
  exact fun _ => ⟨fun member => absurd member none, fun member => absurd member none⟩

theorem safe_run (shelving : Shelving World Table) (config : Config) (audited : Audited World)
    (deeds : List Deed) :
    shelving.Safe [] (Runs.run (Deed.perform shelving.audited)
      { engine := .fresh config, world := audited } deeds) :=
  (Runs.throughout_of_invariant (fun _ => id) (fun _ deed safe => safe.perform deed)
    (shelving.safe_fresh config audited) deeds).finally

/-- Over any run of writes, background turns, closes and reopenings, as long as no build has
found a file at its path, every table in use has its own file still: whatever fails and
wherever a compaction stops, it removes no file that a table in use needs. -/
theorem live_tables_stay (shelving : Shelving World Table) (config : Config) (world : World)
    (deeds : List Deed)
    (unused : (Runs.run (Deed.perform shelving.audited)
      { engine := .fresh config, world := { world, reused := [] } } deeds).world.reused = []) :
    let reached := Runs.run (Deed.perform shelving.audited)
      { engine := .fresh config, world := { world, reused := [] } } deeds
    (∀ level, ∀ table ∈ reached.engine.tables level,
        shelving.Stays reached.world.world table) ∧
      ∀ level, ∀ table ∈ reached.engine.tables level,
        ∀ other, ∀ twin ∈ reached.engine.tables other,
          shelving.path table = shelving.path twin → level = other := by
  intro reached
  have shelved : shelving.Shelved reached.world.world (shelves [] reached.engine) :=
    shelving.safe_run config { world, reused := [] } deeds unused
  have placed : ∀ {level table}, table ∈ reached.engine.tables level →
      table ∈ shelves [] reached.engine (some level) := id
  exact ⟨fun level table member => shelved.stays (placed member),
    fun level table member other twin twinMember same =>
      Option.some.inj (shelved.apart (placed member) (placed twinMember) same)⟩

end Shelving

/-! ## The table files of the repository -/

theorem find?_filter_ne {File : Type} (path : File → FileName) {files : List File}
    {name removed : FileName} (other : name ≠ removed) :
    ((files.filter fun file => path file ≠ removed).find? fun file => path file = name) =
      files.find? fun file => path file = name := by
  rw [List.find?_filter]
  congr 1
  funext file
  by_cases here : path file = name
  · simp [here, other]
  · simp [here]

namespace SSTableReader

/-- An open table knows the path it was opened at. -/
theorem path_of_openFile {path : FileName} {contents : Bytes} {mapped : Bool}
    {reader : SSTableReader} (opened : openFile path contents mapped = .ok reader) :
    reader.path = path := by
  obtain ⟨recovered, recovering, filtering⟩ := Result.bind_eq_ok.mp opened
  obtain ⟨described, describing, indexing⟩ := Result.bind_eq_ok.mp recovering
  have kept : described.path = path := by
    rw [loadMetadata] at describing
    split at describing
    · cases describing
    · obtain ⟨footer, -, decoding⟩ := Result.bind_eq_ok.mp describing
      obtain ⟨metadata, -, made⟩ := Result.bind_eq_ok.mp decoding
      cases made
      rfl
  obtain ⟨offset, -, slicing⟩ := Result.bind_eq_ok.mp indexing
  obtain ⟨indexData, -, decoding⟩ := Result.bind_eq_ok.mp slicing
  obtain ⟨index, -, made⟩ := Result.bind_eq_ok.mp decoding
  cases made
  rw [loadBloomFilter] at filtering
  split at filtering
  · cases filtering
    exact kept
  · obtain ⟨bytes, -, parsing⟩ := Result.bind_eq_ok.mp filtering
    obtain ⟨filter, -, made⟩ := Result.bind_eq_ok.mp parsing
    cases made
    exact kept

end SSTableReader

namespace Disk

/-- The file of a table is there, and opening it gives the table. -/
def Backs (disk : Disk) (reader : SSTableReader) : Prop :=
  ∃ contents mapped, disk.find reader.path = some contents ∧
    SSTableReader.openFile reader.path contents mapped = .ok reader

theorem mem_files_of_find {disk : Disk} {path : FileName} {contents : Bytes}
    (found : disk.find path = some contents) : path ∈ disk.files.map Prod.fst := by
  rw [find, Option.map_eq_some_iff] at found
  obtain ⟨file, listed, -⟩ := found
  refine List.mem_map.mpr ⟨file, List.mem_of_find?_eq_some listed, ?_⟩
  simpa using List.find?_some listed

/-- Other files are found where one is taken out. -/
theorem find_filter_ne {disk : Disk} {path name : FileName} (other : path ≠ name) :
    Disk.find { disk with files := disk.files.filter fun file => file.1 ≠ name } path =
      disk.find path :=
  congrArg (Option.map Prod.snd) (find?_filter_ne Prod.fst other)

theorem find_store_ne {disk : Disk} {path name : FileName} {contents : Bytes}
    (other : path ≠ name) : (disk.store name contents).find path = disk.find path := by
  have first : (disk.store name contents).find path =
      Disk.find { disk with files := disk.files.filter fun file => file.1 ≠ name } path :=
    congrArg (Option.map Prod.snd)
      (List.find?_cons_of_neg (by simpa using Ne.symm other))
  exact first.trans (find_filter_ne other)

theorem openTable_eq_ok {name : FileName} {mapped : Bool} {disk reached : Disk}
    {reader : SSTableReader} (ran : openTable name mapped disk = .ok reader reached) :
    reached = disk ∧ ∃ contents, disk.find name = some contents ∧
      SSTableReader.openFile name contents mapped = .ok reader := by
  rw [openTable, bind_of_ok (get_apply _)] at ran
  cases found : disk.find name with
  | none =>
      rw [found] at ran
      cases ran
  | some contents =>
      rw [found] at ran
      obtain ⟨opened, rfl⟩ := lift_eq_ok.mp ran
      exact ⟨rfl, contents, rfl, opened⟩

theorem final_openTable (name : FileName) (mapped : Bool) (disk : Disk) :
    final (openTable name mapped disk) = disk := by
  rw [openTable, bind_of_ok (get_apply _)]
  cases disk.find name with
  | none => rfl
  | some contents =>
      dsimp only
      cases SSTableReader.openFile name contents mapped <;> rfl

/-- Table files on disk back the tables that were opened from them. -/
def shelving (external : External) (host : Host) : Shelving Disk SSTableReader where
  toFiling := filing external host
  Stays := Backs
  filed := fun ⟨_, _, found, _⟩ => mem_files_of_find found
  stays_now := id
  stays_build := by
    rintro config name entries disk reader ⟨contents, mapped, found, opened⟩ other
    refine ⟨contents, mapped, ?_, opened⟩
    change (final (buildFromVec external host config name entries disk)).find reader.path = _
    simp only [buildFromVec]
    split <;> exact (find_store_ne other).trans found
  stays_open := by
    rintro name mapped disk reader backs
    change Backs (final (openTable name mapped disk)) reader
    rwa [final_openTable]
  stays_remove := by
    rintro name disk reader ⟨contents, mapped, found, opened⟩ other
    refine ⟨contents, mapped, ?_, opened⟩
    change (final (removeFile name disk)).find reader.path = _
    rw [removeFile, bind_of_ok (get_apply _)]
    cases disk.find name with
    | none => exact found
    | some removed => exact (find_filter_ne other).trans found
  stays_readDir := id
  opened := by
    intro name mapped disk reader reached ran
    obtain ⟨rfl, contents, found, opened⟩ := openTable_eq_ok ran
    obtain rfl : reader.path = name := SSTableReader.path_of_openFile opened
    exact ⟨rfl, contents, mapped, found, opened⟩

/-- As long as no path is reused, every table in use opens again from its own file. -/
theorem tables_in_use_open (external : External) (host : Host) (config : Config) (disk : Disk)
    (deeds : List Deed)
    (unused : (Runs.run (Deed.perform (filing external host).audited)
      { engine := .fresh config, world := { world := disk, reused := [] } } deeds).world.reused =
        []) :
    let reached := Runs.run (Deed.perform (filing external host).audited)
      { engine := .fresh config, world := { world := disk, reused := [] } } deeds
    ∀ level, ∀ table ∈ reached.engine.tables level, ∃ mapped,
      openTable table.path mapped reached.world.world = .ok table reached.world.world := by
  intro reached level table member
  have shelved : (shelving external host).Shelved reached.world.world
      (Shelving.shelves [] reached.engine) :=
    (shelving external host).safe_run config { world := disk, reused := [] } deeds unused
  have held : table ∈ Shelving.shelves [] reached.engine (some level) := member
  obtain ⟨contents, mapped, found, opened⟩ := shelved.stays held
  refine ⟨mapped, ?_⟩
  rw [openTable, bind_of_ok (get_apply _), found]
  exact lift_eq_ok.mpr ⟨opened, rfl⟩

end Disk

/-! ## The directory of exact tables -/

namespace Directory

variable {host : Host}

/-- The table files of a directory, under their names. -/
def filing (host : Host) : Filing Directory MemoryTable where
  toPlatform := platform host
  files directory := directory.files.map MemoryTable.path
  files_now _ := rfl
  files_build := by
    intro config path entries directory
    rw [buildFromVec_eq]
    rcases attempt_cases { directory with ticks := directory.ticks + 1 } with
      ⟨outcomes, attempted⟩ | ⟨fault, outcomes, attempted⟩
    · rw [bind_of_ok attempted]
      exact List.cons_subset_cons _ (List.filter_sublist.map _).subset
    · rw [bind_of_error attempted]
      exact List.subset_cons_self ..
  files_open := by
    intro path mapped directory
    obtain ⟨same, -⟩ := (maintains_openTable path mapped directory.files
      directory.outcomes).final ⟨rfl, List.suffix_rfl⟩
    exact (List.Perm.of_eq (congrArg (List.map MemoryTable.path) same)).subset
  files_remove := by
    intro path directory name present
    change name ∈ (final (removeFile path directory)).files.map MemoryTable.path at present
    rcases files_removeFile path directory with same | filtered
    · rwa [same] at present
    · rw [filtered] at present
      exact (List.filter_sublist.map _).subset present
  files_readDir _ := List.Subset.refl _

theorem find_of_files {path : FileName} {before after : Directory}
    (same : after.files = before.files) : find path after = find path before := by
  rw [find, same, find]

/-- A file is still there when one of another name is taken out. -/
theorem find_of_filter {path removed : FileName} {before after : Directory}
    (other : path ≠ removed)
    (filtered : after.files = before.files.filter fun file => file.path ≠ removed) :
    find path after = find path before := by
  rw [find, filtered, find?_filter_ne MemoryTable.path other, find]

/-- A file is still there when one of another name is written. -/
theorem find_of_store {path : FileName} {table : MemoryTable} {before after : Directory}
    (other : path ≠ table.path)
    (stored : after.files =
      table :: before.files.filter fun file => file.path ≠ table.path) :
    find path after = find path before := by
  rw [find, stored, List.find?_cons_of_neg (by simpa using Ne.symm other),
    find?_filter_ne MemoryTable.path other, find]

/-- The files of a directory are its tables. -/
def shelving (host : Host) : Shelving Directory MemoryTable where
  toFiling := filing host
  Stays directory table := directory.find table.path = some table
  filed := by
    intro directory table found
    exact List.mem_map_of_mem (List.mem_of_find?_eq_some found)
  stays_now := id
  stays_build := by
    intro config name entries directory table found other
    change find table.path (final ((platform host).buildFromVec config name entries directory)) = _
    rw [buildFromVec_eq]
    rcases attempt_cases { directory with ticks := directory.ticks + 1 } with
      ⟨outcomes, attempted⟩ | ⟨fault, outcomes, attempted⟩
    · rw [bind_of_ok attempted]
      exact (find_of_store other rfl).trans found
    · rw [bind_of_error attempted]
      exact found
  stays_open := by
    intro name mapped directory table found
    obtain ⟨same, -⟩ := (maintains_openTable name mapped directory.files
      directory.outcomes).final ⟨rfl, List.suffix_rfl⟩
    exact (find_of_files same).trans found
  stays_remove := by
    intro name directory table found other
    change find table.path (final (removeFile name directory)) = _
    rcases files_removeFile name directory with same | filtered
    · exact (find_of_files same).trans found
    · exact (find_of_filter other filtered).trans found
  stays_readDir := id
  opened := by
    intro name mapped directory table reached ran
    obtain ⟨⟨⟩, attempted, -, ran⟩ := bind_eq_ok.mp ran
    obtain ⟨_, _, got, ran⟩ := bind_eq_ok.mp ran
    cases got
    cases found : attempted.find name with
    | none =>
        rw [found] at ran
        cases ran
    | some file =>
        rw [found] at ran
        cases ran
        obtain rfl : table.path = name := by simpa using List.find?_some found
        exact ⟨rfl, found⟩

/-- Two tables at level 0 are enough for a compaction. -/
private def eagerConfig : Config :=
  { MemoryWorld.smallConfig with l0CompactionThreshold := 2 }

/-- The process dies in a compaction that has removed the first of its two old files; the
engine opened next has the new table and the old one that is left. -/
theorem live_tables_stay_stopped :
    let deeds : List Deed := [.write (.put [1] [10]), .write (.put [2] [20]),
      .write (.put [1] [30]), .write (.put [3] [40]), .background, .reopen eagerConfig]
    let reached := Runs.run (Deed.perform (shelving secondsHost).audited)
      { engine := .fresh eagerConfig
        world := { world := ⟨[], 0, List.replicate 7 .done ++ [.crashed]⟩, reused := [] } } deeds
    (reached.engine.tables 0).length = 1 ∧ (reached.engine.tables 1).length = 1 ∧
      (∀ level, ∀ table ∈ reached.engine.tables level,
          reached.world.world.find table.path = some table) ∧
        ∀ level, ∀ table ∈ reached.engine.tables level,
          ∀ other, ∀ twin ∈ reached.engine.tables other,
            table.path = twin.path → level = other :=
  ⟨by decide +kernel, by decide +kernel, (shelving secondsHost).live_tables_stay eagerConfig
    ⟨[], 0, List.replicate 7 .done ++ [.crashed]⟩ _ (by decide +kernel)⟩

end Directory

end JustDb

import JustDb.Storage.Disk
import JustDb.Storage.InMemory

/-!
# A directory of exact tables

A platform whose files keep their entries and their creation time, so that an engine
can be opened on what another one has left.  A schedule decides which file operations
are done, fail, or do not return because the process dies.
-/

namespace JustDb

open Stateful Machine

/-- What becomes of a file operation. -/
inductive Outcome where
  | done
  | failed
  | crashed
  deriving DecidableEq, Repr

/-- The table files, how often the clock has been read, and what becomes of the file
operations to come; past the end of the schedule all are done. -/
structure Directory where
  files : List MemoryTable
  ticks : Nat
  outcomes : List Outcome
  deriving DecidableEq, Repr

namespace Directory

variable (host : Host)

/-- Consult the schedule. -/
def attempt : EStateM Fault Directory Unit := fun directory =>
  match directory.outcomes with
  | [] => .ok () directory
  | .done :: outcomes => .ok () { directory with outcomes }
  | .failed :: outcomes => .error (.error .io) { directory with outcomes }
  | .crashed :: outcomes => .error .panic { directory with outcomes }

def readClock (directory : Directory) : Nat × Directory :=
  (host.clock directory.ticks, { directory with ticks := directory.ticks + 1 })

/-- Create or replace a file. -/
def store (table : MemoryTable) : EStateM Fault Directory Unit :=
  modify fun directory =>
    { directory with
      files := table :: directory.files.filter fun file => file.path ≠ table.path }

def find (path : FileName) (directory : Directory) : Option MemoryTable :=
  directory.files.find? fun file => file.path = path

def buildFromVec (_ : Config) (path : FileName) (entries : List Entry) :
    EStateM Fault Directory SStableMeta := fun directory =>
  let (createdAt, ticked) := directory.readClock host
  let table : MemoryTable := { path, entries, createdAt := createdAt.toUInt64 }
  (do attempt; store table; pure table.metadata : EStateM Fault Directory SStableMeta) ticked

def openTable (path : FileName) (_ : Bool) : EStateM Fault Directory MemoryTable := do
  attempt
  let directory ← get
  match directory.find path with
  | some table => pure table
  | none => throw (.error .io)

def removeFile (path : FileName) : EStateM Fault Directory Unit := do
  attempt
  let directory ← get
  match directory.find path with
  | some _ => set { directory with
      files := directory.files.filter fun file => file.path ≠ path }
  | none => throw (.error .io)

/-- The platform of a directory of exact tables. -/
def platform : Platform Directory MemoryTable where
  toTableOps := MemoryTable.ops
  now := readClock host
  buildFromVec := buildFromVec host
  openTable := openTable
  removeFile := removeFile
  readDir := fun directory => .ok (host.order (directory.files.map MemoryTable.path)) directory

variable {host}

theorem attempt_cases (directory : Directory) :
    (∃ outcomes, attempt directory = .ok () { directory with outcomes }) ∨
      ∃ fault outcomes, attempt directory = .error fault { directory with outcomes } := by
  obtain ⟨files, ticks, outcomes⟩ := directory
  cases outcomes with
  | nil => exact .inl ⟨[], rfl⟩
  | cons outcome outcomes =>
      cases outcome with
      | done => exact .inl ⟨outcomes, rfl⟩
      | failed => exact .inr ⟨_, outcomes, rfl⟩
      | crashed => exact .inr ⟨_, outcomes, rfl⟩

/-- The file that a build writes. -/
def built (host : Host) (path : FileName) (entries : List Entry) (directory : Directory) :
    MemoryTable :=
  { path, entries, createdAt := (host.clock directory.ticks).toUInt64 }

/-- Some files with tables stored one after another, each in place of a file of its name. -/
def written (files tables : List MemoryTable) : List MemoryTable :=
  tables.foldl (fun files table => table :: files.filter fun file => file.path ≠ table.path) files

theorem written_cons (files : List MemoryTable) (table : MemoryTable)
    (tables : List MemoryTable) :
    written files (table :: tables) = written (written files [table]) tables := rfl

/-- A table of a new name is a new file. -/
theorem written_new {files : List MemoryTable} {table : MemoryTable}
    (new : table.path ∉ files.map MemoryTable.path) : written files [table] = table :: files := by
  have kept : files.filter (fun file => file.path ≠ table.path) = files := by
    refine List.filter_eq_self.mpr fun file member => decide_eq_true fun same => new ?_
    rw [← same]
    exact List.mem_map_of_mem member
  rw [written, List.foldl_cons, kept]
  rfl

theorem store_apply (table : MemoryTable) (directory : Directory) :
    store table directory =
      .ok () { directory with files := written directory.files [table] } := rfl

theorem buildFromVec_eq (config : Config) (path : FileName) (entries : List Entry)
    (directory : Directory) :
    (platform host).buildFromVec config path entries directory =
      (do attempt
          store (built host path entries directory)
          pure (built host path entries directory).metadata)
        { directory with ticks := directory.ticks + 1 } := rfl

/-- A build stores a file, or fails and leaves the directory as it is. -/
theorem buildFromVec_cases (config : Config) (path : FileName) (entries : List Entry)
    (directory : Directory) :
    (∃ metadata outcomes, (platform host).buildFromVec config path entries directory =
        .ok metadata { files := written directory.files [built host path entries directory],
                       ticks := directory.ticks + 1, outcomes }) ∨
      ∃ fault reached, (platform host).buildFromVec config path entries directory =
        .error fault reached ∧ reached.files = directory.files := by
  rw [buildFromVec_eq]
  rcases attempt_cases { directory with ticks := directory.ticks + 1 } with
    ⟨outcomes, attempted⟩ | ⟨fault, outcomes, attempted⟩
  · rw [bind_of_ok attempted, bind_of_ok (store_apply _ _)]
    exact .inl ⟨_, outcomes, rfl⟩
  · exact .inr ⟨fault, _, bind_of_error attempted, rfl⟩

theorem find_written (files : List MemoryTable) (table : MemoryTable) (ticks : Nat)
    (outcomes : List Outcome) :
    find table.path { files := written files [table], ticks, outcomes } = some table := by
  rw [find, written, List.foldl_cons, List.foldl_nil, List.find?_cons, decide_eq_true rfl]

/-- A file that has been stored opens, or fails to and stays. -/
theorem openTable_cases (files : List MemoryTable) (table : MemoryTable) (mapped : Bool)
    (ticks : Nat) (outcomes : List Outcome) :
    (∃ left, openTable table.path mapped { files := written files [table], ticks, outcomes } =
        .ok table { files := written files [table], ticks, outcomes := left }) ∨
      ∃ fault reached,
        openTable table.path mapped { files := written files [table], ticks, outcomes } =
          .error fault reached ∧ reached.files = written files [table] := by
  rcases attempt_cases { files := written files [table], ticks, outcomes } with
    ⟨left, attempted⟩ | ⟨fault, left, attempted⟩
  · refine .inl ⟨left, ?_⟩
    rw [openTable, bind_of_ok attempted, bind_of_ok (get_apply _), find_written]
    rfl
  · exact .inr ⟨fault, _, bind_of_error attempted, rfl⟩

/-- What becomes of the making of a table: it is made, or an error or a crash leaves the
directory with its file or without it. -/
theorem makeTable_cases (config : Config) (path : FileName) (entries : List Entry)
    (directory : Directory) :
    (∃ outcomes, (platform host).makeTable config path entries directory =
        .ok (built host path entries directory)
          { files := written directory.files [built host path entries directory],
            ticks := directory.ticks + 1, outcomes }) ∨
      ∃ fault reached, (platform host).makeTable config path entries directory =
          .error fault reached ∧
        (reached.files = directory.files ∨
          reached.files = written directory.files [built host path entries directory]) := by
  rw [Platform.makeTable]
  rcases buildFromVec_cases config path entries directory with
    ⟨metadata, outcomes, built'⟩ | ⟨fault, reached, failed, same⟩
  · rw [bind_of_ok built']
    rcases openTable_cases directory.files (built host path entries directory) config.useMmap
        (directory.ticks + 1) outcomes with
      ⟨left, opened⟩ | ⟨fault, reached, failed, same⟩
    · exact .inl ⟨left, opened⟩
    · exact .inr ⟨fault, reached, failed, .inr same⟩
  · exact .inr ⟨fault, reached, bind_of_error failed, .inl same⟩

/-! ## Opening an engine on a directory -/

/-- The level of a table file; other files have none. -/
def fileLevel (path : FileName) : Option Nat :=
  if hasSstExtension path then parseLevelFromFilename path else none

/-- What loading makes of a name. -/
def openable (directory : Directory) (name : FileName) : Option (Nat × MemoryTable) :=
  (fileLevel name).bind fun level => (directory.find name).map fun table => (level, table)

theorem openTable_of_undisturbed {directory : Directory} (undisturbed : directory.outcomes = [])
    (name : FileName) (mapped : Bool) :
    openTable name mapped directory =
      match directory.find name with
      | some table => .ok table directory
      | none => .error (.error .io) directory := by
  have attempted : attempt directory = .ok () directory := by
    rw [attempt, undisturbed]
  rw [openTable, bind_of_ok attempted, bind_of_ok (get_apply _)]
  cases directory.find name <;> rfl

/-- Where no file operation fails, loading opens every table file. -/
theorem loadFile_of_undisturbed {machine : Machine Directory MemoryTable}
    (undisturbed : machine.world.outcomes = []) (found : List (Nat × MemoryTable))
    (name : FileName) :
    loadFile (platform host) found name machine =
      .ok (found ++ (machine.world.openable name).toList) machine := by
  have opening : onWorld ((platform host).openTable name machine.engine.config.useMmap) machine =
      match machine.world.find name with
      | some table => .ok table machine
      | none => .error (.error .io) machine := by
    have opened : (platform host).openTable name machine.engine.config.useMmap machine.world =
        _ := openTable_of_undisturbed undisturbed name machine.engine.config.useMmap
    rw [onWorld, opened]
    cases machine.world.find name <;> rfl
  rw [loadFile, openable, fileLevel]
  by_cases extension : hasSstExtension name
  · rw [if_pos extension, if_pos extension]
    cases parseLevelFromFilename name with
    | none => simp
    | some level =>
        dsimp only
        rw [opening]
        cases machine.world.find name <;> simp
  · rw [if_neg extension, if_neg extension]
    simp

theorem foldlM_loadFile {machine : Machine Directory MemoryTable}
    (undisturbed : machine.world.outcomes = []) (names : List FileName)
    (found : List (Nat × MemoryTable)) :
    names.foldlM (loadFile (platform host)) found machine =
      .ok (found ++ names.filterMap machine.world.openable) machine := by
  induction names generalizing found with
  | nil => simp
  | cons name names ih =>
      rw [List.foldlM_cons, bind_of_ok (loadFile_of_undisturbed undisturbed found name), ih]
      cases opened : machine.world.openable name <;> simp [opened]

/-- The tables of each level of an engine opened on a directory. -/
def levels (host : Host) (directory : Directory) : Nat → Option (List MemoryTable) :=
  levelsOf MemoryTable.ops
    ((host.order (directory.files.map MemoryTable.path)).filterMap directory.openable)

theorem loadSstables_of_undisturbed {machine : Machine Directory MemoryTable}
    (undisturbed : machine.world.outcomes = []) :
    loadSstables (platform host) machine =
      .ok () { machine with
        engine := { machine.engine with sstables := machine.world.levels host } } := by
  have listing : (onWorld (platform host).readDir : Action Directory MemoryTable (List FileName))
      machine = .ok (host.order (machine.world.files.map MemoryTable.path)) machine :=
    onWorld_eq_ok.mpr ⟨_, rfl, rfl⟩
  rw [loadSstables, bind_of_ok listing, bind_of_ok (foldlM_loadFile undisturbed _ _),
    List.nil_append]
  rfl

/-- The tables of one level of an engine opened on a directory. -/
def loaded (host : Host) (directory : Directory) (level : Nat) : List MemoryTable :=
  (directory.levels host level).getD []

/-- Files of different names are found by their names. -/
theorem find_path {directory : Directory}
    (names : (directory.files.map MemoryTable.path).Nodup) {file : MemoryTable}
    (member : file ∈ directory.files) : directory.find file.path = some file := by
  have exists_ : (directory.find file.path).isSome = true :=
    List.find?_isSome.mpr ⟨file, member, decide_eq_true rfl⟩
  obtain ⟨found, at_⟩ := Option.isSome_iff_exists.mp exists_
  have listed : directory.files.find? (fun other => other.path = file.path) = some found := at_
  have same : found.path = file.path := by simpa using List.find?_some listed
  rw [at_, List.inj_on_of_nodup_map names (List.mem_of_find?_eq_some listed) member same]

/-- Loading finds the files of a level, in some order. -/
theorem perm_loaded {directory : Directory}
    (names : (directory.files.map MemoryTable.path).Nodup) (level : Nat) :
    (directory.loaded host level).Perm
      (directory.files.filter fun file => fileLevel file.path = some level) := by
  set found := (host.order (directory.files.map MemoryTable.path)).filterMap directory.openable
  have sorted : (directory.loaded host level).Perm
      ((found.filter fun item => item.1 = level).map Prod.snd) := by
    rw [loaded, levels, levelsOf]
    split
    next none => rw [List.isEmpty_iff.mp none]; rfl
    next => exact List.perm_insertionSort _ _
  have listed : found.Perm (directory.files.filterMap fun file =>
      (fileLevel file.path).map fun level => (level, file)) := by
    refine ((host.lists _).filterMap _).trans ?_
    rw [List.filterMap_map]
    refine .of_eq (List.filterMap_congr fun file member => ?_)
    rw [Function.comp_apply, openable, find_path names member]
    cases fileLevel file.path <;> rfl
  refine sorted.trans (((listed.filter _).map _).trans (.of_eq ?_))
  rw [List.filter_filterMap, List.map_filterMap, ← List.filterMap_eq_filter]
  refine List.filterMap_congr fun file _ => ?_
  cases read : fileLevel file.path with
  | none => simp [read, Option.guard]
  | some other => by_cases same : other = level <;> simp [read, same, Option.guard]

/-- Older tables are loaded before newer ones. -/
theorem pairwise_loaded (directory : Directory) (level : Nat) :
    (directory.loaded host level).Pairwise fun older newer =>
      older.createdAt ≤ newer.createdAt := by
  rw [loaded, levels, levelsOf]
  split
  · exact .nil
  · exact List.pairwise_insertionSort _ _

end Directory

end JustDb

import JustDb.Storage.Directory
import JustDb.Storage.CompactionReads

/-!
# Compactions that stop half-way

There is no manifest: an engine that is opened trusts the table files it finds.  A
compaction writes its output files one by one and then removes its input files one by
one, and it may fail or die at each of them.  An output may take the name of a file that
is there.
-/

namespace JustDb

open Stateful Machine

namespace Directory

variable (host : Host)

/-- The files that the pieces of a merge become, when each is made in its turn. -/
def outputsFrom (level : Nat) : (ticks : Nat) → (counter : SequenceNumber) →
    (pieces : List (List Entry)) → List MemoryTable
  | _, _, [] => []
  | ticks, counter, piece :: pieces =>
      { path := sstableName level (host.clock ticks / 1000000) counter
        entries := piece
        createdAt := (host.clock (ticks + 1)).toUInt64 } ::
      outputsFrom level (ticks + 2) (counter + 1) pieces

variable {host}

/-- A machine that has made a table: it has stored a file, and has read the clock twice and
the counter once. -/
structure Made (output : MemoryTable) (before after : Machine Directory MemoryTable) : Prop where
  files : after.world.files = written before.world.files [output]
  ticks : after.world.ticks = before.world.ticks + 2
  counter : after.engine.sequenceCounter = before.engine.sequenceCounter + 1

/-- A table is made once the clock and the counter have been read. -/
theorem createSstable_eq (level : Nat) (entries : List Entry)
    (machine : Machine Directory MemoryTable) :
    createSstable (platform host) level entries machine =
      onWorld ((platform host).makeTable machine.engine.config
        (sstableName level (host.clock machine.world.ticks / 1000000)
          machine.engine.sequenceCounter) entries)
        { engine := machine.engine.setCounter (machine.engine.sequenceCounter + 1)
          world := { machine.world with ticks := machine.world.ticks + 1 } } := rfl

/-- What becomes of `create_sstable`. -/
theorem createSstable_cases {level : Nat} {entries : List Entry}
    {machine : Machine Directory MemoryTable} {output : MemoryTable}
    (listed : [output] = outputsFrom host level machine.world.ticks
      machine.engine.sequenceCounter [entries]) :
    (∃ reached, createSstable (platform host) level entries machine = .ok output reached ∧
        Made output machine reached) ∨
      ∃ fault reached, createSstable (platform host) level entries machine =
          .error fault reached ∧
        (reached.world.files = machine.world.files ∨
          reached.world.files = written machine.world.files [output]) := by
  cases listed
  rw [createSstable_eq]
  rcases @makeTable_cases host machine.engine.config
      (sstableName level (host.clock machine.world.ticks / 1000000)
        machine.engine.sequenceCounter) entries
      { machine.world with ticks := machine.world.ticks + 1 } with
    ⟨outcomes, made⟩ | ⟨fault, reached, failed, files⟩
  · exact .inl ⟨_, onWorld_eq_ok.mpr ⟨_, made, rfl⟩, rfl, rfl, rfl⟩
  · exact .inr ⟨fault, _, onWorld_eq_error.mpr ⟨reached, failed, rfl⟩, files⟩

/-- The files of a directory in which the first of some outputs have been stored, all of
them where a call has succeeded. -/
def Created (outputs before after : List MemoryTable) (success : Bool) : Prop :=
  ∃ created rest, outputs = created ++ rest ∧ after = written before created ∧
    (success = true → rest = [])

theorem created_none (outputs before : List MemoryTable) : Created outputs before before false :=
  ⟨[], outputs, rfl, rfl, nofun⟩

theorem Created.cons {output : MemoryTable} {outputs before after : List MemoryTable}
    {success : Bool} (created : Created outputs (written before [output]) after success) :
    Created (output :: outputs) before after success := by
  obtain ⟨made, rest, split, files, whole⟩ := created
  refine ⟨output :: made, rest, ?_, ?_, whole⟩
  · rw [split, List.cons_append]
  · rw [files]
    rfl

theorem created_of_failed {output : MemoryTable} {outputs before after : List MemoryTable}
    (files : after = before ∨ after = written before [output]) :
    Created (output :: outputs) before after false := by
  rcases files with same | added
  · rw [same]
    exact created_none _ _
  · rw [added]
    exact (created_none _ _).cons

/-- Making a table of each of some pieces creates the first outputs. -/
theorem created_of_makesEach {level : Nat} {pieces : List (List Entry)}
    {sstables : List MemoryTable} {machine : Machine Directory MemoryTable}
    {outcome : EStateM.Result Fault (Machine Directory MemoryTable) (List MemoryTable)}
    (makes : MakesEach (platform host) level pieces sstables machine outcome) :
    Created (outputsFrom host level machine.world.ticks machine.engine.sequenceCounter pieces)
      machine.world.files (final outcome).world.files (succeeded outcome) := by
  induction makes with
  | done => exact ⟨[], [], rfl, rfl, fun _ => rfl⟩
  | overflowed => exact created_none _ _
  | failed stopped =>
      rcases createSstable_cases rfl with ⟨reached, ran, _⟩ | ⟨fault, reached, failed, files⟩
      · cases ran.symm.trans stopped
      · cases failed.symm.trans stopped
        exact created_of_failed files
  | made created later ih =>
      rcases createSstable_cases rfl with ⟨reached, ran, made⟩ | ⟨fault, reached, failed, _⟩
      · cases ran.symm.trans created
        apply Created.cons
        rw [← made.files, ← made.ticks, ← made.counter]
        exact ih
      · cases failed.symm.trans created

/-! ## Removed files -/

/-- Some files are gone, and only files with the names of given tables. -/
structure Removed (tables before after : List MemoryTable) : Prop where
  sublist : after.Sublist before
  named : ∀ file ∈ before, file ∉ after → file.path ∈ tables.map MemoryTable.path

theorem Removed.refl (tables files : List MemoryTable) : Removed tables files files :=
  ⟨.refl _, fun _ member missing => absurd member missing⟩

theorem files_removeFile (path : FileName) (directory : Directory) :
    (final (removeFile path directory)).files = directory.files ∨
      (final (removeFile path directory)).files =
        directory.files.filter fun file => file.path ≠ path := by
  rw [removeFile]
  rcases attempt_cases directory with ⟨outcomes, attempted⟩ | ⟨fault, outcomes, attempted⟩
  · rw [bind_of_ok attempted, bind_of_ok (get_apply _)]
    cases find path { directory with outcomes } with
    | some _ => exact .inr rfl
    | none => exact .inl rfl
  · rw [bind_of_error attempted]
    exact .inl rfl

/-- One more file of the tables is gone. -/
theorem Removed.filter {tables before after : List MemoryTable}
    (removed : Removed tables before after) {table : MemoryTable} (member : table ∈ tables) :
    Removed tables before (after.filter fun file => file.path ≠ table.path) where
  sublist := List.filter_sublist.trans removed.sublist
  named := by
    intro file present missing
    by_cases kept : file ∈ after
    · by_cases same : file.path = table.path
      · rw [same]
        exact List.mem_map_of_mem member
      · exact absurd (List.mem_filter.mpr ⟨kept, decide_eq_true same⟩) missing
    · exact removed.named file present kept

/-- Whatever becomes of the removals, only the files of the old tables go. -/
theorem removed_deleteOldFiles (tables : List MemoryTable)
    (machine : Machine Directory MemoryTable) :
    Removed tables machine.world.files
      (final (deleteOldFiles (platform host) tables machine)).world.files := by
  set before := machine.world.files
  have each : Maintains (fun reached : Machine Directory MemoryTable =>
      Removed tables before reached.world.files) (deleteOldFiles (platform host) tables) := by
    refine Ensures.forM fun table member => maintains_of_final fun reached removed => ?_
    rw [final_reportError, final_onWorld]
    change Removed tables before (final (removeFile table.path reached.world)).files
    rcases files_removeFile table.path reached.world with same | gone
    · rw [same]
      exact removed
    · rw [gone]
      exact removed.filter member
  exact each.final (Removed.refl _ _)

/-! ## The files that a compaction leaves -/

/-- The pieces that a compaction of a level writes. -/
def pieces (engine : StorageEngine MemoryTable) (level : Nat) : List (List Entry) :=
  match StorageEngine.mergeSstables MemoryTable.ops (engine.tables level)
      (engine.tables (level + 1)), engine.config.targetSize (level + 1) with
  | .ok merged, .ok targetSize => chunksOf targetSize merged
  | _, _ => []

/-- The files that a compaction of a level creates if nothing stops it. -/
def outputs (host : Host) (level : Nat) (machine : Machine Directory MemoryTable) :
    List MemoryTable :=
  outputsFrom host (level + 1) machine.world.ticks machine.engine.sequenceCounter
    (pieces machine.engine level)

/-- The tables that a compaction of a level reads. -/
def inputs (level : Nat) (engine : StorageEngine MemoryTable) : List MemoryTable :=
  engine.tables level ++ engine.tables (level + 1)

/-- The merge of a level into the next one is not stopped by an overflow of the target size,
which is not computed where the merge is empty. -/
def Completes (level : Nat) (engine : StorageEngine MemoryTable) : Prop :=
  StorageEngine.mergeSstables MemoryTable.ops (engine.tables level) (engine.tables (level + 1)) =
      .ok [] ∨
    ∃ targetSize, engine.config.targetSize (level + 1) = .ok targetSize

/-- The files of a directory in which a compaction has stopped: the first outputs have been
stored, or all of them and some inputs have been removed. -/
inductive Stopped (host : Host) (level : Nat) (machine : Machine Directory MemoryTable) :
    (after : List MemoryTable) → Prop where
  | creating {created rest : List MemoryTable} : outputs host level machine = created ++ rest →
      Stopped host level machine (written machine.world.files created)
  | removing {after : List MemoryTable} : Completes level machine.engine →
      Removed (inputs level machine.engine)
        (written machine.world.files (outputs host level machine)) after →
      Stopped host level machine after

theorem pieces_of_ok {engine : StorageEngine MemoryTable} {level targetSize : Nat}
    {merged : List Entry}
    (merging : StorageEngine.mergeSstables MemoryTable.ops (engine.tables level)
      (engine.tables (level + 1)) = .ok merged)
    (target : engine.config.targetSize (level + 1) = .ok targetSize) :
    pieces engine level = chunksOf targetSize merged := by
  rw [pieces, merging, target]

/-- A compaction whose target size overflows has nothing to write. -/
theorem outputs_of_overflow {level : Nat} {machine : Machine Directory MemoryTable}
    {fault : Fault} (target : machine.engine.config.targetSize (level + 1) = .error fault) :
    outputs host level machine = [] := by
  rw [outputs, pieces, target]
  cases StorageEngine.mergeSstables MemoryTable.ops (machine.engine.tables level)
    (machine.engine.tables (level + 1)) <;> rfl

/-- A compaction whose merge is empty has nothing to write. -/
theorem outputs_of_empty {level : Nat} {machine : Machine Directory MemoryTable}
    (merging : StorageEngine.mergeSstables MemoryTable.ops (machine.engine.tables level)
      (machine.engine.tables (level + 1)) = .ok []) :
    outputs host level machine = [] := by
  cases target : machine.engine.config.targetSize (level + 1) with
  | error fault => exact outputs_of_overflow target
  | ok targetSize =>
      rw [outputs, pieces_of_ok merging target]
      rfl

/-- Merging two levels creates the first outputs, and all of them where it succeeds. -/
theorem created_mergeInto (level : Nat) (machine : Machine Directory MemoryTable) :
    Created (outputs host level machine) machine.world.files
        (final (mergeInto (platform host) level (machine.engine.tables level)
          (machine.engine.tables (level + 1)) machine)).world.files
        (succeeded (mergeInto (platform host) level (machine.engine.tables level)
          (machine.engine.tables (level + 1)) machine)) ∧
      (succeeded (mergeInto (platform host) level (machine.engine.tables level)
          (machine.engine.tables (level + 1)) machine) = true →
        Completes level machine.engine) := by
  rw [mergeInto]
  cases merging : StorageEngine.mergeSstables (platform host).toTableOps
      (machine.engine.tables level) (machine.engine.tables (level + 1)) with
  | error fault =>
      rw [bind_of_error (lift_error _ _)]
      exact ⟨created_none _ _, nofun⟩
  | ok merged =>
      rw [bind_of_ok (lift_ok _ _), createSstablesForLevel]
      split
      next empty =>
        rw [List.isEmpty_iff.mp empty] at merging
        rw [outputs_of_empty merging]
        exact ⟨⟨[], [], rfl, rfl, fun _ => rfl⟩, fun _ => .inl merging⟩
      next =>
        rw [bind_of_ok (get_apply _)]
        cases target : machine.engine.config.targetSize (level + 1) with
        | error fault =>
            rw [bind_of_error (lift_error _ _)]
            exact ⟨created_none _ _, nofun⟩
        | ok targetSize =>
            rw [bind_of_ok (lift_ok _ _), outputs, pieces_of_ok merging target]
            exact ⟨created_of_makesEach (makesEach_createChunks rfl),
              fun _ => .inr ⟨targetSize, target⟩⟩

/-- Wherever a compaction of a level that is not empty stops, it leaves such files. -/
theorem stopped_compactInto {level : Nat} {machine : Machine Directory MemoryTable}
    (pending : machine.engine.tables level ≠ []) :
    Stopped host level machine
      (final (compactInto (platform host) level machine)).world.files := by
  obtain ⟨⟨created, rest, split, files, whole⟩, completes⟩ := @created_mergeInto host level machine
  have pending' : ¬(machine.engine.tables level).isEmpty := List.isEmpty_iff.not.mpr pending
  rw [compactInto, bind_eq, get_apply]
  dsimp only
  rw [if_neg pending']
  cases ran : mergeInto (platform host) level (machine.engine.tables level)
      (machine.engine.tables (level + 1)) machine with
  | error fault reached =>
      rw [ran] at files
      rw [bind_of_error ran]
      have same : reached.world.files = written machine.world.files created := files
      change Stopped host level machine reached.world.files
      rw [same]
      exact .creating split
  | ok newTables reached =>
      rw [ran] at files whole completes
      rw [whole rfl, List.append_nil] at split
      rw [bind_of_ok ran]
      refine .removing (completes rfl) ?_
      have same : reached.world.files = written machine.world.files created := files
      rw [split, ← same]
      exact removed_deleteOldFiles (inputs level machine.engine)
        (final (swapIn level newTables reached))

/-- A compaction of an empty level does nothing. -/
theorem compactInto_of_empty {level : Nat} {machine : Machine Directory MemoryTable}
    (empty : machine.engine.tables level = []) :
    compactInto (platform host) level machine = .ok () machine := by
  rw [compactInto, bind_eq, get_apply]
  dsimp only
  rw [empty]
  rfl

/-! ## Reaching a stop

Each number of outputs is reached, and once all are there, each choice of inputs to keep. -/

theorem attempt_done {directory : Directory} {rest : List Outcome}
    (scheduled : directory.outcomes = .done :: rest) :
    attempt directory = .ok () { directory with outcomes := rest } := by
  rw [attempt, scheduled]

theorem makeTable_done (config : Config) (path : FileName) (entries : List Entry)
    {directory : Directory} {rest : List Outcome}
    (scheduled : directory.outcomes = .done :: .done :: rest) :
    (platform host).makeTable config path entries directory =
      .ok (built host path entries directory)
        { files := written directory.files [built host path entries directory]
          ticks := directory.ticks + 1
          outcomes := rest } := by
  have building : (platform host).buildFromVec config path entries directory =
      .ok (built host path entries directory).metadata
        { files := written directory.files [built host path entries directory]
          ticks := directory.ticks + 1
          outcomes := .done :: rest } := by
    have ticked : ({ directory with ticks := directory.ticks + 1 } : Directory).outcomes =
        .done :: .done :: rest := scheduled
    rw [buildFromVec_eq, bind_of_ok (attempt_done ticked), bind_of_ok (store_apply _ _)]
    rfl
  have opening : openTable path config.useMmap
      { files := written directory.files [built host path entries directory]
        ticks := directory.ticks + 1
        outcomes := .done :: rest } = .ok (built host path entries directory)
      { files := written directory.files [built host path entries directory]
        ticks := directory.ticks + 1
        outcomes := rest } := by
    have found := find_written directory.files (built host path entries directory)
      (directory.ticks + 1) rest
    have named : (built host path entries directory).path = path := rfl
    rw [named] at found
    rw [openTable, bind_of_ok (attempt_done rfl), bind_of_ok (get_apply _), found]
    rfl
  rw [Platform.makeTable, bind_of_ok building]
  exact opening

/-- `create_sstable` where no file operation fails. -/
theorem createSstable_done {level : Nat} {entries : List Entry}
    {machine : Machine Directory MemoryTable} {output : MemoryTable}
    (listed : [output] = outputsFrom host level machine.world.ticks
      machine.engine.sequenceCounter [entries])
    {rest : List Outcome} (scheduled : machine.world.outcomes = .done :: .done :: rest) :
    ∃ reached, createSstable (platform host) level entries machine = .ok output reached ∧
      Made output machine reached ∧ reached.world.outcomes = rest := by
  cases listed
  have ticked : ({ machine.world with ticks := machine.world.ticks + 1 } : Directory).outcomes =
      .done :: .done :: rest := scheduled
  rw [createSstable_eq]
  exact ⟨_, onWorld_eq_ok.mpr ⟨_, makeTable_done _ _ entries ticked, rfl⟩,
    ⟨rfl, rfl, rfl⟩, rfl⟩

/-- `create_sstable` where the process dies before the file is there. -/
theorem createSstable_crashed {level : Nat} {entries : List Entry}
    {machine : Machine Directory MemoryTable} {rest : List Outcome}
    (scheduled : machine.world.outcomes = .crashed :: rest) :
    ∃ reached, createSstable (platform host) level entries machine = .error .panic reached ∧
      reached.world.files = machine.world.files := by
  let ticked : Directory := { machine.world with ticks := machine.world.ticks + 2 }
  have died : attempt ticked = .error .panic { ticked with outcomes := rest } := by
    rw [attempt, show ticked.outcomes = _ from scheduled]
  have building : ∀ config path, (platform host).buildFromVec config path entries
      { machine.world with ticks := machine.world.ticks + 1 } =
        .error .panic { ticked with outcomes := rest } := by
    intro config path
    rw [buildFromVec_eq]
    exact bind_of_error died
  rw [createSstable_eq]
  exact ⟨_, onWorld_eq_error.mpr ⟨_, bind_of_error (building _ _), rfl⟩, rfl⟩

/-- The outcomes under which some tables are stored and opened. -/
def storing (count : Nat) : List Outcome :=
  (List.replicate count [Outcome.done, .done]).flatten

theorem length_outputsFrom (host : Host) (level ticks : Nat) (counter : SequenceNumber)
    (pieces : List (List Entry)) :
    (outputsFrom host level ticks counter pieces).length = pieces.length := by
  induction pieces generalizing ticks counter with
  | nil => rfl
  | cons piece pieces ih => rw [outputsFrom, List.length_cons, List.length_cons, ih]

/-- Where there is room to count the sizes and no file operation fails, a table is made of
every piece. -/
theorem makesEach_done {level : Nat} {pieces : List (List Entry)} {sstables : List MemoryTable}
    {machine : Machine Directory MemoryTable}
    {outcome : EStateM.Result Fault (Machine Directory MemoryTable) (List MemoryTable)}
    (makes : MakesEach (platform host) level pieces sstables machine outcome)
    (room : Pieces.total Entry.size pieces.flatten < wordSize)
    {rest : List Outcome} (scheduled : machine.world.outcomes = storing pieces.length ++ rest) :
    ∃ tables reached, outcome = .ok tables reached ∧ reached.world.outcomes = rest := by
  induction makes with
  | done => exact ⟨_, _, rfl, scheduled⟩
  | overflowed overflows => exact absurd room (not_lt.mpr overflows)
  | failed stopped =>
      obtain ⟨reached, ran, _⟩ := createSstable_done rfl scheduled
      cases ran.symm.trans stopped
  | made created later ih =>
      obtain ⟨reached, ran, made, left⟩ := createSstable_done rfl scheduled
      cases ran.symm.trans created
      apply ih _ left
      rw [List.flatten_cons, Pieces.total_append] at room
      exact (Nat.le_add_left _ _).trans_lt room

/-- Where the process dies after some tables have been made, the files of these are there. -/
theorem makesEach_crashed {level : Nat} {pieces : List (List Entry)}
    {sstables : List MemoryTable} {machine : Machine Directory MemoryTable}
    {outcome : EStateM.Result Fault (Machine Directory MemoryTable) (List MemoryTable)}
    (makes : MakesEach (platform host) level pieces sstables machine outcome)
    (room : Pieces.total Entry.size pieces.flatten < wordSize)
    {count : Nat} (short : count < pieces.length)
    (scheduled : machine.world.outcomes = storing count ++ [.crashed]) :
    ∃ fault reached, outcome = .error fault reached ∧
      reached.world.files = written machine.world.files
        ((outputsFrom host level machine.world.ticks machine.engine.sequenceCounter
          pieces).take count) := by
  induction makes generalizing count with
  | done => cases short
  | overflowed overflows => exact absurd room (not_lt.mpr overflows)
  | failed stopped =>
      cases count with
      | zero =>
          obtain ⟨reached, ran, files⟩ := createSstable_crashed scheduled
          cases ran.symm.trans stopped
          exact ⟨_, _, rfl, files⟩
      | succ count =>
          obtain ⟨reached, ran, _⟩ := createSstable_done rfl scheduled
          cases ran.symm.trans stopped
  | made created later ih =>
      cases count with
      | zero =>
          obtain ⟨reached, ran, _⟩ := createSstable_crashed scheduled
          cases ran.symm.trans created
      | succ count =>
          obtain ⟨reached, ran, made, left⟩ := createSstable_done rfl scheduled
          cases ran.symm.trans created
          rw [List.flatten_cons, Pieces.total_append] at room
          obtain ⟨fault, after, failed, files⟩ :=
            ih ((Nat.le_add_left _ _).trans_lt room) (Nat.lt_of_succ_lt_succ short) left
          refine ⟨fault, after, failed, files.trans ?_⟩
          rw [made.files, made.ticks, made.counter]
          rfl

/-- What becomes of the removal of a file that is to be kept or to go. -/
def fate (kept : MemoryTable → Bool) (table : MemoryTable) : Outcome :=
  if kept table then .failed else .done

theorem removeFile_failed {path : FileName} {directory : Directory} {rest : List Outcome}
    (scheduled : directory.outcomes = .failed :: rest) :
    removeFile path directory = .error (.error .io) { directory with outcomes := rest } := by
  have attempted : attempt directory = .error (.error .io) { directory with outcomes := rest } := by
    rw [attempt, scheduled]
  rw [removeFile, bind_of_error attempted]

/-- A removal that is not disturbed leaves no file of the name. -/
theorem removeFile_done {path : FileName} {directory : Directory} {rest : List Outcome}
    (scheduled : directory.outcomes = .done :: rest) :
    ∃ reached, (removeFile path directory = .ok () reached ∨
        removeFile path directory = .error (.error .io) reached) ∧
      reached.outcomes = rest ∧
        reached.files = directory.files.filter fun file => file.path ≠ path := by
  rw [removeFile, bind_of_ok (attempt_done scheduled), bind_of_ok (get_apply _)]
  cases found : find path { directory with outcomes := rest } with
  | some file => exact ⟨_, .inl rfl, rfl, rfl⟩
  | none =>
      refine ⟨_, .inr rfl, rfl, (List.filter_eq_self.mpr fun file member => ?_).symm⟩
      simpa using List.find?_eq_none.mp found file member

theorem removeFile_fate {kept : MemoryTable → Bool} {table : MemoryTable}
    {machine : Machine Directory MemoryTable} {rest : List Outcome}
    (scheduled : machine.world.outcomes = fate kept table :: rest) :
    ∃ reached, reportError (onWorld ((platform host).removeFile ((platform host).path table)))
        machine = .ok () reached ∧ reached.world.outcomes = rest ∧
      reached.world.files = machine.world.files.filter fun file =>
        kept table = false → file.path ≠ table.path := by
  have ok : ∀ {world}, removeFile table.path machine.world = .ok () world →
      onWorld ((platform host).removeFile ((platform host).path table)) machine =
        .ok () { machine with world } :=
    fun ran => onWorld_eq_ok.mpr ⟨_, ran, rfl⟩
  have failed : ∀ {world}, removeFile table.path machine.world = .error (.error .io) world →
      onWorld ((platform host).removeFile ((platform host).path table)) machine =
        .error (.error .io) { machine with world } :=
    fun ran => onWorld_eq_error.mpr ⟨_, ran, rfl⟩
  rw [reportError]
  cases stays : kept table with
  | true =>
      rw [fate, stays] at scheduled
      rw [failed (removeFile_failed scheduled)]
      exact ⟨_, rfl, rfl, by simp⟩
  | false =>
      rw [fate, stays] at scheduled
      obtain ⟨reached, ran | ran, left, files⟩ := removeFile_done scheduled
      · rw [ok ran]
        exact ⟨_, rfl, left, by simpa using files⟩
      · rw [failed ran]
        exact ⟨_, rfl, left, by simpa using files⟩

/-- Some files without those that have the name of a table that is not kept. -/
def without (tables : List MemoryTable) (kept : MemoryTable → Bool) (files : List MemoryTable) :
    List MemoryTable :=
  files.filter fun file => ∀ table ∈ tables, kept table = false → file.path ≠ table.path

theorem deleteOldFiles_fate {kept : MemoryTable → Bool} {tables : List MemoryTable}
    {machine : Machine Directory MemoryTable}
    (scheduled : machine.world.outcomes = tables.map (fate kept)) :
    (final (deleteOldFiles (platform host) tables machine)).world.files =
      without tables kept machine.world.files := by
  induction tables generalizing machine with
  | nil => simp [deleteOldFiles, without]
  | cons table tables ih =>
      obtain ⟨reached, ran, left, files⟩ := removeFile_fate scheduled
      rw [deleteOldFiles, forM_cons, bind_of_ok ran]
      refine (ih left).trans ?_
      rw [files, without, without, List.filter_filter]
      refine List.filter_congr fun file _ => ?_
      simp [Bool.and_comm]

/-- An engine whose file operations will go as a schedule says. -/
def withOutcomes (machine : Machine Directory MemoryTable) (outcomes : List Outcome) :
    Machine Directory MemoryTable :=
  { machine with world := { machine.world with outcomes } }

section Reaching

variable {level : Nat} {machine : Machine Directory MemoryTable} {merged : List Entry}
  (completes : Completes level machine.engine)
  (merging : StorageEngine.mergeSstables MemoryTable.ops (machine.engine.tables level)
    (machine.engine.tables (level + 1)) = .ok merged)
  (room : Pieces.total Entry.size merged < wordSize)
include completes merging room

/-- A merge that nothing disturbs makes all outputs. -/
theorem mergeInto_done {rest : List Outcome} (scheduled : machine.world.outcomes =
      storing (outputs host level machine).length ++ rest) :
    ∃ newTables reached, mergeInto (platform host) level (machine.engine.tables level)
        (machine.engine.tables (level + 1)) machine = .ok newTables reached ∧
      reached.world.outcomes = rest := by
  have merges : StorageEngine.mergeSstables (platform host).toTableOps
    (machine.engine.tables level) (machine.engine.tables (level + 1)) = .ok merged := merging
  rw [mergeInto, merges, bind_of_ok (lift_ok _ _), createSstablesForLevel]
  split
  next empty =>
    rw [List.isEmpty_iff.mp empty] at merging
    rw [outputs_of_empty merging] at scheduled
    exact ⟨_, _, rfl, scheduled⟩
  next nonempty =>
    obtain ⟨targetSize, target⟩ := completes.resolve_left fun none => nonempty (by
      rw [Except.ok.inj (merging.symm.trans none)]
      rfl)
    rw [outputs, length_outputsFrom, pieces_of_ok merging target] at scheduled
    rw [bind_of_ok (get_apply _), target, bind_of_ok (lift_ok _ _)]
    refine makesEach_done (makesEach_createChunks rfl) ?_ scheduled
    rw [Pieces.flatten_cut]
    exact room

/-- A merge in which the process dies after some outputs leaves these. -/
theorem mergeInto_crashed {count : Nat} (short : count < (outputs host level machine).length)
    (scheduled : machine.world.outcomes = storing count ++ [.crashed]) :
    ∃ fault reached, mergeInto (platform host) level (machine.engine.tables level)
        (machine.engine.tables (level + 1)) machine = .error fault reached ∧
      reached.world.files =
        written machine.world.files ((outputs host level machine).take count) := by
  have merges : StorageEngine.mergeSstables (platform host).toTableOps
    (machine.engine.tables level) (machine.engine.tables (level + 1)) = .ok merged := merging
  rw [mergeInto, merges, bind_of_ok (lift_ok _ _), createSstablesForLevel]
  split
  next empty =>
    rw [List.isEmpty_iff.mp empty] at merging
    rw [outputs_of_empty merging] at short
    cases short
  next nonempty =>
    obtain ⟨targetSize, target⟩ := completes.resolve_left fun none => nonempty (by
      rw [Except.ok.inj (merging.symm.trans none)]
      rfl)
    rw [outputs, length_outputsFrom, pieces_of_ok merging target] at short
    rw [bind_of_ok (get_apply _), target, bind_of_ok (lift_ok _ _), outputs,
      pieces_of_ok merging target]
    refine makesEach_crashed (makesEach_createChunks rfl) ?_ short scheduled
    rw [Pieces.flatten_cut]
    exact room

variable (pending : machine.engine.tables level ≠ [])
include pending

/-- Each choice of inputs to keep is left by some compaction that goes on to its end. -/
theorem exists_without (kept : MemoryTable → Bool) :
    ∃ outcomes, (final (compactInto (platform host) level
        (withOutcomes machine outcomes))).world.files =
      without (inputs level machine.engine) kept
        (written machine.world.files (outputs host level machine)) := by
  set disturbed := withOutcomes machine (storing (outputs host level machine).length ++
    (inputs level machine.engine).map (fate kept))
  obtain ⟨newTables, reached, ran, left⟩ := @mergeInto_done host level disturbed merged completes
    merging room _ rfl
  obtain ⟨⟨created, rest, split, files, whole⟩, -⟩ := @created_mergeInto host level disturbed
  rw [ran] at files whole
  rw [whole rfl, List.append_nil] at split
  have pending' : ¬(disturbed.engine.tables level).isEmpty := List.isEmpty_iff.not.mpr pending
  have same : reached.world.files = written machine.world.files created := files
  have all : outputs host level machine = created := split
  refine ⟨disturbed.world.outcomes, ?_⟩
  change (final (compactInto (platform host) level disturbed)).world.files = _
  rw [compactInto, bind_eq, get_apply]
  dsimp only
  rw [if_neg pending', bind_of_ok ran, all, ← same]
  exact deleteOldFiles_fate (show (final (swapIn level newTables reached)).world.outcomes =
    (inputs level machine.engine).map (fate kept) from left)

/-- Each number of outputs is left by some compaction in which the process dies. -/
theorem exists_written {count : Nat} (short : count < (outputs host level machine).length) :
    ∃ outcomes, (final (compactInto (platform host) level
        (withOutcomes machine outcomes))).world.files =
      written machine.world.files ((outputs host level machine).take count) := by
  set disturbed := withOutcomes machine (storing count ++ [.crashed])
  obtain ⟨fault, reached, ran, files⟩ := @mergeInto_crashed host level disturbed merged completes
    merging room count short rfl
  have pending' : ¬(disturbed.engine.tables level).isEmpty := List.isEmpty_iff.not.mpr pending
  refine ⟨disturbed.world.outcomes, ?_⟩
  change (final (compactInto (platform host) level disturbed)).world.files = _
  rw [compactInto, bind_eq, get_apply]
  dsimp only
  rw [if_neg pending', bind_of_error ran]
  exact files

end Reaching

end Directory

end JustDb

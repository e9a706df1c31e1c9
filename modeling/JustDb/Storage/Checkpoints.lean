import JustDb.Storage.ReopenedReads

/-!
# The stops of a compaction that matter

A compaction can stop in many ways, but a read asks one table of each level.  So all stops
keep the reads where those do in which all inputs are left, or none, or only one.
-/

namespace JustDb

open Stateful Machine

namespace Directory

open MemoryTable

variable {host : Host} {level : Nat} {machine : Machine Directory MemoryTable}

/-! ## Engines at rest -/

/-- An engine at rest: no memtable holds anything, the tables are exact maps, newer tables
hold larger sequence numbers, and the files are the tables. -/
structure Quiescent (machine : Machine Directory MemoryTable) : Prop where
  running : machine.engine.closed = false
  flushed : ∀ memtable ∈ machine.engine.memtables, memtable.count = 0
  exact_ : ∀ level, ∀ table ∈ machine.engine.tables level,
    ExactFor MemoryTable.ops table table.entries
  ranked : machine.engine.Ranked MemoryTable.entries
  names : (machine.world.files.map MemoryTable.path).Nodup
  filed : ∀ level, (machine.engine.tables level).Perm
    (machine.world.files.filter fun file => fileLevel file.path = some level)

/-- What the tables of an engine answer. -/
def current (machine : Machine Directory MemoryTable) (key : Key) : Option Value :=
  reads machine.engine.config.maxLevels machine.engine.tables key

namespace Quiescent

theorem get_eq (quiescent : Quiescent machine) (key : Key) :
    machine.engine.get ops key = .ok (current machine key) :=
  get_of_flushed quiescent.running quiescent.flushed key

theorem mem_tables (quiescent : Quiescent machine) {level : Nat} {table : MemoryTable} :
    table ∈ machine.engine.tables level ↔
      table ∈ machine.world.files ∧ fileLevel table.path = some level := by
  rw [(quiescent.filed level).mem_iff, List.mem_filter, decide_eq_true_iff]

theorem nodup_tables (quiescent : Quiescent machine) (level : Nat) :
    (machine.engine.tables level).Nodup :=
  (quiescent.filed level).nodup_iff.mpr ((List.Nodup.of_map _ quiescent.names).filter _)

theorem mem_inputs (quiescent : Quiescent machine) {table : MemoryTable}
    (member : table ∈ inputs level machine.engine) :
    table ∈ machine.world.files ∧
      (fileLevel table.path = some level ∨ fileLevel table.path = some (level + 1)) := by
  rcases List.mem_append.mp member with upper | lower
  · exact (quiescent.mem_tables.mp upper).imp_right .inl
  · exact (quiescent.mem_tables.mp lower).imp_right .inr

theorem exact_of_mem_inputs (quiescent : Quiescent machine) {table : MemoryTable}
    (member : table ∈ inputs level machine.engine) : ExactFor ops table table.entries :=
  (List.mem_append.mp member).elim (quiescent.exact_ _ table) (quiescent.exact_ _ table)

/-- Files of different names are the same if their names are. -/
theorem eq_of_path (quiescent : Quiescent machine) {first second : MemoryTable}
    (firstMem : first ∈ machine.world.files) (secondMem : second ∈ machine.world.files)
    (same : first.path = second.path) : first = second :=
  List.inj_on_of_nodup_map quiescent.names firstMem secondMem same

end Quiescent

/-! ## Files that have been written over -/

theorem names_written {files tables : List MemoryTable}
    (names : (files.map MemoryTable.path).Nodup) :
    ((written files tables).map MemoryTable.path).Nodup := by
  induction tables generalizing files with
  | nil => exact names
  | cons table tables ih =>
      rw [written_cons]
      refine ih (List.nodup_cons.mpr ⟨fun taken => ?_, names.sublist (List.filter_sublist.map _)⟩)
      obtain ⟨file, member, same⟩ := List.mem_map.mp taken
      exact of_decide_eq_true (List.mem_filter.mp member).2 same

/-- Tables written to one level leave the others as they are. -/
theorem filter_written {files tables : List MemoryTable} {other : Nat}
    (apart : ∀ table ∈ tables, fileLevel table.path ≠ some other) :
    (written files tables).filter (fun file => fileLevel file.path = some other) =
      files.filter fun file => fileLevel file.path = some other := by
  induction tables generalizing files with
  | nil => rfl
  | cons table tables ih =>
      have own := apart table List.mem_cons_self
      rw [written_cons, ih fun later member => apart later (List.mem_cons_of_mem _ member),
        written, List.foldl_cons, List.foldl_nil, List.filter_cons,
        if_neg (by simpa using own), List.filter_filter]
      refine List.filter_congr fun file _ => ?_
      by_cases same : file.path = table.path
      · simp [same, own]
      · simp [same]

theorem fileLevel_of_mem_outputsFrom {ticks : Nat} {counter : SequenceNumber}
    {pieces : List (List Entry)} {output : MemoryTable} (bounded : level < wordSize)
    (member : output ∈ outputsFrom host level ticks counter pieces) :
    fileLevel output.path = some level := by
  induction pieces generalizing ticks counter with
  | nil => cases member
  | cons piece pieces ih =>
      rcases List.mem_cons.mp member with rfl | later
      · rw [fileLevel, if_pos (hasSstExtension_sstableName _ _ _),
          parseLevelFromFilename_sstableName bounded]
      · exact ih later

/-- A level that the outputs do not join has the files that it had. -/
theorem filter_written_outputs (bounded : level + 1 < wordSize) {count other : Nat}
    (apart : other ≠ level + 1) :
    (written machine.world.files ((outputs host level machine).take count)).filter
        (fun file => fileLevel file.path = some other) =
      machine.world.files.filter fun file => fileLevel file.path = some other := by
  refine filter_written fun output member same => apart ?_
  rw [fileLevel_of_mem_outputsFrom bounded (List.mem_of_mem_take member)] at same
  exact (Option.some.inj same).symm

theorem names_without {files tables : List MemoryTable} {kept : MemoryTable → Bool}
    (names : (files.map MemoryTable.path).Nodup) :
    ((without tables kept files).map MemoryTable.path).Nodup :=
  names.sublist (List.filter_sublist.map _)

theorem mem_without {files tables : List MemoryTable} {kept : MemoryTable → Bool}
    {file : MemoryTable} :
    file ∈ without tables kept files ↔
      file ∈ files ∧ ∀ table ∈ tables, kept table = false → file.path ≠ table.path := by
  rw [without, List.mem_filter, decide_eq_true_iff]

theorem without_congr {files tables : List MemoryTable} {kept other : MemoryTable → Bool}
    (same : ∀ table ∈ tables, kept table = other table) :
    without tables kept files = without tables other files := by
  refine List.filter_congr fun file _ => ?_
  rw [Bool.eq_iff_iff, decide_eq_true_iff, decide_eq_true_iff]
  exact forall₂_congr fun table member => by rw [same table member]

/-! ## Checkpoints -/

/-- The files when the compaction has stored some outputs. -/
def afterOutputs (host : Host) (level : Nat) (machine : Machine Directory MemoryTable)
    (count : Nat) : List MemoryTable :=
  written machine.world.files ((outputs host level machine).take count)

/-- The files when the compaction has stored all outputs and has removed the inputs but for
those to be kept. -/
def afterRemovals (host : Host) (level : Nat) (machine : Machine Directory MemoryTable)
    (kept : MemoryTable → Bool) : List MemoryTable :=
  without (inputs level machine.engine) kept
    (written machine.world.files (outputs host level machine))

/-- The reads are kept at each number of outputs, and with all of them when no input is left
or only one. -/
structure Checkpoints (host : Host) (level : Nat) (machine : Machine Directory MemoryTable) :
    Prop where
  creating : ∀ count, ReadAs machine.engine.config.maxLevels (current machine)
    (afterOutputs host level machine count)
  removing : ReadAs machine.engine.config.maxLevels (current machine)
    (afterRemovals host level machine fun _ => false)
  keeping : ∀ table ∈ inputs level machine.engine,
    ReadAs machine.engine.config.maxLevels (current machine)
      (afterRemovals host level machine fun input => input = table)

/-- At most the input of one name may be left. -/
theorem Checkpoints.named (checkpoints : Checkpoints host level machine)
    (quiescent : Quiescent machine) (path : FileName) :
    ReadAs machine.engine.config.maxLevels (current machine)
      (afterRemovals host level machine fun input => input.path = path) := by
  by_cases named : ∃ table ∈ inputs level machine.engine, table.path = path
  · obtain ⟨table, member, rfl⟩ := named
    have same : ∀ input ∈ inputs level machine.engine,
        decide (input.path = table.path) = decide (input = table) := by
      refine fun input listed => decide_eq_decide.mpr ⟨fun same => ?_, fun same => by rw [same]⟩
      exact quiescent.eq_of_path (quiescent.mem_inputs listed).1 (quiescent.mem_inputs member).1
        same
    rw [afterRemovals, without_congr same]
    exact checkpoints.keeping table member
  · have same : ∀ input ∈ inputs level machine.engine, decide (input.path = path) = false :=
      fun input listed => decide_eq_false fun same => named ⟨input, listed, same⟩
    rw [afterRemovals, without_congr same]
    exact checkpoints.removing

/-- Taking out files takes them out of every order. -/
theorem Arranges.filter {files : List MemoryTable} {arranged : Nat → List MemoryTable}
    (arranges : Arranges files arranged) (keep : MemoryTable → Bool) :
    Arranges (files.filter keep) fun level => (arranged level).filter keep where
  perm level := by
    rw [List.filter_comm]
    exact (arranges.perm level).filter keep
  sorted level := (arranges.sorted level).filter _

theorem Arranges.of_perm {files others : List MemoryTable} {arranged : Nat → List MemoryTable}
    (arranges : Arranges files arranged) (perm : files.Perm others) :
    Arranges others arranged where
  perm level := (arranges.perm level).trans (perm.filter _)
  sorted := arranges.sorted

/-- The files that are left when some inputs have been removed, without those of all other
inputs but one that is still there. -/
theorem without_perm {inputs before after : List MemoryTable} {kept : MemoryTable → Bool}
    (names : (before.map MemoryTable.path).Nodup) (removed : Removed inputs before after)
    (present : ∀ input ∈ inputs, kept input = true → ∃ file ∈ after, file.path = input.path) :
    (without inputs kept after).Perm (without inputs kept before) := by
  have left : (after.map MemoryTable.path).Nodup := names.sublist (removed.sublist.map _)
  refine (List.perm_ext_iff_of_nodup (.of_map _ (names_without left))
    (.of_map _ (names_without names))).mpr fun file => ?_
  rw [mem_without, mem_without]
  refine and_congr_left fun unnamed => ⟨fun member => removed.sublist.subset member, ?_⟩
  intro member
  by_contra missing
  obtain ⟨input, listed, same⟩ := List.mem_map.mp (removed.named file member missing)
  have stays : kept input = true :=
    Bool.eq_true_of_not_eq_false fun dropped => unnamed input listed dropped same.symm
  obtain ⟨other, there, named⟩ := present input listed stays
  have equal := List.inj_on_of_nodup_map names (removed.sublist.subset there) member
    (named.trans same)
  exact missing (equal ▸ there)

/-- Levels that the compaction does not touch keep all tables. -/
theorem Quiescent.without_elsewhere (quiescent : Quiescent machine) {other : Nat}
    (notUpper : other ≠ level) (notLower : other ≠ level + 1) {tables : List MemoryTable}
    (leveled : ∀ table ∈ tables, fileLevel table.path = some other) (kept : MemoryTable → Bool) :
    without (inputs level machine.engine) kept tables = tables := by
  refine List.filter_eq_self.mpr fun file member => decide_eq_true fun input listed _ same => ?_
  have own := leveled file member
  rw [same] at own
  rcases (quiescent.mem_inputs listed).2 with at_ | at_
  · exact notUpper (Option.some.inj (own.symm.trans at_))
  · exact notLower (Option.some.inj (own.symm.trans at_))

/-- The upper level is empty where none of its tables is kept. -/
theorem Quiescent.without_upper (quiescent : Quiescent machine) (bounded : level + 1 < wordSize)
    {tables : List MemoryTable} (present : ∀ file ∈ tables, fileLevel file.path = some level ∧
      file ∈ written machine.world.files (outputs host level machine))
    {kept : MemoryTable → Bool}
    (dropped : ∀ input ∈ machine.engine.tables level, kept input = false) :
    without (inputs level machine.engine) kept tables = [] := by
  have untouched := @filter_written_outputs host level machine bounded
    (outputs host level machine).length level (Nat.ne_add_one level)
  rw [List.take_length] at untouched
  refine List.filter_eq_nil_iff.mpr fun file member stays => ?_
  obtain ⟨leveled, there⟩ := present file member
  have placed : file ∈ machine.engine.tables level := by
    rw [(quiescent.filed level).mem_iff, ← untouched]
    exact List.mem_filter.mpr ⟨there, decide_eq_true leveled⟩
  exact of_decide_eq_true stays file (List.mem_append_left _ placed) (dropped file placed) rfl

/-- Where the checkpoints keep the reads, so does every choice of removed inputs. -/
theorem Checkpoints.removed (checkpoints : Checkpoints host level machine)
    (quiescent : Quiescent machine) (inside : level < machine.engine.config.maxLevels)
    (bounded : level + 1 < wordSize) {after : List MemoryTable}
    (removed : Removed (inputs level machine.engine)
      (written machine.world.files (outputs host level machine)) after) :
    ReadAs machine.engine.config.maxLevels (current machine) after := by
  have names : ((written machine.world.files (outputs host level machine)).map
    MemoryTable.path).Nodup := names_written quiescent.names
  intro arranged arranges key
  have thinned : ∀ kept : MemoryTable → Bool,
      (∀ input ∈ inputs level machine.engine, kept input = true →
        ∃ file ∈ after, file.path = input.path) →
      Arranges (afterRemovals host level machine kept) fun other =>
        without (inputs level machine.engine) kept (arranged other) :=
    fun kept present => (arranges.filter _).of_perm (without_perm names removed present)
  have elsewhere : ∀ kept other, other ≠ level → other ≠ level + 1 →
      without (inputs level machine.engine) kept (arranged other) = arranged other :=
    fun kept other notUpper notLower => quiescent.without_elsewhere notUpper notLower
      (fun _ member => (arranges.mem_iff.mp member).2) kept
  have emptied : ∀ kept, (∀ input ∈ machine.engine.tables level, kept input = false) →
      without (inputs level machine.engine) kept (arranged level) = [] := by
    intro kept dropped
    have present : ∀ file ∈ arranged level, fileLevel file.path = some level ∧
        file ∈ written machine.world.files (outputs host level machine) := by
      intro file member
      have there := arranges.mem_iff.mp member
      exact ⟨there.2, removed.sublist.subset there.1⟩
    exact quiescent.without_upper bounded present dropped
  -- the upper level may be emptied where it answers nothing
  have lowered : ∀ kept, answer level (arranged level) key = none →
      (∀ input ∈ machine.engine.tables level, kept input = false) →
      (∀ table, asked (level + 1) (arranged (level + 1)) key = some table →
        decide (∀ input ∈ inputs level machine.engine,
          kept input = false → table.path ≠ input.path) = true) →
      reads machine.engine.config.maxLevels arranged key =
        reads machine.engine.config.maxLevels
          (fun other => without (inputs level machine.engine) kept (arranged other)) key := by
    intro kept nothing dropped decides
    refine reads_congr fun other _ => ?_
    by_cases isUpper : other = level
    · subst isUpper
      rw [nothing, emptied kept dropped, answer_nil]
    · by_cases isLower : other = level + 1
      · subst isLower
        exact (answer_filter decides).symm
      · rw [elsewhere kept other isUpper isLower]
  -- the table that decides stays where only an input of its name is kept
  have deciding : ∀ file ∈ after,
      Arranges (afterRemovals host level machine fun input => input.path = file.path)
          (fun other => without (inputs level machine.engine)
            (fun input => input.path = file.path) (arranged other)) ∧
        decide (∀ input ∈ inputs level machine.engine,
          decide (input.path = file.path) = false → file.path ≠ input.path) = true := by
    refine fun file there => ⟨thinned _ fun input _ same => ?_, decide_eq_true ?_⟩
    · exact ⟨file, there, (of_decide_eq_true same).symm⟩
    · exact fun input _ different same => of_decide_eq_false different same.symm
  cases upper : answer level (arranged level) key with
  | some version =>
      obtain ⟨file, decides, _⟩ := Option.bind_eq_some_iff.mp
        ((answer_eq_asked level (arranged level) key).symm.trans upper)
      obtain ⟨thin, stays⟩ := deciding file (arranges.mem_iff.mp (mem_of_asked decides)).1
      rw [← checkpoints.named quiescent file.path _ thin key]
      refine reads_congr_until inside (fun other above => ?_) upper ?_
      · rw [elsewhere _ other above.ne (by omega)]
      · refine (answer_filter fun other asks => ?_).trans upper
        cases decides.symm.trans asks
        exact stays
  | none =>
      cases lower : asked (level + 1) (arranged (level + 1)) key with
      | some file =>
          obtain ⟨there, leveled⟩ := arranges.mem_iff.mp (mem_of_asked lower)
          obtain ⟨thin, stays⟩ := deciding file there
          refine (lowered _ upper (fun input placed => decide_eq_false fun same => ?_)
            fun other asks => ?_).trans (checkpoints.named quiescent file.path _ thin key)
          · have other := (quiescent.mem_tables.mp placed).2
            rw [same, leveled, Option.some.injEq] at other
            exact Nat.succ_ne_self _ other
          · cases lower.symm.trans asks
            exact stays
      | none =>
          refine (lowered _ upper (fun _ _ => rfl) fun other asks => ?_).trans
            (checkpoints.removing _ (thinned _ fun _ _ stays => absurd stays Bool.false_ne_true)
              key)
          cases lower.symm.trans asks

/-! ## Every stop -/

/-- Where a compaction may stop does not depend on what becomes of the file operations. -/
theorem stopped_withOutcomes (pending : machine.engine.tables level ≠ [])
    (outcomes : List Outcome) :
    Stopped host level machine
      (final (compactInto (platform host) level (withOutcomes machine outcomes))).world.files := by
  have same : ∀ after, Stopped host level (withOutcomes machine outcomes) after →
      Stopped host level machine after := by
    intro after stopped
    cases stopped with
    | creating split => exact .creating split
    | removing completes removed => exact .removing completes removed
  exact same _ (stopped_compactInto pending)

theorem Stopped.names {after : List MemoryTable} (stopped : Stopped host level machine after)
    (names : (machine.world.files.map MemoryTable.path).Nodup) :
    (after.map MemoryTable.path).Nodup := by
  cases stopped with
  | creating => exact names_written names
  | removing _ removed => exact (names_written names).sublist (removed.sublist.map _)

theorem Checkpoints.stopped (checkpoints : Checkpoints host level machine)
    (quiescent : Quiescent machine) (inside : level < machine.engine.config.maxLevels)
    (bounded : level + 1 < wordSize) {after : List MemoryTable}
    (stopped : Stopped host level machine after) :
    ReadAs machine.engine.config.maxLevels (current machine) after := by
  cases stopped with
  | @creating created rest split =>
      have first := checkpoints.creating created.length
      rwa [afterOutputs, split, List.take_left] at first
  | removing _ removed => exact checkpoints.removed quiescent inside bounded removed

/-- A compaction that no overflow stops keeps the reads wherever it stops exactly when it
does so at the checkpoints. -/
theorem keepsReads_iff_checkpoints (quiescent : Quiescent machine)
    (inside : level < machine.engine.config.maxLevels) (bounded : level + 1 < wordSize)
    (completes : Completes level machine.engine) {merged : List Entry}
    (merging : StorageEngine.mergeSstables MemoryTable.ops (machine.engine.tables level)
      (machine.engine.tables (level + 1)) = .ok merged)
    (room : Pieces.total Entry.size merged < wordSize)
    (pending : machine.engine.tables level ≠ []) :
    (∀ outcomes, KeepsReads machine.engine
        (final (compactInto (platform host) level (withOutcomes machine outcomes))).world) ↔
      Checkpoints host level machine := by
  have stops : ∀ outcomes, Stopped host level machine
      (final (compactInto (platform host) level (withOutcomes machine outcomes))).world.files :=
    stopped_withOutcomes pending
  have keeping : ∀ outcomes, KeepsReads machine.engine
      (final (compactInto (platform host) level (withOutcomes machine outcomes))).world ↔
        ReadAs machine.engine.config.maxLevels (current machine) (final (compactInto
          (platform host) level (withOutcomes machine outcomes))).world.files :=
    fun outcomes => keepsReads_iff ((stops outcomes).names quiescent.names) quiescent.get_eq
  simp only [keeping]
  constructor
  · intro keeps
    have removing : ∀ kept, ReadAs machine.engine.config.maxLevels (current machine)
        (afterRemovals host level machine kept) := by
      intro kept
      obtain ⟨outcomes, files⟩ := @exists_without host level machine merged completes merging room
        pending kept
      rw [afterRemovals, ← files]
      exact keeps outcomes
    refine ⟨fun count => ?_, removing _, fun table _ => removing _⟩
    by_cases short : count < (outputs host level machine).length
    · obtain ⟨outcomes, files⟩ := exists_written completes merging room pending short
      rw [afterOutputs, ← files]
      exact keeps outcomes
    · have all : afterRemovals host level machine (fun _ => true) =
          afterOutputs host level machine count := by
        rw [afterOutputs, List.take_of_length_le (not_lt.mp short)]
        exact List.filter_eq_self.mpr fun file _ =>
          decide_eq_true fun _ _ dropped => Bool.noConfusion dropped
      rw [← all]
      exact removing _
  · exact fun checkpoints outcomes => checkpoints.stopped quiescent inside bounded (stops outcomes)

/-- A compaction that does nothing keeps the reads exactly when opening the files does. -/
theorem keepsReads_iff_untouched (quiescent : Quiescent machine)
    (untouched : ∀ outcomes, (final (compactInto (platform host) level
      (withOutcomes machine outcomes))).world.files = machine.world.files) :
    (∀ outcomes, KeepsReads machine.engine
        (final (compactInto (platform host) level (withOutcomes machine outcomes))).world) ↔
      ReadAs machine.engine.config.maxLevels (current machine) machine.world.files := by
  have keeping : ∀ outcomes, KeepsReads machine.engine
      (final (compactInto (platform host) level (withOutcomes machine outcomes))).world ↔
        ReadAs machine.engine.config.maxLevels (current machine) machine.world.files := by
    intro outcomes
    rw [← untouched outcomes]
    refine keepsReads_iff ?_ quiescent.get_eq
    rw [untouched outcomes]
    exact quiescent.names
  simp only [keeping, forall_const]

/-! ## The files of a stopped compaction -/

/-- New tables come beside the files that are there. -/
theorem written_perm {files tables : List MemoryTable}
    (names : ((tables ++ files).map MemoryTable.path).Nodup) :
    (written files tables).Perm (tables ++ files) := by
  induction tables generalizing files with
  | nil => exact .refl _
  | cons table tables ih =>
      have moved : (tables ++ table :: files).Perm (table :: (tables ++ files)) :=
        List.perm_middle
      have names' : ((tables ++ table :: files).map MemoryTable.path).Nodup :=
        ((moved.map _).nodup_iff).mpr names
      have new : table.path ∉ files.map MemoryTable.path := by
        have apart : table.path ∉ (tables ++ files).map MemoryTable.path :=
          (List.nodup_cons.mp names).1
        rw [List.map_append, List.mem_append] at apart
        exact fun taken => apart (.inr taken)
      rw [written_cons, written_new new]
      exact (ih names').trans moved

/-- The outputs take new names, and they are stamped no earlier than the tables of their
level. -/
structure Regular (host : Host) (level : Nat) (machine : Machine Directory MemoryTable) :
    Prop where
  names : ((outputs host level machine ++ machine.world.files).map MemoryTable.path).Nodup
  later : ∀ output ∈ outputs host level machine, ∀ table ∈ machine.engine.tables (level + 1),
    table.createdAt ≤ output.createdAt

theorem Regular.ne_path (regular : Regular host level machine) {output file : MemoryTable}
    (new : output ∈ outputs host level machine) (old : file ∈ machine.world.files) :
    output.path ≠ file.path := by
  have names := regular.names
  rw [List.map_append] at names
  exact (List.nodup_append.mp names).2.2 _ (List.mem_map_of_mem new) _ (List.mem_map_of_mem old)

/-- Of the inputs, the ones to be kept are left. -/
theorem Quiescent.without_inputs (quiescent : Quiescent machine) {kept : MemoryTable → Bool}
    {tables : List MemoryTable} (listed : ∀ table ∈ tables, table ∈ inputs level machine.engine) :
    without (inputs level machine.engine) kept tables = tables.filter kept := by
  refine List.filter_congr fun table member => ?_
  rw [Bool.eq_iff_iff, decide_eq_true_iff]
  have present := (quiescent.mem_inputs (listed table member)).1
  constructor
  · intro named
    by_contra dropped
    exact named table (listed table member) (Bool.eq_false_of_not_eq_true dropped) rfl
  · intro chosen input inputMem dropped same
    rw [quiescent.eq_of_path present (quiescent.mem_inputs inputMem).1 same, dropped] at chosen
    cases chosen

theorem Regular.without_outputs (regular : Regular host level machine)
    (quiescent : Quiescent machine) (kept : MemoryTable → Bool) :
    without (inputs level machine.engine) kept (outputs host level machine) =
      outputs host level machine := by
  refine List.filter_eq_self.mpr fun output member => decide_eq_true fun input listed _ => ?_
  exact regular.ne_path member (quiescent.mem_inputs listed).1

theorem elsewhere_afterOutputs (host : Host) (bounded : level + 1 < wordSize) (count : Nat) :
    Elsewhere level machine.world.files (afterOutputs host level machine count) := by
  intro other _ notLower
  rw [afterOutputs, filter_written_outputs bounded notLower]

section Stops

variable (host) (quiescent : Quiescent machine) (bounded : level + 1 < wordSize)
include quiescent bounded

theorem filter_afterRemovals {other : Nat} (notLower : other ≠ level + 1)
    (kept : MemoryTable → Bool) :
    ((afterRemovals host level machine kept).filter
        fun file => fileLevel file.path = some other).Perm
      (without (inputs level machine.engine) kept (machine.engine.tables other)) := by
  have untouched := @filter_written_outputs host level machine bounded
    (outputs host level machine).length other notLower
  rw [List.take_length] at untouched
  rw [afterRemovals, without, List.filter_comm, untouched]
  exact (quiescent.filed other).symm.filter _

theorem elsewhere_afterRemovals (kept : MemoryTable → Bool) :
    Elsewhere level machine.world.files (afterRemovals host level machine kept) := by
  intro other notUpper notLower
  refine .trans ?_ (filter_afterRemovals host quiescent bounded notLower kept).symm
  rw [quiescent.without_elsewhere notUpper notLower fun _ member =>
    (quiescent.mem_tables.mp member).2]
  exact (quiescent.filed other).symm

theorem upper_afterOutputs (count : Nat) :
    ((afterOutputs host level machine count).filter
        fun file => fileLevel file.path = some level).Perm (machine.engine.tables level) := by
  rw [afterOutputs, filter_written_outputs bounded (Nat.ne_add_one level)]
  exact (quiescent.filed level).symm

theorem upper_afterRemovals (kept : MemoryTable → Bool) :
    ((afterRemovals host level machine kept).filter
        fun file => fileLevel file.path = some level).Perm
      ((machine.engine.tables level).filter kept) := by
  rw [← quiescent.without_inputs fun _ => List.mem_append_left _]
  exact filter_afterRemovals host quiescent bounded (Nat.ne_add_one level) kept

variable {host} (regular : Regular host level machine)
include regular

theorem lower_afterOutputs (count : Nat) :
    ((afterOutputs host level machine count).filter
        fun file => fileLevel file.path = some (level + 1)).Perm
      ((outputs host level machine).take count ++ machine.engine.tables (level + 1)) := by
  have names : (((outputs host level machine).take count ++ machine.world.files).map
      MemoryTable.path).Nodup :=
    regular.names.sublist (((List.take_sublist _ _).append_right _).map _)
  refine ((written_perm names).filter _).trans ?_
  have placed : ((outputs host level machine).take count).filter
      (fun file => fileLevel file.path = some (level + 1)) =
        (outputs host level machine).take count :=
    List.filter_eq_self.mpr fun output member =>
      decide_eq_true (fileLevel_of_mem_outputsFrom bounded (List.mem_of_mem_take member))
  rw [List.filter_append, placed]
  exact (quiescent.filed (level + 1)).symm.append_left _

theorem lower_afterRemovals (kept : MemoryTable → Bool) :
    ((afterRemovals host level machine kept).filter
        fun file => fileLevel file.path = some (level + 1)).Perm
      (outputs host level machine ++ (machine.engine.tables (level + 1)).filter kept) := by
  have lower := lower_afterOutputs quiescent bounded regular (outputs host level machine).length
  rw [afterOutputs, List.take_length] at lower
  rw [afterRemovals, without, List.filter_comm]
  refine (lower.filter _).trans (.of_eq ?_)
  rw [List.filter_append]
  exact congrArg₂ _ (regular.without_outputs quiescent kept)
    (quiescent.without_inputs fun _ => List.mem_append_right _)

end Stops

end Directory

end JustDb

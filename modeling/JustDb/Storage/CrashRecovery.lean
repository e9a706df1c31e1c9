import JustDb.Storage.ReopenedReads
import JustDb.Storage.Deeds
import JustDb.Storage.Invariants
import JustDb.Storage.ReadYourWrites
import JustDb.Library.WriteBehind

/-!
# Recovery after a crash

There is no log: a write lives in a memtable until a rotation or `close` flushes it.  The
memtables are flushed from the oldest on, and loading asks newer tables first, so the
writes that an engine finds when it is opened after a crash are the first ones that were
made, up to some point.  What is behind that point had been in a memtable all along.
-/

namespace JustDb

open Stateful Machine

/-! ## The writes that a memtable holds -/

namespace Write

theorem last_append (first second : List Write) (key : Key) :
    last (first ++ second) key = (last second key).or (last first key) := by
  rw [last, List.reverse_append, List.find?_append]
  rfl

theorem last_ne_none {writes : List Write} {write : Write} (member : write ∈ writes) :
    last writes write.key ≠ none := by
  intro missing
  exact List.find?_eq_none.mp missing write (List.mem_reverse.mpr member) (decide_eq_true rfl)

/-- What is read after some writes, over what was read before. -/
def overlay (writes : List Write) (reads : Key → Result (Option Value)) (key : Key) :
    Result (Option Value) :=
  match last writes key with
  | some write => .ok write.value
  | none => reads key

theorem overlay_append (first second : List Write) (reads : Key → Result (Option Value)) :
    overlay (first ++ second) reads = overlay second (overlay first reads) := by
  refine funext fun key => ?_
  rw [overlay, overlay, overlay, last_append]
  cases last second key <;> rfl

end Write

namespace MemTable

/-- A memtable has the last of some writes to each key. -/
def Records (memtable : MemTable) (writes : List Write) : Prop :=
  ∀ key, (memtable.get key).map Entry.value = (Write.last writes key).map Write.value

theorem records_withSequence (maxSize : Nat) (start : SequenceNumber) :
    (withSequence maxSize start).Records [] := by
  intro key
  rw [get_withSequence]
  rfl

theorem Records.write {memtable written : MemTable} {writes : List Write} {write : Write}
    {timestamp : Timestamp} (records : memtable.Records writes)
    (ran : memtable.write write.key write.value timestamp = .ok written) :
    written.Records (writes ++ [write]) := by
  intro key
  rw [get_write ran, Write.last_append_singleton]
  by_cases same : key = write.key
  · rw [if_pos same, if_pos same]
    rfl
  · rw [if_neg same, if_neg same]
    exact records key

/-- An empty memtable records nothing. -/
theorem Records.eq_nil {memtable : MemTable} {writes : List Write}
    (records : memtable.Records writes) (empty : memtable.count = 0) : writes = [] := by
  refine List.eq_nil_iff_forall_not_mem.mpr fun write member => ?_
  have found := records write.key
  rw [get_of_count_eq_zero empty] at found
  exact Write.last_ne_none member (Option.map_eq_none_iff.mp found.symm)

/-- The key of a recorded write is in the memtable. -/
theorem Records.isSome_get {memtable : MemTable} {writes : List Write} {write : Write}
    (records : memtable.Records writes) (member : write ∈ writes) :
    (memtable.get write.key).isSome = true := by
  rw [← Option.isSome_map, records write.key, Option.isSome_map, Option.isSome_iff_ne_none]
  exact Write.last_ne_none member

end MemTable

namespace Directory

open MemoryTable

variable {host : Host} {config : Config}

/-! ## Table files that hold a prefix of the writes -/

/-- Files of different names that were created at different times. -/
structure Dated (files : List MemoryTable) : Prop where
  names : (files.map MemoryTable.path).Nodup
  dates : (files.map MemoryTable.createdAt).Nodup

instance (files : List MemoryTable) : Decidable (Dated files) :=
  decidable_of_iff ((files.map MemoryTable.path).Nodup ∧ (files.map MemoryTable.createdAt).Nodup)
    ⟨fun ⟨names, dates⟩ => ⟨names, dates⟩, fun dated => ⟨dated.names, dated.dates⟩⟩

/-- Tables of level 0, newest first, that were flushed after some files had been there, and
that together hold some writes. -/
structure Flushed (base new : List MemoryTable) (writes : List Write) : Prop where
  names : ((new ++ base).map MemoryTable.path).Nodup
  level : ∀ table ∈ new, fileLevel table.path = some 0
  ordered : new.Pairwise fun newer older => older.createdAt < newer.createdAt
  later : ∀ table ∈ new, ∀ file ∈ base, file.createdAt < table.createdAt
  answers : ∀ key, (new.findSome? fun table => entryFor table.entries key).map Entry.value =
    (Write.last writes key).map Write.value

/-- The files are those that were there and tables with some writes. -/
def Recoverable (base : List MemoryTable) (writes : List Write) (files : List MemoryTable) :
    Prop :=
  ∃ new, files = new ++ base ∧ Flushed base new writes

/-- Files that recoverable tables have been added to are dated as they were. -/
theorem Recoverable.dated {base files : List MemoryTable} {writes : List Write}
    (recoverable : Recoverable base writes files) (dated : Dated base) : Dated files := by
  obtain ⟨new, rfl, flushed⟩ := recoverable
  refine ⟨flushed.names, ?_⟩
  rw [List.map_append]
  refine List.nodup_append.mpr ⟨?_, dated.dates, ?_⟩
  · exact List.pairwise_map.mpr (flushed.ordered.imp fun before => before.ne')
  · rintro _ new _ old same
    obtain ⟨table, member, rfl⟩ := List.mem_map.mp new
    obtain ⟨file, held, rfl⟩ := List.mem_map.mp old
    exact (flushed.later table member file held).ne' same

theorem recoverable_nil {base : List MemoryTable} (dated : Dated base) :
    Recoverable base [] base :=
  ⟨[], rfl, dated.names, by simp, .nil, by simp, fun _ => rfl⟩

/-- Tables of different creation times have one order. -/
theorem eq_of_sorted {tables others : List MemoryTable}
    (strict : tables.Pairwise fun older newer => older.createdAt < newer.createdAt)
    (perm : others.Perm tables)
    (sorted : others.Pairwise fun older newer => older.createdAt ≤ newer.createdAt) :
    others = tables := by
  have apart : tables.Pairwise fun left right => left.createdAt ≠ right.createdAt :=
    strict.imp fun before => before.ne
  have symmetric : Std.Symm fun left right : MemoryTable => left.createdAt ≠ right.createdAt :=
    ⟨fun _ _ different => different.symm⟩
  refine List.Perm.eq_of_pairwise ?_ sorted (strict.imp fun before => before.le) perm
  intro left right leftMem rightMem below above
  by_contra different
  exact apart.forall (perm.mem_iff.mp leftMem) rightMem different (le_antisymm below above)

/-- A level that was loaded from dated files is strictly ordered. -/
theorem Dated.pairwise_loaded {directory : Directory} (dated : Dated directory.files)
    (level : Nat) : (directory.loaded host level).Pairwise fun older newer =>
      older.createdAt < newer.createdAt := by
  have perm : (directory.loaded host level).Perm
      (directory.files.filter fun file => fileLevel file.path = some level) :=
    perm_loaded dated.names level
  have distinct : ((directory.loaded host level).map MemoryTable.createdAt).Nodup :=
    (perm.map _).nodup_iff.mpr (dated.dates.sublist (List.filter_sublist.map _))
  have ordered : (directory.loaded host level).Pairwise fun older newer =>
      older.createdAt ≤ newer.createdAt := Directory.pairwise_loaded directory level
  exact ordered.imp₂ (fun _ _ below different => lt_of_le_of_ne below different)
    (List.pairwise_map.mp distinct)

namespace Flushed

variable {before after : Directory} {new : List MemoryTable} {writes : List Write}

/-- The flushed tables are loaded behind those of level 0. -/
theorem loaded_zero (flushed : Flushed before.files new writes) (dated : Dated before.files)
    (files : after.files = new ++ before.files) :
    after.loaded host 0 = before.loaded host 0 ++ new.reverse := by
  have perm : (before.loaded host 0).Perm
      (before.files.filter fun file => fileLevel file.path = some 0) := perm_loaded dated.names 0
  refine eq_of_sorted (List.pairwise_append.mpr ⟨dated.pairwise_loaded 0,
    List.pairwise_reverse.mpr flushed.ordered, fun file old table member => ?_⟩) ?_
    (pairwise_loaded after 0)
  · exact flushed.later table (List.mem_reverse.mp member) file
      (List.mem_filter.mp (perm.mem_iff.mp old)).1
  · have names := flushed.names
    rw [← files] at names
    refine (perm_loaded names 0).trans ?_
    rw [files, List.filter_append,
      List.filter_eq_self.mpr fun table member => decide_eq_true (flushed.level table member)]
    exact (List.perm_append_comm).trans (perm.symm.append (List.reverse_perm new).symm)

/-- The deeper levels are loaded as before. -/
theorem loaded_deep (flushed : Flushed before.files new writes) (dated : Dated before.files)
    (files : after.files = new ++ before.files) {level : Nat} (deep : level ≠ 0) :
    after.loaded host level = before.loaded host level := by
  refine eq_of_sorted (dated.pairwise_loaded level) ?_ (pairwise_loaded after level)
  have names := flushed.names
  rw [← files] at names
  refine (perm_loaded names level).trans ?_
  have others : new.filter (fun file => fileLevel file.path = some level) = [] := by
    refine List.filter_eq_nil_iff.mpr fun table member placed => deep ?_
    have placed := of_decide_eq_true placed
    rw [flushed.level table member, Option.some.injEq] at placed
    exact placed.symm
  rw [files, List.filter_append, others, List.nil_append]
  exact (perm_loaded dated.names level).symm

/-- An engine that is opened on the files reads the last of the writes to a key, and where
there is none what it would have read before. -/
theorem get_reopened (flushed : Flushed before.files new writes) (dated : Dated before.files)
    (files : after.files = new ++ before.files) (leveled : 0 < config.maxLevels) (key : Key) :
    (reopened host config after).get ops key =
      Write.overlay writes (fun key => (reopened host config before).get ops key) key := by
  obtain ⟨deeper, maxLevels⟩ := Nat.exists_eq_succ_of_ne_zero leveled.ne'
  have read : ∀ directory : Directory, (reopened host config directory).get ops key =
      .ok (((answer 0 (directory.loaded host 0) key).or
        ((List.range deeper).findSome? fun level =>
          answer (level + 1) (directory.loaded host (level + 1)) key)).bind Entry.value) := by
    intro directory
    refine (get_of_flushed rfl (memtables_reopened host _ _) key).trans ?_
    change Except.ok (((List.range config.maxLevels).findSome? fun level =>
      answer level (directory.loaded host level) key).bind Entry.value) = _
    rw [maxLevels, Nat.succ_eq_add_one, List.range_succ_eq_map, List.findSome?_cons,
      List.findSome?_map]
    cases answer 0 (directory.loaded host 0) key <;> rfl
  have top : answer 0 (after.loaded host 0) key =
      (new.findSome? fun table => entryFor table.entries key).or
        (answer 0 (before.loaded host 0) key) := by
    rw [flushed.loaded_zero dated files, answer, answer, if_pos rfl, if_pos rfl,
      List.reverse_append, List.reverse_reverse, List.findSome?_append]
  have below : ∀ level, answer (level + 1) (after.loaded host (level + 1)) key =
      answer (level + 1) (before.loaded host (level + 1)) key :=
    fun level => by rw [flushed.loaded_deep dated files (Nat.succ_ne_zero level)]
  have answers := flushed.answers key
  rw [Write.overlay, read, read, top]
  simp only [below]
  cases found : new.findSome? fun table => entryFor table.entries key with
  | some entry =>
      rw [found] at answers
      obtain ⟨write, last, value⟩ := Option.map_eq_some_iff.mp answers.symm
      rw [last]
      exact congrArg Except.ok value.symm
  | none =>
      rw [found] at answers
      rw [Option.map_eq_none_iff.mp answers.symm]
      rfl

end Flushed

/-! ## One flush -/

/-- The file of a flush has a new name and a later creation time than all files. -/
def Punctual (host : Host) (directory : Directory) (memtable : MemTable) : Prop :=
  memtable.count = 0 ∨
    sstableName 0 (host.clock directory.ticks / 1000000) memtable.currentSequence ∉
        directory.files.map MemoryTable.path ∧
      ∀ file ∈ directory.files,
        file.createdAt < (host.clock (directory.ticks + 1)).toUInt64

instance (host : Host) (directory : Directory) (memtable : MemTable) :
    Decidable (Punctual host directory memtable) :=
  inferInstanceAs (Decidable (_ ∨ _ ∧ _))

theorem Recoverable.built {base : List MemoryTable} {writes recent : List Write}
    {directory : Directory} {memtable : MemTable} (path : FileName)
    (recoverable : Recoverable base writes directory.files)
    (records : memtable.Records recent) (new : path ∉ directory.files.map MemoryTable.path)
    (level : fileLevel path = some 0)
    (later : ∀ file ∈ directory.files, file.createdAt < (host.clock directory.ticks).toUInt64) :
    Recoverable base (writes ++ recent)
      (Directory.built host path memtable.entryList directory :: directory.files) := by
  obtain ⟨tables, files, flushed⟩ := recoverable
  rw [files] at new later ⊢
  refine ⟨Directory.built host path memtable.entryList directory :: tables, rfl, ?_, ?_, ?_, ?_, ?_⟩
  · exact List.nodup_cons.mpr ⟨new, flushed.names⟩
  · exact List.forall_mem_cons.mpr ⟨level, flushed.level⟩
  · exact List.pairwise_cons.mpr
      ⟨fun table member => later table (List.mem_append_left _ member), flushed.ordered⟩
  · exact List.forall_mem_cons.mpr
      ⟨fun file member => later file (List.mem_append_right _ member), flushed.later⟩
  · intro key
    have answers := flushed.answers key
    have held := records key
    have asked : entryFor (Directory.built host path memtable.entryList directory).entries key =
        memtable.get key := memtable.entryFor_entryList key
    rw [List.findSome?_cons, Write.last_append, asked]
    cases found : memtable.get key with
    | some entry =>
        rw [found] at held
        obtain ⟨write, last, value⟩ := Option.map_eq_some_iff.mp held.symm
        rw [last]
        exact congrArg some value.symm
    | none =>
        rw [found] at held
        rw [Option.map_eq_none_iff.mp held.symm, Option.none_or]
        exact answers

/-- A flush adds the writes of its memtable to those that are recoverable.  If it stops,
they are added all or not at all. -/
theorem Recoverable.flushTable (config : Config) {base : List MemoryTable}
    {writes recent : List Write} {directory : Directory} {memtable : MemTable}
    (recoverable : Recoverable base writes directory.files)
    (records : memtable.Records recent) (punctual : Punctual host directory memtable) :
    match (platform host).flushTable config memtable directory with
    | .ok _ reached => Recoverable base (writes ++ recent) reached.files
    | .error _ reached => Recoverable base writes reached.files ∨
        Recoverable base (writes ++ recent) reached.files := by
  by_cases empty : memtable.count = 0
  · rw [Platform.flushTable, if_pos empty, records.eq_nil empty, List.append_nil]
    exact recoverable
  · obtain ⟨new, later⟩ := punctual.resolve_left empty
    let ticked : Directory := { directory with ticks := directory.ticks + 1 }
    let path := sstableName 0 (host.clock directory.ticks / 1000000) memtable.currentSequence
    have named : fileLevel path = some 0 := by
      rw [fileLevel, if_pos (hasSstExtension_sstableName _ _ _),
        parseLevelFromFilename_sstableName (by decide)]
    have added : Recoverable base (writes ++ recent)
        (written directory.files [Directory.built host path memtable.entryList ticked]) := by
      rw [written_new new]
      exact Recoverable.built path recoverable records new named later
    have reading : (platform host).currentMicros directory =
      .ok (host.clock directory.ticks) ticked := rfl
    rw [Platform.flushTable, if_neg empty, bind_of_ok reading]
    rcases @makeTable_cases host config path memtable.entryList ticked with
      ⟨outcomes, made⟩ | ⟨fault, reached, failed, same | more⟩
    · rw [bind_of_ok made]
      exact added
    · rw [bind_of_error failed]
      exact .inl (same ▸ recoverable)
    · rw [bind_of_error failed]
      exact .inr (more ▸ added)

/-! ## The flushes of a rotation -/

/-- The directory after the flush of a memtable. -/
def afterFlush (host : Host) (config : Config) (directory : Directory) (memtable : MemTable) :
    Directory :=
  final ((platform host).flushTable config memtable directory)

/-- Memtables that are flushed one after another find new names and later times. -/
def OnTime (host : Host) (machine : Machine Directory MemoryTable) (memtables : List MemTable) :
    Prop :=
  Runs.Guarded (Punctual host) (afterFlush host machine.engine.config) machine.world memtables

instance (host : Host) (machine : Machine Directory MemoryTable) (memtables : List MemTable) :
    Decidable (OnTime host machine memtables) :=
  inferInstanceAs (Decidable (Runs.Guarded _ _ _ _))

/-- An engine that runs: some writes are in table files, the later ones in the immutable
memtables, oldest first, and the latest in the current one. -/
structure Stacked (base : List MemoryTable) (flushed : List Write) (older : List (List Write))
    (current : List Write) (machine : Machine Directory MemoryTable) : Prop where
  running : machine.engine.closed = false
  files : Recoverable base flushed machine.world.files
  waiting : List.Forall₂ MemTable.Records machine.engine.immutableMemtables older
  newest : machine.engine.memtable.Records current

namespace Stacked

variable {base : List MemoryTable} {flushed current : List Write} {older : List (List Write)}
  {machine : Machine Directory MemoryTable}

theorem flushExcess (fuel : Nat) (stacked : Stacked base flushed older current machine)
    (onTime : OnTime host machine machine.engine.excess) :
    match flushExcess (platform host) fuel machine with
    | .ok _ reached => ∃ done rest, older = done ++ rest ∧
        Stacked base (flushed ++ done.flatten) rest current reached
    | .error _ reached => ∃ done rest, older = done ++ rest ∧
        Recoverable base (flushed ++ done.flatten) reached.world.files := by
  -- by turns of the loop; each takes the oldest memtable off the list
  induction fuel generalizing machine flushed older with
  | zero => exact ⟨[], older, rfl, by simpa using stacked⟩
  | succ fuel ih =>
      cases listed : machine.engine.immutableMemtables with
      | nil =>
          have idle : Machine.flushExcess (platform host) (fuel + 1) machine = .ok () machine := by
            rw [Machine.flushExcess, bind_eq, get_apply]
            simp only [listed]
            rfl
          rw [idle]
          exact ⟨[], older, rfl, by simpa using stacked⟩
      | cons oldest rest =>
          have waiting := stacked.waiting
          rw [listed] at waiting
          cases waiting with
          | @cons _ recent _ later records waiting =>
          rw [flushExcess_succ _ _ listed]
          by_cases full : machine.engine.config.maxMemtables < rest.length + 1
          · rw [if_pos full]
            rw [OnTime, StorageEngine.excess_cons listed full] at onTime
            have flushing := stacked.files.flushTable machine.engine.config records onTime.1
            have ahead := onTime.2
            rw [afterFlush] at ahead
            cases ran : (platform host).flushTable machine.engine.config oldest machine.world with
            | ok made world =>
                rw [ran] at flushing ahead
                dsimp only
                have next : Stacked base (flushed ++ recent) later current
                    { engine := (machine.engine.setImmutable rest).install made, world } :=
                  ⟨by simpa using stacked.running, flushing, by simpa using waiting,
                    by simpa using stacked.newest⟩
                have turns := ih next (by simpa [OnTime, StorageEngine.excess] using ahead)
                generalize Machine.flushExcess (platform host) fuel
                  { engine := (machine.engine.setImmutable rest).install made, world } = result
                  at turns ⊢
                have joined : ∀ done : List (List Write),
                    flushed ++ (recent :: done).flatten = flushed ++ recent ++ done.flatten :=
                  fun done => by rw [List.flatten_cons, List.append_assoc]
                cases result with
                | ok _ reached =>
                    obtain ⟨done, kept, rfl, reached⟩ := turns
                    exact ⟨recent :: done, kept, rfl, by rwa [joined]⟩
                | error _ reached =>
                    obtain ⟨done, kept, rfl, reached⟩ := turns
                    exact ⟨recent :: done, kept, rfl, by rwa [joined]⟩
            | error fault world =>
                rw [ran] at flushing
                rcases flushing with same | more
                · exact ⟨[], recent :: later, rfl, by simpa using same⟩
                · exact ⟨[recent], later, rfl, by simpa using more⟩
          · rw [if_neg full]
            exact ⟨[], recent :: later, rfl, by simpa using stacked⟩

/-- The key of each write that is not in a file is in a memtable. -/
theorem exists_memtable (stacked : Stacked base flushed older current machine) {write : Write}
    (member : write ∈ older.flatten ++ current) :
    ∃ memtable ∈ machine.engine.memtables, (memtable.get write.key).isSome = true := by
  rcases List.mem_append.mp member with waiting | newest
  · obtain ⟨recent, listed, member⟩ := List.mem_flatten.mp waiting
    obtain ⟨place, inside, rfl⟩ := List.mem_iff_getElem.mp listed
    have bound : place < machine.engine.immutableMemtables.length :=
      stacked.waiting.length_eq ▸ inside
    exact ⟨machine.engine.immutableMemtables[place],
      List.mem_cons_of_mem _ (List.mem_reverse.mpr (List.getElem_mem bound)),
      (stacked.waiting.get bound inside).isSome_get member⟩
  · exact ⟨machine.engine.memtable, List.mem_cons_self, stacked.newest.isSome_get newest⟩

end Stacked

/-! ## One write -/

/-- An engine that runs, with some writes in table files and the later ones in memtables. -/
def Logged (base : List MemoryTable) (flushed pending : List Write)
    (machine : Machine Directory MemoryTable) : Prop :=
  ∃ older current, pending = older.flatten ++ current ∧
    Stacked base flushed older current machine

namespace Logged

variable {base : List MemoryTable} {flushed pending : List Write}
  {machine : Machine Directory MemoryTable}

theorem checkRotateMemtable (host : Host) (logged : Logged base flushed pending machine)
    (onTime : machine.engine.memtable.shouldFlush = true →
      OnTime host machine machine.engine.rotated.excess) :
    match checkRotateMemtable (platform host) machine with
    | .ok _ reached => ∃ moved left, pending = moved ++ left ∧
        Logged base (flushed ++ moved) left reached
    | .error _ reached => ∃ moved, moved <+: pending ∧
        Recoverable base (flushed ++ moved) reached.world.files := by
  obtain ⟨older, current, rfl, stacked⟩ := logged
  rw [checkRotateMemtable_apply]
  by_cases full : machine.engine.memtable.shouldFlush = true
  · rw [if_pos full]
    have rotated : Stacked base flushed (older ++ [current]) []
        { machine with engine := machine.engine.rotated } :=
      ⟨stacked.running, stacked.files, List.rel_append stacked.waiting
        (.cons stacked.newest .nil), MemTable.records_withSequence _ _⟩
    have joined : (older ++ [current]).flatten = older.flatten ++ current := by simp
    have flushes := rotated.flushExcess (machine.engine.immutableMemtables.length + 1)
      (onTime full)
    generalize flushExcess (platform host) (machine.engine.immutableMemtables.length + 1)
      { machine with engine := machine.engine.rotated } = result at flushes ⊢
    cases result with
    | ok _ reached =>
        obtain ⟨done, rest, split, after⟩ := flushes
        refine ⟨done.flatten, rest.flatten ++ [], ?_, rest, [], rfl, after⟩
        rw [← joined, split, List.flatten_append, List.append_nil]
    | error _ reached =>
        obtain ⟨done, rest, split, after⟩ := flushes
        refine ⟨done.flatten, ?_, after⟩
        rw [← joined, split, List.flatten_append]
        exact List.prefix_append _ _
  · rw [if_neg full]
    exact ⟨[], _, rfl, older, current, rfl, by rwa [List.append_nil]⟩

theorem writeMemtable (host : Host) (logged : Logged base flushed pending machine)
    (write : Write) :
    match writeMemtable (platform host) write.key write.value machine with
    | .ok _ reached => Logged base flushed (pending ++ [write]) reached
    | .error _ reached => Recoverable base flushed reached.world.files := by
  obtain ⟨older, current, rfl, stacked⟩ := logged
  rw [writeMemtable_apply]
  cases stored : machine.engine.memtable.write write.key write.value
      ((platform host).now machine.world).1.toUInt64 with
  | ok written =>
      exact ⟨older, current ++ [write], List.append_assoc _ _ _, stacked.running, stacked.files,
        stacked.waiting, stacked.newest.write stored⟩
  | error fault => exact stacked.files

end Logged

/-- The memtables that a write flushes. -/
def flushesOf (engine : StorageEngine MemoryTable) (write : Write) : List MemTable :=
  if write.rejection engine = none ∧ engine.memtable.shouldFlush = true then
    engine.rotated.excess
  else []

/-- What a write flushes finds new names and later times. -/
def Timely (host : Host) (machine : Machine Directory MemoryTable) (write : Write) : Prop :=
  OnTime host machine (flushesOf machine.engine write)

instance (host : Host) (machine : Machine Directory MemoryTable) (write : Write) :
    Decidable (Timely host machine write) :=
  inferInstanceAs (Decidable (OnTime _ _ _))

/-- A write that returns `Ok` is the latest of those in memory, behind those that it has
flushed.  One that stops has flushed some writes. -/
theorem Logged.run {base : List MemoryTable} {flushed pending : List Write} {write : Write}
    {machine : Machine Directory MemoryTable} (logged : Logged base flushed pending machine)
    (timely : Timely host machine write) :
    match write.run (platform host) machine with
    | .ok _ reached => ∃ moved left, pending ++ [write] = moved ++ left ∧
        Logged base (flushed ++ moved) left reached
    | .error _ reached => ∃ moved, moved <+: pending ∧
        Recoverable base (flushed ++ moved) reached.world.files := by
  rw [Write.run_apply]
  cases accepted : write.rejection machine.engine with
  | some failure =>
      obtain ⟨older, current, _, stacked⟩ := logged
      exact ⟨[], List.nil_prefix, by simpa using stacked.files⟩
  | none =>
      have room := logged.checkRotateMemtable host fun full => by
        rwa [Timely, flushesOf, if_pos ⟨accepted, full⟩] at timely
      dsimp only
      cases ran : Machine.checkRotateMemtable (platform host) machine with
      | error fault reached =>
          rw [ran] at room
          rw [bind_of_error ran]
          exact room
      | ok _ middle =>
          rw [ran] at room
          rw [bind_of_ok ran]
          obtain ⟨moved, left, rfl, now⟩ := room
          have wrote := now.writeMemtable host write
          generalize Machine.writeMemtable (platform host) write.key write.value middle = result
            at wrote ⊢
          cases result with
          | ok _ reached => exact ⟨moved, left ++ [write], List.append_assoc _ _ _, wrote⟩
          | error fault reached => exact ⟨moved, List.prefix_append _ _, wrote⟩

/-- The key of a write is in a memtable. -/
def InMemory (machine : Machine Directory MemoryTable) (write : Write) : Prop :=
  ∃ memtable ∈ machine.engine.memtables, (memtable.get write.key).isSome = true

/-- The engine writes behind its files. -/
theorem recorder (host : Host) (base : List MemoryTable) :
    WriteBehind.Recorder (Write.run (platform host)) (Timely host) InMemory (Logged base)
      (fun writes machine => Recoverable base writes machine.world.files) where
  recover := fun ⟨_, _, _, stacked⟩ => stacked.files
  held := by
    rintro durable pending machine ⟨older, current, rfl, stacked⟩ write member
    exact stacked.exists_memtable member
  recorded := by
    intro durable pending machine write reached logged timely ran
    have stepped := logged.run timely
    rwa [ran] at stepped
  broken := by
    intro durable pending machine write fault reached logged timely ran
    have stepped := logged.run timely
    rwa [ran] at stepped

/-! ## Opening an engine -/

section Opening

variable {directory : Directory} {opened : Machine Directory MemoryTable}

/-- File operations that only read use up the schedule. -/
theorem maintains_attempt (files : List MemoryTable) (schedule : List Outcome) :
    Maintains (fun directory : Directory =>
      directory.files = files ∧ directory.outcomes <:+ schedule) attempt := by
  rintro ⟨listed, ticks, outcomes⟩ ⟨same, suffix⟩
  cases outcomes with
  | nil => exact ⟨same, suffix⟩
  | cons outcome outcomes =>
      have rest := (List.suffix_cons outcome outcomes).trans suffix
      cases outcome <;> exact ⟨same, rest⟩

theorem maintains_openTable (path : FileName) (mapped : Bool) (files : List MemoryTable)
    (schedule : List Outcome) :
    Maintains (fun directory : Directory =>
      directory.files = files ∧ directory.outcomes <:+ schedule) (openTable path mapped) := by
  refine (maintains_attempt files schedule).bind fun _ => ensures_get_bind fun directory holds => ?_
  cases directory.find path with
  | some table => exact ensures_pure table
  | none => exact fun _ kept => kept

/-- Loading a file reads the directory only. -/
theorem maintains_reading (host : Host) (engine : StorageEngine MemoryTable)
    (files : List MemoryTable) (schedule : List Outcome) (name : FileName) (mapped : Bool) :
    Maintains (fun machine : Machine Directory MemoryTable => machine.engine = engine ∧
        machine.world.files = files ∧ machine.world.outcomes <:+ schedule)
      (onWorld ((platform host).openTable name mapped)) := by
  refine maintains_of_final fun machine ⟨same, kept⟩ => ?_
  rw [final_onWorld]
  exact ⟨same, (maintains_openTable name mapped files schedule).final kept⟩

/-- An engine that has been opened has no writes in memory; opening has left the files as
they were. -/
theorem openEngine_eq_ok
    (opening : openEngine (platform host) config directory = .ok () opened) :
    config.validate = .ok () ∧ opened.engine.closed = false ∧
      opened.engine.memtable = .new config.memtableSizeThreshold ∧
      opened.engine.immutableMemtables = [] ∧ opened.world.files = directory.files ∧
      opened.world.outcomes <:+ directory.outcomes := by
  unfold openEngine at opening
  split at opening
  · cases opening
  next valid =>
    refine ⟨valid, ?_⟩
    obtain ⟨names, listed, listing, loading⟩ := bind_eq_ok.mp opening
    cases listing
    obtain ⟨found, loaded, folding, setting⟩ := bind_eq_ok.mp loading
    have keeps : ∀ names : List FileName, Maintains (fun machine : Machine Directory MemoryTable =>
        machine.engine = .fresh config ∧ machine.world.files = directory.files ∧
          machine.world.outcomes <:+ directory.outcomes)
        (names.foldlM (loadFile (platform host)) []) :=
      fun names => Ensures.foldlM (fun gathered name => maintains_loadFile
        (maintains_reading host (.fresh config) directory.files directory.outcomes)
        gathered name) []
    obtain ⟨same, files, suffix⟩ := (keeps _).of_ok ⟨rfl, rfl, List.suffix_rfl⟩ folding
    cases setting
    exact ⟨congrArg StorageEngine.closed same, congrArg StorageEngine.memtable same,
      congrArg StorageEngine.immutableMemtables same, files, suffix⟩

theorem logged_of_openEngine (dated : Dated directory.files)
    (opening : openEngine (platform host) config directory = .ok () opened) :
    Logged directory.files [] [] opened := by
  obtain ⟨-, running, memtable, immutable, files, -⟩ := openEngine_eq_ok opening
  refine ⟨[], [], rfl, running, ?_, ?_, ?_⟩
  · rw [files]
    exact recoverable_nil dated
  · rw [immutable]
    exact .nil
  · rw [memtable]
    exact MemTable.records_withSequence config.memtableSizeThreshold 0

/-- What an engine reads that is opened on the files of a directory. -/
def Restarts (host : Host) (config : Config) (directory : Directory)
    (reads : Key → Result (Option Value)) : Prop :=
  ∃ again, openEngine (platform host) config { directory with outcomes := [] } = .ok () again ∧
    ∀ key, again.engine.get ops key = reads key

theorem restarts_iff (valid : config.validate = .ok ()) {reads : Key → Result (Option Value)} :
    Restarts host config directory reads ↔
      ∀ key, (reopened host config directory).get ops key = reads key := by
  have opening : openEngine (platform host) config { directory with outcomes := [] } =
      .ok () { engine := reopened host config directory
               world := { directory with outcomes := [] } } := by
    rw [openEngine, valid]
    exact loadSstables_of_undisturbed rfl
  constructor
  · rintro ⟨again, ran, same⟩
    cases opening.symm.trans ran
    exact same
  · exact fun same => ⟨_, opening, same⟩

/-- An engine that is opened on recoverable files. -/
theorem Recoverable.restarts {writes : List Write} {left : Directory}
    {reads : Key → Result (Option Value)}
    (recoverable : Recoverable directory.files writes left.files) (dated : Dated directory.files)
    (valid : config.validate = .ok ()) (before : Restarts host config directory reads) :
    Restarts host config left (Write.overlay writes reads) := by
  rw [restarts_iff valid] at before ⊢
  obtain ⟨new, files, flushed⟩ := recoverable
  intro key
  rw [flushed.get_reopened dated files (Config.maxLevels_pos valid), funext before]

/-- An engine is opened on a directory and takes writes until one of them fails or the
process dies.  Then an engine that is opened on the files reads what the first so many of
the writes have left, and every write after these had been in a memtable from when it had
returned. -/
theorem recovers_prefix {writes : List Write} {reads : Key → Result (Option Value)}
    (dated : Dated directory.files) (earlier : Restarts host config directory reads)
    (opening : openEngine (platform host) config directory = .ok () opened)
    (timely : Runs.Guarded (Timely host) (WriteBehind.after (Write.run (platform host))) opened
      writes) :
    ∃ recovered, recovered <+: writes ∧
      Restarts host config (final (Write.runAll (platform host) writes opened)).world
        (Write.overlay recovered reads) ∧
      ∀ taken before, taken <+: writes → Write.runAll (platform host) taken opened = .ok () before →
        ∀ write ∈ taken.drop recovered.length, InMemory before write := by
  obtain ⟨recovered, first, recoverable, held⟩ :=
    (recorder host directory.files).stopped (logged_of_openEngine dated opening) timely
  rw [List.nil_append] at first recoverable
  exact ⟨recovered, first,
    recoverable.restarts dated (openEngine_eq_ok opening).1 earlier, held⟩

/-- A machine whose clock ticks in seconds. -/
def secondsHost : Host where
  clock ticks := 1000000 * (ticks + 5)
  order := id
  lists := List.Perm.refl

/-- A directory with a table of level 1. -/
def oneTable (outcomes : List Outcome) : Directory :=
  { files := [⟨sstableName 1 1 1, [⟨[1], some [10], 0, 1⟩], 1000000⟩], ticks := 0, outcomes }

/-- Four writes; under the small configuration the third one flushes the first. -/
def fourWrites : List Write :=
  [.put [1] [20], .put [2] [30], .delete [1], .put [3] [40]]

/-- An engine on that directory. -/
def openedOn (outcomes : List Outcome) : Machine Directory MemoryTable :=
  final (openEngine (platform secondsHost) MemoryWorld.smallConfig (oneTable outcomes))

/-- What the table of the directory reads as. -/
def tableReads (outcomes : List Outcome) (key : Key) : Result (Option Value) :=
  (reopened secondsHost MemoryWorld.smallConfig (oneTable outcomes)).get ops key

theorem restarts_oneTable (outcomes : List Outcome) :
    Restarts secondsHost MemoryWorld.smallConfig (oneTable outcomes) (tableReads outcomes) :=
  (restarts_iff (by decide +kernel)).mpr fun _ => rfl

/-- The process dies while the fourth write flushes the second one. -/
theorem recovers_prefix_fourWrites :
    ∃ recovered, recovered <+: fourWrites ∧
      Restarts secondsHost MemoryWorld.smallConfig
        (final (Write.runAll (platform secondsHost) fourWrites
          (openedOn [.done, .done, .done, .crashed]))).world
        (Write.overlay recovered (tableReads [.done, .done, .done, .crashed])) ∧
      ∀ taken before, taken <+: fourWrites →
        Write.runAll (platform secondsHost) taken (openedOn [.done, .done, .done, .crashed]) =
          .ok () before →
        ∀ write ∈ taken.drop recovered.length, InMemory before write :=
  recovers_prefix (by decide +kernel) (restarts_oneTable _)
    (eq_ok_of_succeeded (by decide +kernel)) (by decide +kernel)

end Opening

end Directory

end JustDb

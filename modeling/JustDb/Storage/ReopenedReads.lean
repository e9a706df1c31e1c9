import JustDb.Storage.StoppedCompaction

/-!
# Reads of an engine that has been reopened

Loading sorts the tables of a level by their creation times and leaves tables of one time
in the order in which the directory lists them.  A read asks the tables of level 0 from the
last one on, and of each other level the first one whose range covers the key.
-/

namespace JustDb

open Stateful Machine

namespace MemoryTable

/-- The key range of a table. -/
abbrev Covers (key : Key) (table : MemoryTable) : Prop :=
  (ops.metadata table).minKey ≤ key ∧ key ≤ (ops.metadata table).maxKey

/-- What some tables answer as the tables of a level. -/
def answer (level : Nat) (tables : List MemoryTable) (key : Key) : Option Entry :=
  if level = 0 then
    tables.reverse.findSome? fun table => entryFor table.entries key
  else
    (tables.find? fun table => Covers key table).bind fun table => entryFor table.entries key

theorem lookupTable_eq (key : Key) (table : MemoryTable) :
    StorageEngine.lookupTable ops key table = .ok (entryFor table.entries key) := by
  have asked : ops.mightContain table key =
      .ok (table.entries.any fun entry => entry.key = key) := rfl
  rw [StorageEngine.lookupTable, asked]
  cases held : table.entries.any fun entry => entry.key = key with
  | true => rfl
  | false =>
      have missing : entryFor table.entries key = none := by
        refine entryFor_eq_none.mpr fun entry member keyed => ?_
        have different := List.any_eq_false.mp held entry member
        exact different (decide_eq_true keyed)
      rw [missing]
      rfl

theorem lookupLevel_eq (engine : StorageEngine MemoryTable) (key : Key) (level : Nat) :
    engine.lookupLevel ops key level = .ok (answer level (engine.tables level) key) := by
  rw [StorageEngine.lookupLevel, answer]
  by_cases top : level = 0
  · rw [if_pos top, if_pos top, top]
    exact Layered.first_map_of_ok fun table _ => lookupTable_eq key table
  · rw [if_neg top, if_neg top, StorageEngine.findSstableForKey]
    cases engine.tables level |>.find? fun table => Covers key table with
    | none => rfl
    | some table => exact lookupTable_eq key table

/-- What an engine whose memtables are empty reads. -/
theorem get_of_flushed {engine : StorageEngine MemoryTable} (running : engine.closed = false)
    (flushed : ∀ memtable ∈ engine.memtables, memtable.count = 0) (key : Key) :
    engine.get ops key = .ok (((List.range engine.config.maxLevels).findSome? fun level =>
      answer level (engine.tables level) key).bind Entry.value) := by
  have nothing : engine.memtables.findSome? (fun memtable => memtable.get key) = none :=
    List.findSome?_eq_none_iff.mpr fun memtable member =>
      MemTable.get_of_count_eq_zero (flushed memtable member) key
  rw [StorageEngine.get_eq running, StorageEngine.search_eq, nothing, Layered.none_orElse,
    StorageEngine.searchTables,
    Layered.first_map_of_ok fun level _ => lookupLevel_eq engine key level]
  rfl

/-! ## The table that decides -/

/-- The table of a level that decides what the level answers. -/
def asked (level : Nat) (tables : List MemoryTable) (key : Key) : Option MemoryTable :=
  if level = 0 then
    tables.reverse.find? fun table => (entryFor table.entries key).isSome
  else
    tables.find? fun table => Covers key table

theorem answer_eq_asked (level : Nat) (tables : List MemoryTable) (key : Key) :
    answer level tables key =
      (asked level tables key).bind fun table => entryFor table.entries key := by
  rw [answer, asked]
  split
  · induction tables.reverse with
    | nil => rfl
    | cons table tables ih =>
        rw [List.findSome?_cons, List.find?_cons]
        cases held : entryFor table.entries key with
        | some entry => exact held.symm
        | none => exact ih
  · rfl

theorem mem_of_asked {level : Nat} {tables : List MemoryTable} {key : Key} {table : MemoryTable}
    (found : asked level tables key = some table) : table ∈ tables := by
  rw [asked] at found
  split at found
  · exact List.mem_reverse.mp (List.mem_of_find?_eq_some found)
  · exact List.mem_of_find?_eq_some found

theorem covers_of_asked {level : Nat} (deep : level ≠ 0) {tables : List MemoryTable} {key : Key}
    {table : MemoryTable} (found : asked level tables key = some table) : Covers key table := by
  rw [asked, if_neg deep] at found
  simpa using List.find?_some found

theorem not_covers_of_asked {level : Nat} (deep : level ≠ 0) {tables : List MemoryTable}
    {key : Key} (none : asked level tables key = none) :
    ∀ table ∈ tables, ¬Covers key table := by
  rw [asked, if_neg deep] at none
  simpa using List.find?_eq_none.mp none

theorem mem_of_answer {level : Nat} {tables : List MemoryTable} {key : Key} {entry : Entry}
    (found : answer level tables key = some entry) :
    ∃ table ∈ tables, entryFor table.entries key = some entry := by
  rw [answer_eq_asked] at found
  obtain ⟨table, decides, held⟩ := Option.bind_eq_some_iff.mp found
  exact ⟨table, mem_of_asked decides, held⟩

theorem answer_nil (level : Nat) (key : Key) : answer level [] key = none := by
  rw [answer]
  split <;> rfl

/-- Tables that do not decide make no difference. -/
theorem asked_filter {level : Nat} {tables : List MemoryTable} {key : Key}
    {keep : MemoryTable → Bool}
    (decides : ∀ table, asked level tables key = some table → keep table = true) :
    asked level (tables.filter keep) key = asked level tables key := by
  rw [asked, asked] at *
  split
  next top =>
    rw [if_pos top] at decides
    rw [← List.filter_reverse]
    exact Newest.find?_filter_of_found decides
  next deep =>
    rw [if_neg deep] at decides
    exact Newest.find?_filter_of_found decides

theorem answer_filter {level : Nat} {tables : List MemoryTable} {key : Key}
    {keep : MemoryTable → Bool}
    (decides : ∀ table, asked level tables key = some table → keep table = true) :
    answer level (tables.filter keep) key = answer level tables key := by
  rw [answer_eq_asked, answer_eq_asked, asked_filter decides]

/-- An exact table covers the keys that it holds. -/
theorem covers_of_held {table : MemoryTable} (exact_ : ExactFor ops table table.entries)
    {key : Key} {entry : Entry} (held : entryFor table.entries key = some entry) :
    Covers key table := by
  obtain ⟨listed, rfl⟩ := mem_of_entryFor held
  exact ⟨exact_.minKey_le listed, exact_.le_maxKey listed⟩

/-- The first table of a level answers for the keys that it covers. -/
theorem answer_cons_of_covers {level : Nat} (deep : level ≠ 0) {table : MemoryTable}
    {tables : List MemoryTable} {key : Key} (covers : Covers key table) :
    answer level (table :: tables) key = entryFor table.entries key := by
  rw [answer, if_neg deep, List.find?_cons, decide_eq_true covers]
  rfl

/-- A single exact table answers with what it holds. -/
theorem answer_singleton {table : MemoryTable} (exact_ : ExactFor ops table table.entries)
    (level : Nat) (key : Key) : answer level [table] key = entryFor table.entries key := by
  by_cases top : level = 0
  · rw [answer, if_pos top]
    exact List.findSome?_singleton
  · by_cases covers : Covers key table
    · exact answer_cons_of_covers top covers
    · have missing : entryFor table.entries key = none := by
        by_contra held
        obtain ⟨entry, held⟩ := Option.ne_none_iff_exists'.mp held
        exact covers (covers_of_held exact_ held)
      rw [answer, if_neg top, List.find?_cons, decide_eq_false covers, missing]
      rfl

end MemoryTable

namespace Directory

open MemoryTable

variable {host : Host}

/-! ## Orders of loaded tables -/

/-- The tables of each level in an order in which loading may put them. -/
structure Arranges (files : List MemoryTable) (arranged : Nat → List MemoryTable) : Prop where
  perm : ∀ level,
    (arranged level).Perm (files.filter fun file => fileLevel file.path = some level)
  sorted : ∀ level,
    (arranged level).Pairwise fun older newer => older.createdAt ≤ newer.createdAt

theorem arranges_loaded {directory : Directory}
    (names : (directory.files.map MemoryTable.path).Nodup) (host : Host) :
    Arranges directory.files (directory.loaded host) :=
  ⟨perm_loaded names, pairwise_loaded directory⟩

theorem Arranges.mem_iff {files : List MemoryTable} {arranged : Nat → List MemoryTable}
    (arranges : Arranges files arranged) {level : Nat} {file : MemoryTable} :
    file ∈ arranged level ↔ file ∈ files ∧ fileLevel file.path = some level := by
  rw [(arranges.perm level).mem_iff, List.mem_filter, decide_eq_true_iff]

/-- Some files can be listed so that those of the first levels come in given orders. -/
theorem exists_listing {files : List MemoryTable} {arranged : Nat → List MemoryTable}
    (arranges : Arranges files arranged) (levels : Nat) :
    ∃ listing : List MemoryTable, listing.Perm files ∧ ∀ level < levels,
      (listing.filter fun file => fileLevel file.path = some level) = arranged level := by
  induction levels with
  | zero => exact ⟨files, .refl _, nofun⟩
  | succ levels ih =>
      obtain ⟨listing, perm, upper⟩ := ih
      have own : (arranged levels).Perm
          (listing.filter fun file => fileLevel file.path = some levels) :=
        (arranges.perm levels).trans (perm.filter _).symm
      refine ⟨arranged levels ++ listing.filter fun file => ¬fileLevel file.path = some levels,
        ?_, fun level below => ?_⟩
      · refine ((own.append_right _).trans ?_).trans perm
        simpa using List.filter_append_perm (fun file => fileLevel file.path = some levels) listing
      · rw [List.filter_append, List.filter_filter]
        by_cases last : level = levels
        · subst last
          have all : (arranged level).filter (fun file => fileLevel file.path = some level) =
              arranged level :=
            List.filter_eq_self.mpr fun file member =>
              decide_eq_true (arranges.mem_iff.mp member).2
          have others : (listing.filter fun file => decide (fileLevel file.path = some level) &&
              decide ¬fileLevel file.path = some level) = [] :=
            List.filter_eq_nil_iff.mpr (by simp)
          rw [all, others, List.append_nil]
        · have none : (arranged levels).filter (fun file => fileLevel file.path = some level) =
              [] := by
            refine List.filter_eq_nil_iff.mpr fun file member same => last ?_
            have leveled := (arranges.mem_iff.mp member).2
            rw [of_decide_eq_true same] at leveled
            exact Option.some.inj leveled
          rw [none, List.nil_append, ← upper level (by omega)]
          refine List.filter_congr fun file _ => ?_
          by_cases same : fileLevel file.path = some level
          · simp [same, last]
          · simp [same]

/-- Files that are listed in some order are loaded in that order and sorted. -/
theorem loaded_of_listing {directory : Directory}
    (names : (directory.files.map MemoryTable.path).Nodup) {listing : List MemoryTable}
    (perm : listing.Perm directory.files)
    (order : host.order (directory.files.map MemoryTable.path) = listing.map MemoryTable.path)
    (level : Nat) :
    directory.loaded host level =
      (listing.filter fun file => fileLevel file.path = some level).insertionSort
        fun older newer => older.createdAt ≤ newer.createdAt := by
  have found : (listing.map MemoryTable.path).filterMap directory.openable =
      listing.filterMap fun file => (fileLevel file.path).map fun level => (level, file) := by
    rw [List.filterMap_map]
    refine List.filterMap_congr fun file member => ?_
    rw [Function.comp_apply, openable, find_path names (perm.mem_iff.mp member)]
    cases fileLevel file.path <;> rfl
  have tables : (((listing.map MemoryTable.path).filterMap directory.openable).filter
      fun item => item.1 = level).map Prod.snd =
        listing.filter fun file => fileLevel file.path = some level := by
    rw [found, List.filter_filterMap, List.map_filterMap, ← List.filterMap_eq_filter]
    refine List.filterMap_congr fun file _ => ?_
    cases read : fileLevel file.path with
    | none => simp [read, Option.guard]
    | some other => by_cases same : other = level <;> simp [read, same, Option.guard]
  rw [loaded, levels, levelsOf, order, tables]
  split
  next none => rw [List.isEmpty_iff.mp none]; rfl
  next => rfl

/-- Each order is that of some directory listing. -/
theorem exists_host {directory : Directory}
    (names : (directory.files.map MemoryTable.path).Nodup) {arranged : Nat → List MemoryTable}
    (arranges : Arranges directory.files arranged) (levels : Nat) :
    ∃ host, ∀ level < levels, directory.loaded host level = arranged level := by
  obtain ⟨listing, perm, upper⟩ := exists_listing arranges levels
  refine ⟨{
    clock := id
    order := fun names =>
      if names = directory.files.map MemoryTable.path then listing.map MemoryTable.path
      else names
    lists := fun names => ?_ }, fun level below => ?_⟩
  · split
    next same =>
      rw [same]
      exact perm.map _
    next => exact .refl _
  · rw [loaded_of_listing names perm (if_pos rfl), upper level below]
    exact (arranges.sorted level).insertionSort_eq

/-! ## Reads after opening -/

/-- An engine that has been opened on a directory. -/
def reopened (host : Host) (config : Config) (directory : Directory) :
    StorageEngine MemoryTable :=
  { (StorageEngine.fresh config : StorageEngine MemoryTable) with
    sstables := directory.levels host }

theorem memtables_reopened (host : Host) (config : Config) (directory : Directory) :
    ∀ memtable ∈ (reopened host config directory).memtables, memtable.count = 0 := by
  intro memtable member
  cases List.mem_singleton.mp member
  rfl

/-- However the directory is listed, an engine that is opened on it reads every key as another
engine does. -/
def KeepsReads (engine : StorageEngine MemoryTable) (directory : Directory) : Prop :=
  ∀ host, ∃ opened, loadSstables (platform host)
      { engine := .fresh engine.config, world := { directory with outcomes := [] } } =
        .ok () opened ∧
    ∀ key, opened.engine.get ops key = engine.get ops key

/-- What an engine with the given number of levels reads from tables in a given order. -/
def reads (levels : Nat) (arranged : Nat → List MemoryTable) (key : Key) : Option Value :=
  ((List.range levels).findSome? fun level => answer level (arranged level) key).bind Entry.value

theorem get_reopened (host : Host) (config : Config) (directory : Directory) (key : Key) :
    (reopened host config directory).get ops key =
      .ok (reads config.maxLevels (directory.loaded host) key) :=
  get_of_flushed rfl (memtables_reopened host config directory) key

theorem reads_congr {levels : Nat} {arranged others : Nat → List MemoryTable} {key : Key}
    (same : ∀ level < levels,
      answer level (arranged level) key = answer level (others level) key) :
    reads levels arranged key = reads levels others key := by
  rw [reads, reads,
    Layered.findSome?_congr fun level member => same level (List.mem_range.mp member)]

/-- Reads do not look past the level that answers. -/
theorem reads_congr_until {levels level : Nat} (inside : level < levels)
    {arranged others : Nat → List MemoryTable} {key : Key} {entry : Entry}
    (above : ∀ upper < level,
      answer upper (arranged upper) key = answer upper (others upper) key)
    (first : answer level (arranged level) key = some entry)
    (second : answer level (others level) key = some entry) :
    reads levels arranged key = reads levels others key := by
  have cut : List.range levels = List.range level ++
      level :: (List.range (levels - (level + 1))).map (level + 1 + ·) := by
    have whole : List.range (level + 1 + (levels - (level + 1))) = _ := List.range_add
    rw [Nat.add_sub_cancel' inside, List.range_succ, List.append_assoc] at whole
    exact whole
  rw [reads, reads, cut, List.findSome?_append, List.findSome?_append, List.findSome?_cons,
    List.findSome?_cons, first, second,
    Layered.findSome?_congr fun upper member => above upper (List.mem_range.mp member)]

/-- In every order in which loading may put some files, the answers are those given. -/
def ReadAs (levels : Nat) (expected : Key → Option Value) (files : List MemoryTable) : Prop :=
  ∀ arranged, Arranges files arranged → ∀ key, reads levels arranged key = expected key

/-- Opening keeps the reads exactly where all orders of the tables answer with them. -/
theorem keepsReads_iff {engine : StorageEngine MemoryTable} {directory : Directory}
    {expected : Key → Option Value} (names : (directory.files.map MemoryTable.path).Nodup)
    (answers : ∀ key, engine.get ops key = .ok (expected key)) :
    KeepsReads engine directory ↔ ReadAs engine.config.maxLevels expected directory.files := by
  have loading : ∀ host, loadSstables (platform host)
      { engine := .fresh engine.config, world := { directory with outcomes := [] } } =
        .ok () { engine := reopened host engine.config directory
                 world := { directory with outcomes := [] } } :=
    fun host => loadSstables_of_undisturbed rfl
  constructor
  · intro keeps arranged arranges key
    obtain ⟨host, same⟩ := exists_host names arranges engine.config.maxLevels
    obtain ⟨opened, loaded, kept⟩ := keeps host
    cases (loading host).symm.trans loaded
    have read := kept key
    rw [get_reopened, answers, Except.ok.injEq] at read
    rw [← read]
    exact reads_congr fun level below => by rw [same level below]
  · intro readAs host
    refine ⟨_, loading host, fun key => ?_⟩
    rw [answers]
    exact (get_reopened host _ directory key).trans
      (congrArg Except.ok (readAs _ (arranges_loaded names host) key))

/-! ## Levels above and below -/

/-- What the levels above a level answer. -/
def answersAbove (level : Nat) (arranged : Nat → List MemoryTable) (key : Key) : Option Entry :=
  (List.range level).findSome? fun upper => answer upper (arranged upper) key

/-- What the levels from one on answer. -/
def answersFrom (start levels : Nat) (arranged : Nat → List MemoryTable) (key : Key) :
    Option Entry :=
  (List.range' start (levels - start)).findSome? fun lower => answer lower (arranged lower) key

section Cut

variable {level levels start : Nat} {arranged : Nat → List MemoryTable} {key : Key}

theorem answersFrom_of_lt (inside : start < levels) :
    answersFrom start levels arranged key =
      (answer start (arranged start) key).or (answersFrom (start + 1) levels arranged key) := by
  obtain ⟨more, rfl⟩ := Nat.exists_eq_add_of_lt inside
  have first : start + more + 1 - start = more + 1 := by omega
  have rest : start + more + 1 - (start + 1) = more := by omega
  rw [answersFrom, answersFrom, first, rest, List.range'_succ, List.findSome?_cons]
  cases answer start (arranged start) key <;> rfl

theorem answersFrom_self : answersFrom levels levels arranged key = none := by
  rw [answersFrom, Nat.sub_self]
  rfl

theorem reads_cut (inside : start ≤ levels) :
    reads levels arranged key =
      ((answersAbove start arranged key).or (answersFrom start levels arranged key)).bind
        Entry.value := by
  have cut : List.range levels = List.range start ++ List.range' start (levels - start) := by
    have whole : List.range' 0 start ++ List.range' (0 + start) (levels - start) = _ :=
      List.range'_append_1
    rw [Nat.zero_add, Nat.add_sub_cancel' inside] at whole
    rw [List.range_eq_range', List.range_eq_range', whole]
  rw [reads, cut, List.findSome?_append]
  rfl

/-- The levels above two neighbouring ones, the two, and those below. -/
theorem reads_pair (inside : level + 1 < levels) :
    reads levels arranged key =
      ((answersAbove level arranged key).or
        ((answer level (arranged level) key).or
          ((answer (level + 1) (arranged (level + 1)) key).or
            (answersFrom (level + 2) levels arranged key)))).bind Entry.value := by
  rw [reads_cut (Nat.lt_of_succ_lt inside).le, answersFrom_of_lt (Nat.lt_of_succ_lt inside),
    answersFrom_of_lt inside]

/-- The levels above the last one, and the last one. -/
theorem reads_last :
    reads (level + 1) arranged key =
      ((answersAbove level arranged key).or (answer level (arranged level) key)).bind
        Entry.value := by
  rw [reads_cut (Nat.le_succ level), answersFrom_of_lt (Nat.lt_succ_self level), answersFrom_self,
    Option.or_none]

end Cut

/-! ## Orders with two levels changed -/

/-- An order of tables with two neighbouring levels changed. -/
def overriding (level : Nat) (upper lower : List MemoryTable)
    (arranged : Nat → List MemoryTable) : Nat → List MemoryTable := fun other =>
  if other = level then upper else if other = level + 1 then lower else arranged other

section Overriding

variable {level levels : Nat} {upper lower : List MemoryTable} {arranged : Nat → List MemoryTable}
  {key : Key}

@[simp] theorem overriding_upper :
    overriding level upper lower arranged level = upper := if_pos rfl

@[simp] theorem overriding_lower :
    overriding level upper lower arranged (level + 1) = lower := by
  rw [overriding, if_neg (Nat.succ_ne_self level), if_pos rfl]

theorem overriding_other {other : Nat} (notUpper : other ≠ level) (notLower : other ≠ level + 1) :
    overriding level upper lower arranged other = arranged other := by
  rw [overriding, if_neg notUpper, if_neg notLower]

@[simp] theorem answersAbove_overriding :
    answersAbove level (overriding level upper lower arranged) key =
      answersAbove level arranged key := by
  refine Layered.findSome?_congr fun other member => ?_
  have above := List.mem_range.mp member
  rw [overriding_other above.ne (by omega)]

@[simp] theorem answersFrom_overriding :
    answersFrom (level + 2) levels (overriding level upper lower arranged) key =
      answersFrom (level + 2) levels arranged key := by
  refine Layered.findSome?_congr fun other member => ?_
  have below := (List.mem_range'_1.mp member).1
  rw [overriding_other (by omega) (by omega)]

theorem reads_overriding (inside : level + 1 < levels) :
    reads levels (overriding level upper lower arranged) key =
      ((answersAbove level arranged key).or
        ((answer level upper key).or
          ((answer (level + 1) lower key).or
            (answersFrom (level + 2) levels arranged key)))).bind Entry.value := by
  rw [reads_pair inside, answersAbove_overriding, answersFrom_overriding, overriding_upper,
    overriding_lower]

theorem reads_overriding_last :
    reads (level + 1) (overriding level upper lower arranged) key =
      ((answersAbove level arranged key).or (answer level upper key)).bind Entry.value := by
  rw [reads_last, answersAbove_overriding, overriding_upper]

end Overriding

/-- The same files on all levels but two neighbouring ones. -/
def Elsewhere (level : Nat) (files others : List MemoryTable) : Prop :=
  ∀ other, other ≠ level → other ≠ level + 1 →
    (files.filter fun file => fileLevel file.path = some other).Perm
      (others.filter fun file => fileLevel file.path = some other)

theorem Elsewhere.symm {level : Nat} {files others : List MemoryTable}
    (elsewhere : Elsewhere level files others) : Elsewhere level others files :=
  fun other notUpper notLower => (elsewhere other notUpper notLower).symm

theorem Arranges.overriding {level : Nat} {files others upper lower : List MemoryTable}
    {arranged : Nat → List MemoryTable} (arranges : Arranges files arranged)
    (elsewhere : Elsewhere level files others)
    (upperPerm : upper.Perm (others.filter fun file => fileLevel file.path = some level))
    (upperSorted : upper.Pairwise fun older newer => older.createdAt ≤ newer.createdAt)
    (lowerPerm : lower.Perm (others.filter fun file => fileLevel file.path = some (level + 1)))
    (lowerSorted : lower.Pairwise fun older newer => older.createdAt ≤ newer.createdAt) :
    Arranges others (overriding level upper lower arranged) := by
  constructor
  all_goals
    intro other
    by_cases isUpper : other = level
    · subst isUpper
      rwa [overriding_upper]
    · by_cases isLower : other = level + 1
      · subst isLower
        rwa [overriding_lower]
      · rw [overriding_other isUpper isLower]
        first
          | exact (arranges.perm other).trans (elsewhere other isUpper isLower)
          | exact arranges.sorted other

/-- Some tables sorted by their creation times. -/
def byAge (tables : List MemoryTable) : List MemoryTable :=
  tables.insertionSort fun older newer => older.createdAt ≤ newer.createdAt

theorem byAge_perm (tables : List MemoryTable) : (byAge tables).Perm tables :=
  List.perm_insertionSort _ _

theorem byAge_sorted (tables : List MemoryTable) :
    (byAge tables).Pairwise fun older newer => older.createdAt ≤ newer.createdAt :=
  List.pairwise_insertionSort _ _

end Directory

end JustDb

import JustDb.Storage.Directory

/-!
# Reloading the level map

The level of a table is kept in the name of its file only, its place in the level in
the creation time of its footer only.  Loading a directory reads both back, so that
whatever order `read_dir` lists the files in, every table is at the level that it was
written for, older tables before newer ones.
-/

namespace JustDb

open Stateful Machine

variable {World Table : Type}

/-- A file that `flush_memtable` or `create_sstable` wrote: what its name is made of,
and the table that opening it gives. -/
structure TableFile (Table : Type) where
  level : Nat
  seconds : Nat
  sequence : SequenceNumber
  table : Table
  /-- a level is a `usize` -/
  level_lt : level < wordSize

namespace TableFile

def name (file : TableFile Table) : FileName :=
  sstableName file.level file.seconds file.sequence

/-- What loading makes of the file. -/
def item (file : TableFile Table) : Nat × Table :=
  (file.level, file.table)

/-- The file of a name. -/
def find (files : List (TableFile Table)) (name : FileName) : Option (TableFile Table) :=
  files.find? fun file => file.name = name

/-- Files of different names are found by their names. -/
theorem find_name {files : List (TableFile Table)} (distinct : (files.map name).Nodup)
    {file : TableFile Table} (member : file ∈ files) : find files file.name = some file := by
  refine Newest.find?_eq_some_of_only member (decide_eq_true rfl) ?_
  intro other otherMem same
  exact List.inj_on_of_nodup_map distinct otherMem member (of_decide_eq_true same)

/-- The tables of a level, in the order in which they were created. -/
def atLevel (files : List (TableFile Table)) (level : Nat) : List Table :=
  (files.filter fun file => file.level = level).map table

end TableFile

namespace Machine

open TableFile

variable {platform : Platform World Table} {machine : Machine World Table}
  {files : List (TableFile Table)}

/-- A readable file is loaded under the level of its name. -/
theorem loadFile_name {file : TableFile Table}
    (opened : platform.openTable file.name machine.engine.config.useMmap machine.world =
      .ok file.table machine.world) (found : List (Nat × Table)) :
    loadFile platform found file.name machine = .ok (found ++ [file.item]) machine := by
  have opening : onWorld (platform.openTable file.name machine.engine.config.useMmap) machine =
      .ok file.table machine := onWorld_eq_ok.mpr ⟨_, opened, rfl⟩
  rw [loadFile, name, if_pos (hasSstExtension_sstableName _ _ _),
    parseLevelFromFilename_sstableName file.level_lt]
  dsimp only
  rw [← name, opening]
  rfl

theorem foldlM_loadFile_names {names : List FileName}
    (readable : ∀ name ∈ names, ∃ file ∈ files, file.name = name ∧
      platform.openTable name machine.engine.config.useMmap machine.world =
        .ok file.table machine.world)
    (distinct : (files.map name).Nodup) (found : List (Nat × Table)) :
    names.foldlM (loadFile platform) found machine =
      .ok (found ++ (names.filterMap (find files)).map item) machine := by
  induction names generalizing found with
  | nil => simp
  | cons first names ih =>
      obtain ⟨file, member, rfl, opened⟩ := readable first List.mem_cons_self
      have rest := ih (fun other otherMem => readable other (List.mem_cons_of_mem _ otherMem))
      rw [List.foldlM_cons, bind_of_ok (loadFile_name opened found), rest,
        List.filterMap_cons_some (find_name distinct member), List.map_cons, List.append_assoc]
      rfl

/-- Sorting by creation time undoes the order of `read_dir`. -/
theorem getD_levelsOf {ops : TableOps Table} {found : List (TableFile Table)}
    (perm : found.Perm files)
    (created : files.Pairwise fun older newer =>
      (ops.metadata older.table).createdAt < (ops.metadata newer.table).createdAt)
    (level : Nat) : (levelsOf ops (found.map item) level).getD [] = atLevel files level := by
  have tables : ∀ listed : List (TableFile Table),
      ((listed.map item).filter fun item => item.1 = level).map Prod.snd =
        atLevel listed level := by
    intro listed
    rw [List.filter_map, List.map_map]
    rfl
  have listed : (atLevel found level).Perm (atLevel files level) :=
    (perm.filter _).map table
  have sorted : (atLevel files level).Pairwise fun older newer =>
      (ops.metadata older).createdAt < (ops.metadata newer).createdAt :=
    List.pairwise_map.mpr (created.filter _)
  rw [levelsOf, tables]
  split
  next none =>
    rw [List.isEmpty_iff.mp none] at listed
    rw [List.nil_perm.mp listed]
    rfl
  next =>
    have symmetric : Std.Symm fun left right : Table =>
        (ops.metadata left).createdAt ≠ (ops.metadata right).createdAt :=
      ⟨fun _ _ different => different.symm⟩
    have apart := (sorted.imp fun before => before.ne).forall
    refine List.Perm.eq_of_pairwise ?_
      (List.pairwise_insertionSort (fun left right : Table =>
        (ops.metadata left).createdAt ≤ (ops.metadata right).createdAt) _)
      (sorted.imp fun before => before.le) ((List.perm_insertionSort _ _).trans listed)
    intro left right leftMem rightMem below above
    by_contra different
    refine apart (listed.mem_iff.mp ?_) rightMem different (le_antisymm below above)
    exact (List.perm_insertionSort _ _).mem_iff.mp leftMem

/-- Loading readable files, listed in any order. -/
theorem loadSstables_of_readable {names : List FileName}
    (listed : platform.readDir machine.world = .ok names machine.world)
    (order : names.Perm (files.map name)) (distinct : (files.map name).Nodup)
    (readable : ∀ file ∈ files,
      platform.openTable file.name machine.engine.config.useMmap machine.world =
        .ok file.table machine.world)
    (created : files.Pairwise fun older newer =>
      (platform.metadata older.table).createdAt < (platform.metadata newer.table).createdAt) :
    ∃ reached, loadSstables platform machine = .ok () reached ∧ reached.world = machine.world ∧
      ∀ level, reached.engine.tables level = atLevel files level := by
  have listing : (onWorld platform.readDir : Action World Table (List FileName)) machine =
      .ok names machine := onWorld_eq_ok.mpr ⟨_, listed, rfl⟩
  have opens : ∀ name ∈ names, ∃ file ∈ files, file.name = name ∧
      platform.openTable name machine.engine.config.useMmap machine.world =
        .ok file.table machine.world := by
    intro name member
    obtain ⟨file, held, rfl⟩ := List.mem_map.mp (order.mem_iff.mp member)
    exact ⟨file, held, rfl, readable file held⟩
  have found : (names.filterMap (find files)).Perm files := by
    refine (order.filterMap _).trans (.of_eq ?_)
    rw [List.filterMap_map]
    refine (List.filterMap_congr fun file member => ?_).trans List.filterMap_some
    exact find_name distinct member
  rw [loadSstables, bind_of_ok listing, bind_of_ok (foldlM_loadFile_names opens distinct [])]
  exact ⟨_, rfl, rfl, fun level => getD_levelsOf found created level⟩

/-- The name of a table file tells the level that it was written for, and loading a
directory of readable files, listed in any order, puts each table at that level once,
in creation order. -/
theorem loadSstables_restores_levels {names : List FileName}
    (listed : platform.readDir machine.world = .ok names machine.world)
    (order : names.Perm (files.map name)) (distinct : (files.map name).Nodup)
    (readable : ∀ file ∈ files,
      platform.openTable file.name machine.engine.config.useMmap machine.world =
        .ok file.table machine.world)
    (created : files.Pairwise fun older newer =>
      (platform.metadata older.table).createdAt < (platform.metadata newer.table).createdAt) :
    (∀ file : TableFile Table, parseLevelFromFilename file.name = some file.level) ∧
      ∃ reached, loadSstables platform machine = .ok () reached ∧
        ∀ level, reached.engine.tables level = atLevel files level := by
  constructor
  · exact fun file => parseLevelFromFilename_sstableName file.level_lt file.seconds file.sequence
  · obtain ⟨reached, ran, _, levels⟩ :=
      loadSstables_of_readable listed order distinct readable created
    exact ⟨reached, ran, levels⟩

/-- Two tables of level 1, the newer one listed first. -/
theorem loadSstables_restores_levels_reversed :
    let table : Timestamp → MemoryTable := fun createdAt =>
      ⟨sstableName 1 5 createdAt, [⟨[1], some [1], 0, createdAt⟩], createdAt⟩
    let machine : Machine Directory MemoryTable :=
      { engine := .fresh {}, world := { files := [table 8, table 7], ticks := 0, outcomes := [] } }
    ∃ reached,
      loadSstables (Directory.platform ⟨id, fun names => names, List.Perm.refl⟩) machine =
        .ok () reached ∧ reached.engine.tables 1 = [table 7, table 8] := by
  intro table machine
  let older : TableFile MemoryTable := ⟨1, 5, 7, table 7, by decide⟩
  let newer : TableFile MemoryTable := ⟨1, 5, 8, table 8, by decide⟩
  have distinct : ([older, newer].map name).Nodup := by decide
  have readable : ∀ file ∈ [older, newer],
      Directory.openTable file.name machine.engine.config.useMmap machine.world =
        .ok file.table machine.world := by
    intro file member
    have paths : (machine.world.files.map MemoryTable.path).Nodup := by decide
    rcases List.mem_pair.mp member with rfl | rfl
    · have found : machine.world.find older.name = some (table 7) :=
        Directory.find_path paths (List.mem_cons_of_mem _ List.mem_cons_self)
      rw [Directory.openTable_of_undisturbed rfl, found]
    · have found : machine.world.find newer.name = some (table 8) :=
        Directory.find_path paths List.mem_cons_self
      rw [Directory.openTable_of_undisturbed rfl, found]
  obtain ⟨_, reached, ran, levels⟩ := @loadSstables_restores_levels Directory MemoryTable
    (Directory.platform ⟨id, fun names => names, List.Perm.refl⟩) machine [older, newer]
    [newer.name, older.name] rfl (.swap _ _ _) distinct readable (by decide)
  exact ⟨reached, ran, levels 1⟩

end Machine

namespace Disk

open Machine TableFile

variable {external : External} {host : Host} {machine : Machine Disk SSTableReader}
  {files : List (TableFile SSTableReader)}

/-- A table opens again as long as its file keeps the bytes that were written. -/
theorem openTable_of_makeTable {config : Config} {path : FileName} {entries : List Entry}
    {before after later : Disk} {reader : SSTableReader}
    (made : (platform external host).makeTable config path entries before = .ok reader after)
    (kept : later.find path = after.find path) :
    openTable path config.useMmap later = .ok reader later := by
  obtain ⟨_, built, _, opened⟩ := bind_eq_ok.mp made
  have opened : openTable path config.useMmap built = .ok reader after := opened
  rw [openTable, bind_of_ok (get_apply _)] at opened ⊢
  cases found : built.find path with
  | none =>
      rw [found] at opened
      cases opened
  | some contents =>
      rw [found] at opened
      obtain ⟨read, rfl⟩ := lift_eq_ok.mp opened
      rw [kept, found]
      exact lift_eq_ok.mpr ⟨read, rfl⟩

/-- What flushes and compactions have made is reloaded from the bytes on disk. -/
theorem loadSstables_of_made
    (listed : machine.world.files.map Prod.fst = files.map name)
    (distinct : (files.map name).Nodup)
    (made : ∀ file ∈ files, ∃ entries before after,
      (platform external host).makeTable machine.engine.config file.name entries before =
        .ok file.table after ∧ machine.world.find file.name = after.find file.name)
    (created : files.Pairwise fun older newer =>
      older.table.metadata.createdAt < newer.table.metadata.createdAt) :
    ∃ reached, loadSstables (platform external host) machine = .ok () reached ∧
      reached.world = machine.world ∧
        ∀ level, reached.engine.tables level = atLevel files level := by
  refine loadSstables_of_readable rfl ?_ distinct (fun file member => ?_) created
  · rw [← listed]
    exact host.lists _
  · obtain ⟨entries, before, after, ran, kept⟩ := made file member
    exact openTable_of_makeTable ran kept

end Disk

end JustDb

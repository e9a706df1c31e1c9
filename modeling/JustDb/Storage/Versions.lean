import JustDb.Storage.ReadPath
import JustDb.Library.Newest

/-!
# The versions of a key

When every table is an exact map from keys to entries, and the tables of each
level below level 0 cover disjoint key ranges, the engine is a stack of partial
maps: its memtables, the tables of level 0, and one map for each deeper level.
A read finds the first version in this stack.  When newer maps carry larger
sequence numbers, that version is also the one with the largest sequence number.
-/

namespace JustDb

variable {World Table : Type}

/-! ## Exact tables -/

/-- Point lookups and range reads of a table answer for a list of entries, whatever its
metadata says. -/
structure ReadsFor (ops : TableOps Table) (table : Table) (entries : List Entry) : Prop
    extends AnswersFor ops table entries where
  ascending : Ascending entries
  range : ∀ start stop, start ≤ stop → ops.range table start stop =
    .ok (entries.filter fun entry => start ≤ entry.key ∧ entry.key < stop)

/-- A table is an exact map of a list of entries: point lookups, range reads and the
iterator answer for it, and the metadata holds its first and last key. -/
structure ExactFor (ops : TableOps Table) (table : Table) (entries : List Entry) : Prop
    extends ReadsFor ops table entries where
  iter : ops.iter table = entries.map .ok
  minKey : entries.head?.map Entry.key = some (ops.metadata table).minKey
  maxKey : entries.getLast?.map Entry.key = some (ops.metadata table).maxKey

/-- A table made from ascending entries, built and reopened, is exact for them. -/
def Platform.Exact (platform : Platform World Table) (contents : Table → List Entry) : Prop :=
  ∀ config path entries world reader reached,
    entries ≠ [] → Ascending entries →
    platform.makeTable config path entries world = .ok reader reached →
    contents reader = entries ∧ ExactFor platform.toTableOps reader entries

/-- An exact platform makes tables that answer point lookups. -/
theorem Platform.Exact.faithful {platform : Platform World Table}
    {contents : Table → List Entry} (exact_ : platform.Exact contents) : platform.Faithful :=
  fun config path entries world reader reached nonempty ascending ran =>
    (exact_ config path entries world reader reached nonempty ascending ran).2.toAnswersFor

namespace ExactFor

variable {ops : TableOps Table} {table : Table} {entries : List Entry}

theorem minKey_le (exact_ : ExactFor ops table entries) {entry : Entry}
    (member : entry ∈ entries) : (ops.metadata table).minKey ≤ entry.key :=
  exact_.ascending.le_of_head? exact_.minKey member

theorem le_maxKey (exact_ : ExactFor ops table entries) {entry : Entry}
    (member : entry ∈ entries) : entry.key ≤ (ops.metadata table).maxKey :=
  exact_.ascending.le_of_getLast? exact_.maxKey member

end ExactFor

namespace StorageEngine

/-- Two tables whose key ranges do not meet. -/
def Apart (ops : TableOps Table) (left right : Table) : Prop :=
  (ops.metadata left).maxKey < (ops.metadata right).minKey ∨
    (ops.metadata right).maxKey < (ops.metadata left).minKey

/-- Every table answers point lookups and range reads for its contents. -/
def Serves (ops : TableOps Table) (contents : Table → List Entry)
    (engine : StorageEngine Table) : Prop :=
  ∀ level, ∀ table ∈ engine.tables level, ReadsFor ops table (contents table)

/-- Every table is exact for its contents, and the tables of each level below level 0
cover disjoint key ranges. -/
structure Exact (ops : TableOps Table) (contents : Table → List Entry)
    (engine : StorageEngine Table) : Prop where
  tables : ∀ level, ∀ table ∈ engine.tables level, ExactFor ops table (contents table)
  runs : ∀ level, level ≠ 0 → (engine.tables level).Pairwise (Apart ops)

/-- What the tables of a sorted run hold under a key. -/
def runLookup (contents : Table → List Entry) (tables : List Table) (key : Key) :
    Option Entry :=
  tables.findSome? fun table => entryFor (contents table) key

/-- The layers of a level, newest first. -/
def levelLayers (contents : Table → List Entry) (engine : StorageEngine Table)
    (level : Nat) : List (Key → Option Entry) :=
  if level = 0 then
    (engine.tables 0).reverse.map fun table => entryFor (contents table)
  else
    [runLookup contents (engine.tables level)]

/-- The layers of an engine, newest first. -/
def layers (contents : Table → List Entry) (engine : StorageEngine Table) :
    List (Key → Option Entry) :=
  engine.memtables.map MemTable.get ++
    (List.range engine.config.maxLevels).flatMap (engine.levelLayers contents)

/-- The newest version of a key. -/
def newest (contents : Table → List Entry) (engine : StorageEngine Table) (key : Key) :
    Option Entry :=
  (engine.layers contents).findSome? fun layer => layer key

variable {ops : TableOps Table} {contents : Table → List Entry}
  {engine : StorageEngine Table}

theorem runLookup_eq_entryFor (tables : List Table) (key : Key) :
    runLookup contents tables key = entryFor (tables.flatMap contents) key := by
  rw [entryFor, List.find?_flatMap]
  rfl

/-- What each layer lists, newest first. -/
def listings (contents : Table → List Entry) (engine : StorageEngine Table) :
    List (List Entry) :=
  engine.memtables.map MemTable.entryList ++
    (List.range engine.config.maxLevels).flatMap fun level =>
      if level = 0 then (engine.tables 0).reverse.map contents
      else [(engine.tables level).flatMap contents]

/-- Each layer looks a key up in what it lists. -/
theorem layers_eq_map_entryFor (contents : Table → List Entry)
    (engine : StorageEngine Table) :
    engine.layers contents = (engine.listings contents).map entryFor := by
  have memtables : ∀ memtable ∈ engine.memtables,
      MemTable.get memtable = entryFor memtable.entryList :=
    fun memtable _ => funext fun key => (memtable.entryFor_entryList key).symm
  have levels : ∀ level ∈ List.range engine.config.maxLevels,
      engine.levelLayers contents level = (if level = 0 then
        (engine.tables 0).reverse.map contents
        else [(engine.tables level).flatMap contents]).map entryFor := by
    intro level _
    rw [levelLayers]
    split
    · rw [List.map_map]
      rfl
    · exact congrArg (fun layer => [layer])
        (funext (runLookup_eq_entryFor (engine.tables level)))
  rw [layers, listings, List.map_append, List.map_map, List.map_flatMap,
    List.map_congr_left memtables, List.flatMap_congr levels]
  rfl

/-- Newer sources carry larger sequence numbers under every key.  The tables of a level
below level 0 are one source, none of them newer than another. -/
abbrev Ranked (contents : Table → List Entry) (engine : StorageEngine Table) : Prop :=
  (engine.listings contents).Pairwise fun newer older =>
    ∀ new ∈ newer, ∀ old ∈ older, new.key = old.key → old.sequence < new.sequence

/-- A criterion that can be computed for newer layers to carry larger sequence
numbers. -/
theorem descending_of_listings {contents : Table → List Entry} {engine : StorageEngine Table}
    (ranked : engine.Ranked contents) :
    Layered.Descending Entry.sequence (engine.layers contents) := by
  rw [layers_eq_map_entryFor, Layered.Descending, List.pairwise_map]
  refine ranked.imp fun outranks key new old newFound oldFound => ?_
  obtain ⟨newMem, newKeyed⟩ := mem_of_entryFor newFound
  obtain ⟨oldMem, oldKeyed⟩ := mem_of_entryFor oldFound
  exact outranks new newMem old oldMem (newKeyed.trans oldKeyed.symm)

theorem Exact.serves (exact_ : engine.Exact ops contents) : engine.Serves ops contents :=
  fun level table member => (exact_.tables level table member).toReadsFor

theorem exact_fresh (ops : TableOps Table) (contents : Table → List Entry) (config : Config) :
    (fresh config).Exact ops contents where
  tables := by simp [StorageEngine.tables, fresh]
  runs := by simp [StorageEngine.tables, fresh]

theorem Serves.setLevel (serves : engine.Serves ops contents) {level : Nat}
    {newTables : List Table}
    (newServes : ∀ table ∈ newTables, ReadsFor ops table (contents table)) :
    (engine.setLevel level newTables).Serves ops contents := by
  intro other table member
  rw [tables_setLevel] at member
  split at member
  · exact newServes table member
  · exact serves other table member

theorem Exact.setLevel (exact_ : engine.Exact ops contents) {level : Nat}
    {newTables : List Table}
    (newExact : ∀ table ∈ newTables, ExactFor ops table (contents table))
    (apart : level ≠ 0 → newTables.Pairwise (Apart ops)) :
    (engine.setLevel level newTables).Exact ops contents where
  tables := by
    intro other table member
    rw [tables_setLevel] at member
    split at member
    · exact newExact table member
    · exact exact_.tables other table member
  runs := by
    intro other deep
    rw [tables_setLevel]
    split
    next same => exact apart (same ▸ deep)
    next => exact exact_.runs other deep

/-- In a run of disjoint tables, the one whose range covers a key answers for all. -/
theorem lookup_run {tables : List Table}
    (exact_ : ∀ table ∈ tables, ExactFor ops table (contents table))
    (apart : tables.Pairwise (Apart ops)) (key : Key) :
    (match findSstableForKey ops tables key with
      | some table => lookupTable ops key table
      | none => .ok none) = .ok (runLookup contents tables key) := by
  induction tables with
  | nil => rfl
  | cons table tables ih =>
      have later := ih (fun other member => exact_ other (List.mem_cons_of_mem _ member))
        (List.pairwise_cons.mp apart).2
      have own := exact_ table List.mem_cons_self
      rw [runLookup, List.findSome?_cons, findSstableForKey, List.find?_cons]
      by_cases covered :
          (ops.metadata table).minKey ≤ key ∧ key ≤ (ops.metadata table).maxKey
      · have others : runLookup contents tables key = none := by
          refine List.findSome?_eq_none_iff.mpr fun other member => ?_
          refine entryFor_eq_none.mpr fun entry held keyed => ?_
          have otherExact := exact_ other (List.mem_cons_of_mem _ member)
          have low := otherExact.minKey_le held
          have high := otherExact.le_maxKey held
          rw [keyed] at low high
          rcases (List.pairwise_cons.mp apart).1 other member with before | after
          · exact absurd (covered.2.trans_lt before) (not_lt.mpr low)
          · exact absurd (high.trans_lt after) (not_lt.mpr covered.1)
        rw [decide_eq_true covered]
        simp only [own.lookupTable]
        rw [runLookup] at others
        cases entryFor (contents table) key with
        | some entry => rfl
        | none => rw [others]
      · have missing : entryFor (contents table) key = none := by
          refine entryFor_eq_none.mpr fun entry held keyed => covered ?_
          rw [← keyed]
          exact ⟨own.minKey_le held, own.le_maxKey held⟩
        rw [decide_eq_false covered, missing]
        exact later

/-- Tables of a run that hold the same key are the same, and hold the same entry. -/
theorem runLookup_eq_some {tables : List Table}
    (exact_ : ∀ table ∈ tables, ExactFor ops table (contents table))
    (apart : tables.Pairwise (Apart ops)) {key : Key} {entry : Entry} :
    runLookup contents tables key = some entry ↔
      ∃ table ∈ tables, entry ∈ contents table ∧ entry.key = key := by
  constructor
  · intro found
    obtain ⟨table, member, held⟩ := List.exists_of_findSome?_eq_some found
    exact ⟨table, member, mem_of_entryFor held⟩
  · induction tables with
    | nil => simp
    | cons table tables ih =>
        rintro ⟨holder, member, held, keyed⟩
        rw [runLookup, List.findSome?_cons]
        rcases List.mem_cons.mp member with rfl | later
        · have own := exact_ holder List.mem_cons_self
          rw [own.ascending.entryFor_eq_some.mpr ⟨held, keyed⟩]
        · have holderExact := exact_ holder member
          have missing : entryFor (contents table) key = none := by
            refine entryFor_eq_none.mpr fun other otherHeld otherKeyed => ?_
            have own := exact_ table List.mem_cons_self
            have same : other.key = entry.key := otherKeyed.trans keyed.symm
            rcases (List.pairwise_cons.mp apart).1 holder later with before | after
            · refine absurd (((own.le_maxKey otherHeld).trans_lt before).trans_le
                (holderExact.minKey_le held)) ?_
              rw [same]
              exact lt_irrefl _
            · refine absurd (((holderExact.le_maxKey held).trans_lt after).trans_le
                (own.minKey_le otherHeld)) ?_
              rw [same]
              exact lt_irrefl _
          rw [missing]
          exact ih (fun other otherMem => exact_ other (List.mem_cons_of_mem _ otherMem))
            (List.pairwise_cons.mp apart).2 ⟨holder, later, held, keyed⟩

/-- The versions of a key in a level are those that its tables list. -/
theorem Exact.mem_levelVersions (exact_ : engine.Exact ops contents) {level : Nat}
    {key : Key} {entry : Entry} :
    entry ∈ Layered.versions (engine.levelLayers contents level) key ↔
      ∃ table ∈ engine.tables level, entry ∈ contents table ∧ entry.key = key := by
  rw [Layered.mem_versions, levelLayers]
  by_cases top : level = 0
  · subst top
    simp only [if_true, List.mem_map, List.mem_reverse, exists_exists_and_eq_and]
    refine exists_congr fun table => and_congr_right fun member => ?_
    exact (exact_.tables 0 table member).ascending.entryFor_eq_some
  · rw [if_neg top]
    simp only [List.mem_singleton, exists_eq_left]
    exact runLookup_eq_some (exact_.tables level) (exact_.runs level top)

theorem Exact.lookupLevel (exact_ : engine.Exact ops contents) (key : Key) (level : Nat) :
    engine.lookupLevel ops key level =
      .ok ((engine.levelLayers contents level).findSome? fun layer => layer key) := by
  rw [StorageEngine.lookupLevel, levelLayers]
  by_cases top : level = 0
  · have answers : ∀ table ∈ (engine.tables 0).reverse,
        lookupTable ops key table = .ok (entryFor (contents table) key) :=
      fun table member => (exact_.tables 0 table (List.mem_reverse.mp member)).lookupTable key
    rw [if_pos top, if_pos top, Layered.first_map_of_ok answers, List.findSome?_map]
    rfl
  · rw [if_neg top, if_neg top]
    refine (lookup_run (exact_.tables level) (exact_.runs level top) key).trans ?_
    rw [List.findSome?_singleton]

/-- A read returns the newest version. -/
theorem Exact.search_eq (exact_ : engine.Exact ops contents) (key : Key) :
    engine.search ops key = .ok (engine.newest contents key) := by
  rw [StorageEngine.search_eq, searchTables,
    Layered.first_map_of_ok fun level _ => exact_.lookupLevel key level,
    Layered.orElse_ok_ok, newest, layers, List.findSome?_append, List.findSome?_map,
    Layered.findSome?_flatMap]
  rfl

end StorageEngine

end JustDb

import JustDb.Storage.InMemory

/-!
# Scans against point reads

A scan merges every source by sequence number, where a point read stops at the
first source that holds the key, and asks one table of each level below level 0.
With newer sources carrying larger sequence numbers both choose the same version of
a key that a memtable or level 0 holds.  They differ in that a scan holds a delete
marker as an empty value and drops every empty value at the end, and on a key of the
deeper levels that is hidden from a point read by a table that spans it.
-/

namespace JustDb

variable {World Table : Type}

namespace StorageEngine

variable {ops : TableOps Table} {contents : Table → List Entry}
  {engine : StorageEngine Table}

/-- The versions that a range read contributes. -/
def scanVersions (entries : List (Key × Entry)) : List (Key × (Value × SequenceNumber)) :=
  entries.map fun pair => (pair.1, scanVersion pair.2)

theorem mem_scanVersions {entries : List (Key × Entry)} {key : Key}
    {version : Value × SequenceNumber} :
    (key, version) ∈ scanVersions entries ↔
      ∃ entry, (key, entry) ∈ entries ∧ scanVersion entry = version := by
  simp only [scanVersions, List.mem_map, Prod.mk.injEq, Prod.exists]
  constructor
  · rintro ⟨_, entry, member, rfl, equal⟩
    exact ⟨entry, member, equal⟩
  · rintro ⟨entry, member, equal⟩
    exact ⟨key, entry, member, rfl, equal⟩

theorem filter_scanVersions {entries : List (Key × Entry)} {key : Key} (held : Option Entry)
    (distinct : entries.Pairwise fun left right => left.1 ≠ right.1)
    (holds : ∀ entry, (key, entry) ∈ entries ↔ held = some entry) :
    ((scanVersions entries).filter fun version => version.1 = key) =
      (held.map fun entry => (key, scanVersion entry)).toList := by
  have kept := Newest.filter_key_eq distinct holds
  rw [scanVersions, List.filter_map]
  refine (congrArg (List.map _) kept).trans ?_
  cases held <;> rfl

theorem scanMemtable_eq {entries : List (Key × Entry)}
    (distinct : entries.Pairwise fun left right => left.1 ≠ right.1) :
    scanMemtable ∅ entries = Newest.collect Prod.snd ∅ (scanVersions entries) := by
  rw [scanVersions, Newest.collect_eq_foldl_insert Prod.snd (by simp)
    (List.pairwise_map.mpr distinct), List.foldl_map]
  rfl

/-- The versions of a table's entries in a range. -/
def tableVersions (contents : Table → List Entry) (start stop : Key) (table : Table) :
    List (Key × (Value × SequenceNumber)) :=
  scanVersions (((contents table).filter fun entry => start ≤ entry.key ∧ entry.key < stop).map
    fun entry => (entry.key, entry))

theorem filter_tableVersions {table : Table} (ascending : Ascending (contents table))
    (start stop key : Key) :
    ((tableVersions contents start stop table).filter fun version => version.1 = key) =
      if start ≤ key ∧ key < stop then
        ((entryFor (contents table) key).map fun entry => (key, scanVersion entry)).toList
      else [] := by
  rw [tableVersions, filter_scanVersions
    (if start ≤ key ∧ key < stop then entryFor (contents table) key else none)]
  · split <;> rfl
  · refine List.pairwise_map.mpr ((ascending.filter _).imp fun below => ?_)
    exact below.ne
  · intro entry
    simp only [List.mem_map, List.mem_filter, decide_eq_true_eq, Prod.mk.injEq,
      Option.ite_none_right_eq_some, ascending.entryFor_eq_some]
    constructor
    · rintro ⟨_, ⟨member, within⟩, rfl, rfl⟩
      exact ⟨within, member, rfl⟩
    · rintro ⟨within, member, rfl⟩
      exact ⟨entry, ⟨member, within⟩, rfl, rfl⟩

/-- The versions of a level's tables in a range. -/
def levelVersions (contents : Table → List Entry) (engine : StorageEngine Table)
    (start stop : Key) (level : Nat) : List (Key × (Value × SequenceNumber)) :=
  (engine.tables level).flatMap (tableVersions contents start stop)

/-- Scanning the tables collects the versions in range of every level. -/
theorem Serves.foldlM_range (serves : engine.Serves ops contents) {start stop : Key}
    (ordered : start ≤ stop) (results : ScanResults) :
    ((List.range engine.config.maxLevels).foldlM (fun held level =>
      (engine.tables level).foldlM (fun held table => do
        let entries ← ops.range table start stop
        pure (scanOlder held (entries.map fun entry => (entry.key, entry)))) held) results :
          Result ScanResults) =
      .ok (Newest.collect Prod.snd results ((List.range engine.config.maxLevels).flatMap
        (engine.levelVersions contents start stop))) := by
  refine Newest.foldlM_collect (fun level _ held => ?_) results
  refine Newest.foldlM_collect (fun table member held => ?_) held
  rw [(serves level table member).range start stop ordered]
  rfl

/-- Every version that a scan collects, in its order. -/
def scanned (contents : Table → List Entry) (engine : StorageEngine Table)
    (start stop : Key) : List (Key × (Value × SequenceNumber)) :=
  engine.memtables.flatMap (fun memtable => scanVersions (memtable.inRange start stop)) ++
    (List.range engine.config.maxLevels).flatMap (engine.levelVersions contents start stop)

/-- Memtables whose range queries return are collected in turn. -/
theorem foldlM_scanOlder {memtables : List MemTable} {start stop : Key}
    (returns : ∀ memtable ∈ memtables,
      memtable.rangeIter start stop = .ok (memtable.inRange start stop)) (held : ScanResults) :
    (memtables.foldlM (fun held memtable => do
      let entries ← memtable.rangeIter start stop
      pure (scanOlder held entries)) held : Result ScanResults) =
      .ok (Newest.collect Prod.snd held
        (memtables.flatMap fun memtable => scanVersions (memtable.inRange start stop))) := by
  apply Newest.foldlM_collect
  intro memtable member held
  rw [returns memtable member]
  rfl

/-- A scan of an open engine collects the versions of every source. -/
theorem Serves.scan_eq (serves : engine.Serves ops contents) {start stop : Key}
    (ordered : start ≤ stop) (running : engine.closed = false) :
    engine.scan ops start stop =
      .ok (scanFinish (Newest.collect Prod.snd ∅ (engine.scanned contents start stop))) := by
  rw [scan, running, engine.memtable.rangeIter_of_le ordered]
  simp only [Bool.false_eq_true, if_false, Result.ok_bind]
  rw [foldlM_scanOlder fun memtable _ => memtable.rangeIter_of_le ordered, Result.ok_bind,
    serves.foldlM_range ordered, Result.ok_bind,
    scanMemtable_eq (engine.memtable.inRange_distinct start stop), ← Newest.collect_append,
    ← Newest.collect_append, scanned, memtables, List.flatMap_cons,
    List.append_assoc]

/-- The versions of a key, in the order of a scan. -/
def scanOrder (contents : Table → List Entry) (engine : StorageEngine Table) (key : Key) :
    List Entry :=
  (engine.memtables.filterMap fun memtable => memtable.get key) ++
    (List.range engine.config.maxLevels).flatMap fun level =>
      (engine.tables level).filterMap fun table => entryFor (contents table) key

/-- The version of a key with the largest sequence number: the first in the order of a
scan where several carry it. -/
def latest (contents : Table → List Entry) (engine : StorageEngine Table) (key : Key) :
    Option Entry :=
  (engine.scanOrder contents key).argmax Entry.sequence

/-- A scan collects the versions of every key in its range, and of no other key. -/
theorem Serves.filter_scanned (serves : engine.Serves ops contents) (start stop key : Key) :
    ((engine.scanned contents start stop).filter fun version => version.1 = key) =
      if start ≤ key ∧ key < stop then
        (engine.scanOrder contents key).map fun entry => (key, scanVersion entry)
      else [] := by
  have memtable : ∀ memtable ∈ engine.memtables,
      ((scanVersions (memtable.inRange start stop)).filter fun version => version.1 = key) =
        if start ≤ key ∧ key < stop then
          ((memtable.get key).map fun entry => (key, scanVersion entry)).toList
        else [] := by
    intro memtable _
    rw [filter_scanVersions
      (if start ≤ key ∧ key < stop then memtable.get key else none)
      (memtable.inRange_distinct start stop)]
    · split <;> rfl
    · intro entry
      rw [MemTable.mem_inRange, Option.ite_none_right_eq_some]
  have table : ∀ level, ∀ table ∈ engine.tables level, _ := fun level table member =>
    filter_tableVersions (serves level table member).ascending start stop key
  rw [scanned, List.filter_append, List.filter_flatMap, List.filter_flatMap,
    List.flatMap_congr memtable]
  simp only [levelVersions, List.filter_flatMap]
  rw [List.flatMap_congr fun level _ => List.flatMap_congr (table level)]
  split
  · simp only [scanOrder, List.map_append, List.map_flatMap, List.filterMap_eq_flatMap_toList,
      Option.toList_map]
  · simp

/-- Collecting leaves, for each key in range, its latest version. -/
theorem Serves.lookup_scanned (serves : engine.Serves ops contents) (start stop key : Key) :
    (Newest.collect Prod.snd ∅ (engine.scanned contents start stop)).lookup key =
      if start ≤ key ∧ key < stop then (engine.latest contents key).map scanVersion else none := by
  rw [Newest.lookup_collect_empty, serves.filter_scanned]
  split
  · rw [List.map_map, latest]
    exact Newest.argmax_map scanVersion Prod.snd _
  · rfl

theorem mem_scanFinish {results : ScanResults} {key : Key} {value : Value} :
    (key, value) ∈ scanFinish results ↔
      ∃ sequence, results.lookup key = some (value, sequence) ∧ value ≠ [] := by
  simp only [scanFinish, List.mem_insertionSort, List.mem_filterMap,
    Option.ite_none_left_eq_some, List.isEmpty_iff, Option.some.injEq, Prod.mk.injEq]
  constructor
  · rintro ⟨⟨_, version⟩, member, nonempty, rfl, rfl⟩
    exact ⟨version.2, AList.mem_lookup_iff.mpr member, nonempty⟩
  · rintro ⟨sequence, held, nonempty⟩
    exact ⟨⟨key, (value, sequence)⟩, AList.mem_lookup_iff.mp held, nonempty, rfl, rfl⟩

theorem scanFinish_ascending (results : ScanResults) :
    (scanFinish results).Pairwise fun left right => left.1 < right.1 := by
  refine Newest.pairwise_lt_insertionSort (List.pairwise_filterMap.mpr ?_)
  have keys : results.entries.Pairwise fun left right => left.1 ≠ right.1 :=
    List.pairwise_map.mp results.nodupKeys
  refine keys.imp fun apart left leftKept right rightKept => ?_
  simp only [Option.ite_none_left_eq_some, Option.some.injEq] at leftKept rightKept
  rw [← leftKept.2, ← rightKept.2]
  exact apart

/-- A scan of an open engine lists the keys in range whose latest version has a
non-empty value. -/
theorem Serves.scan_spec (serves : engine.Serves ops contents) {start stop : Key}
    (ordered : start ≤ stop) (running : engine.closed = false) :
    ∃ found, engine.scan ops start stop = .ok found ∧
      (found.Pairwise fun left right => left.1 < right.1) ∧
      ∀ key value, (key, value) ∈ found ↔ (start ≤ key ∧ key < stop) ∧
        ((engine.latest contents key).bind Entry.value).filter (· ≠ []) = some value := by
  refine ⟨_, serves.scan_eq ordered running, scanFinish_ascending _, fun key value => ?_⟩
  rw [mem_scanFinish, serves.lookup_scanned]
  by_cases within : start ≤ key ∧ key < stop
  · rw [if_pos within, and_iff_right within]
    cases engine.latest contents key with
    | none => simp
    | some newest =>
        rw [Option.map_some, Option.bind_some, Option.filter_eq_some_iff, scanVersion]
        cases newest.value with
        | none => simp +contextual
        | some bytes => simp
  · simp [within]

/-! ## What a point read finds -/

/-- The newest version of a key in the memtables and in level 0. -/
def topVersion (contents : Table → List Entry) (engine : StorageEngine Table) (key : Key) :
    Option Entry :=
  (engine.memtables.findSome? fun memtable => memtable.get key).or
    -- without levels not even level 0 is read
    (if engine.config.maxLevels = 0 then none
    else (engine.tables 0).reverse.findSome? fun table => entryFor (contents table) key)

/-- What the deeper levels answer: at each of them the first table that spans the key is
asked, and no other. -/
def askedBelow (ops : TableOps Table) (contents : Table → List Entry)
    (engine : StorageEngine Table) (key : Key) : Option Entry :=
  (List.range' 1 (engine.config.maxLevels - 1)).findSome? fun level =>
    (findSstableForKey ops (engine.tables level) key).bind fun table =>
      entryFor (contents table) key

theorem Serves.search_eq (serves : engine.Serves ops contents) (key : Key) :
    engine.search ops key =
      .ok ((engine.topVersion contents key).or (engine.askedBelow ops contents key)) := by
  have answer : ∀ level, engine.lookupLevel ops key level =
      .ok (if level = 0 then
        (engine.tables 0).reverse.findSome? fun table => entryFor (contents table) key
      else (findSstableForKey ops (engine.tables level) key).bind fun table =>
        entryFor (contents table) key) := by
    intro level
    rw [lookupLevel]
    split
    · have answers : ∀ table ∈ (engine.tables 0).reverse,
          lookupTable ops key table = .ok (entryFor (contents table) key) :=
        fun table member => (serves 0 table (List.mem_reverse.mp member)).lookupTable key
      exact Layered.first_map_of_ok answers
    · cases asked : findSstableForKey ops (engine.tables level) key with
      | none => rfl
      | some table => exact (serves level table (List.mem_of_find?_eq_some asked)).lookupTable key
  rw [StorageEngine.search_eq, searchTables, Layered.first_map_of_ok fun level _ => answer level,
    Layered.orElse_ok_ok, topVersion, askedBelow, Option.or_assoc]
  congr 2
  cases engine.config.maxLevels with
  | zero => rfl
  | succ deeper =>
      have deep : ∀ level ∈ List.range' 1 deeper, level ≠ 0 := by
        intro level member
        have bounds := List.mem_range'_1.mp member
        omega
      rw [List.range_eq_range', List.range'_succ, List.findSome?_cons, Nat.zero_add,
        Layered.findSome?_congr fun level member => if_neg (deep level member), if_pos rfl,
        if_neg (Nat.succ_ne_zero deeper), Nat.add_sub_cancel]
      cases (engine.tables 0).reverse.findSome? fun table => entryFor (contents table) key <;> rfl

/-- The versions of a key that a scan meets are those that the sources list. -/
theorem Serves.mem_scanOrder (serves : engine.Serves ops contents) {key : Key} {entry : Entry} :
    entry ∈ engine.scanOrder contents key ↔
      (∃ listing ∈ engine.listings contents, entry ∈ listing) ∧ entry.key = key := by
  have listed : (∃ listing ∈ engine.listings contents, entry ∈ listing) ↔
      (∃ memtable ∈ engine.memtables, entry ∈ memtable.entryList) ∨
        ∃ level ∈ List.range engine.config.maxLevels, ∃ table ∈ engine.tables level,
          entry ∈ contents table := by
    simp only [listings, List.mem_append, or_and_right, exists_or, List.mem_map,
      exists_exists_and_eq_and, List.mem_flatMap]
    refine or_congr_right ⟨?_, ?_⟩
    · rintro ⟨listing, ⟨level, inside, source⟩, member⟩
      refine ⟨level, inside, ?_⟩
      split at source
      next top =>
        obtain ⟨table, place, rfl⟩ := List.mem_map.mp source
        exact ⟨table, top ▸ List.mem_reverse.mp place, member⟩
      next =>
        obtain rfl := List.mem_singleton.mp source
        exact List.mem_flatMap.mp member
    · rintro ⟨level, inside, table, place, member⟩
      by_cases top : level = 0
      · subst top
        exact ⟨contents table, ⟨0, inside, List.mem_map_of_mem (List.mem_reverse.mpr place)⟩,
          member⟩
      · refine ⟨_, ⟨level, inside, ?_⟩, List.mem_flatMap.mpr ⟨table, place, member⟩⟩
        rw [if_neg top]
        exact List.mem_singleton_self _
  rw [listed, scanOrder, List.mem_append, List.mem_filterMap, List.mem_flatMap, or_and_right]
  refine or_congr ?_ ?_
  · simp only [← MemTable.entryFor_entryList, MemTable.entryList_ascending,
      Ascending.entryFor_eq_some, ← and_assoc, exists_and_right]
  · simp only [List.mem_filterMap]
    constructor
    · rintro ⟨level, inside, table, place, found⟩
      obtain ⟨member, keyed⟩ := mem_of_entryFor found
      exact ⟨⟨level, inside, table, place, member⟩, keyed⟩
    · rintro ⟨⟨level, inside, table, place, member⟩, keyed⟩
      refine ⟨level, inside, table, place, ?_⟩
      exact (serves level table place).ascending.entryFor_eq_some.mpr ⟨member, keyed⟩

/-- What the memtables and level 0 list, newest first. -/
def topListings (contents : Table → List Entry) (engine : StorageEngine Table) :
    List (List Entry) :=
  engine.memtables.map MemTable.entryList ++
    if engine.config.maxLevels = 0 then [] else (engine.tables 0).reverse.map contents

theorem topVersion_eq (contents : Table → List Entry) (engine : StorageEngine Table)
    (key : Key) :
    engine.topVersion contents key =
      (engine.topListings contents).findSome? fun listing => entryFor listing key := by
  rw [topVersion, topListings, List.findSome?_append, List.findSome?_map]
  congr 1
  · exact Layered.findSome?_congr fun memtable _ => (memtable.entryFor_entryList key).symm
  · split
    · rfl
    · exact List.findSome?_map.symm

theorem topListings_prefix (contents : Table → List Entry) (engine : StorageEngine Table) :
    engine.topListings contents <+: engine.listings contents := by
  rw [topListings, listings, List.prefix_append_right_inj]
  cases engine.config.maxLevels with
  | zero => exact List.nil_prefix
  | succ deeper =>
      rw [List.range_succ_eq_map, List.flatMap_cons]
      exact List.prefix_append _ _

theorem Serves.topListings_ascending (serves : engine.Serves ops contents)
    {listing : List Entry} (member : listing ∈ engine.topListings contents) :
    Ascending listing := by
  rcases List.mem_append.mp member with held | level
  · obtain ⟨memtable, -, rfl⟩ := List.mem_map.mp held
    exact memtable.entryList_ascending
  · split at level
    · cases level
    · obtain ⟨table, place, rfl⟩ := List.mem_map.mp level
      exact (serves 0 table (List.mem_reverse.mp place)).ascending

/-- With newer sources carrying larger sequence numbers, the version of a key that the
memtables or level 0 hold is the latest. -/
theorem Serves.latest_of_topVersion (serves : engine.Serves ops contents)
    (ranked : engine.Ranked contents) {key : Key} {entry : Entry}
    (held : engine.topVersion contents key = some entry) :
    engine.latest contents key = some entry := by
  rw [topVersion_eq] at held
  obtain ⟨newer, source, older, split, found, missing⟩ := List.findSome?_eq_some_iff.mp held
  obtain ⟨deeper, listings⟩ := engine.topListings_prefix contents
  have ascending : Ascending source := serves.topListings_ascending (by simp [split])
  obtain ⟨member, keyed⟩ := mem_of_entryFor found
  rw [split, List.append_assoc, List.cons_append] at listings
  -- every other version lies in an older source
  have outranks : ∀ other ∈ engine.scanOrder contents key,
      other = entry ∨ other.sequence < entry.sequence := by
    intro other scanned
    obtain ⟨⟨listing, place, otherMember⟩, otherKeyed⟩ := serves.mem_scanOrder.mp scanned
    rw [Ranked, ← listings] at ranked
    rw [← listings] at place
    rcases List.mem_append.mp place with before | here
    · exact absurd otherKeyed (entryFor_eq_none.mp (missing listing before) other otherMember)
    rcases List.mem_cons.mp here with rfl | after
    · have again := ascending.entryFor_eq_some.mpr ⟨otherMember, otherKeyed⟩
      exact .inl (Option.some.inj (again.symm.trans found))
    · have below := (List.pairwise_cons.mp (List.pairwise_append.mp ranked).2.1).1
      exact .inr (below listing after entry member other otherMember
        (keyed.trans otherKeyed.symm))
  have scanned : entry ∈ engine.scanOrder contents key :=
    serves.mem_scanOrder.mpr ⟨⟨source, by simp [← listings], member⟩, keyed⟩
  refine List.argmax_eq_some_iff.mpr ⟨scanned, fun other place => ?_, fun other place above => ?_⟩
  · rcases outranks other place with rfl | lower
    · exact le_rfl
    · exact lower.le
  · rcases outranks other place with rfl | lower
    · exact le_rfl
    · exact absurd above (not_le.mpr lower)

/-! ## Agreement -/

/-- A scan agrees with the point reads: it returns, in ascending key order, each key
in range with the value that `get` returns, and no other pair. -/
def ScanAgrees (ops : TableOps Table) (engine : StorageEngine Table) (start stop : Key) :
    Prop :=
  ∃ found, engine.scan ops start stop = .ok found ∧
    (found.Pairwise fun left right => left.1 < right.1) ∧
    ∀ key value, (key, value) ∈ found ↔
      (start ≤ key ∧ key < stop) ∧ engine.get ops key = .ok (some value)

/-- Where the latest version of a key is in the memtables or in level 0, its value is not
the empty string.  Where only deeper levels hold the key, the tables that a point read
asks there come to the value of the latest version, which is again not empty, or to no
value where the latest version is a delete marker or empty. -/
structure Undisguised (ops : TableOps Table) (contents : Table → List Entry)
    (engine : StorageEngine Table) (key : Key) (latest : Entry) : Prop where
  above : (engine.topVersion contents key).isSome → latest.value ≠ some []
  below : engine.topVersion contents key = none →
    (engine.askedBelow ops contents key).bind Entry.value = latest.value.filter (· ≠ [])

theorem Serves.get_eq_some (serves : engine.Serves ops contents)
    (running : engine.closed = false) {key : Key} {value : Value} :
    engine.get ops key = .ok (some value) ↔
      ((engine.topVersion contents key).or (engine.askedBelow ops contents key)).bind
        Entry.value = some value := by
  rw [get_eq running, serves.search_eq]
  simp [Except.map]

/-- No point read finds a key that has no version. -/
theorem Serves.served_of_latest (serves : engine.Serves ops contents)
    (ranked : engine.Ranked contents) {key : Key} (absent : engine.latest contents key = none) :
    (engine.topVersion contents key).or (engine.askedBelow ops contents key) = none := by
  have none_scanned : engine.scanOrder contents key = [] := List.argmax_eq_none.mp absent
  refine Option.or_eq_none_iff.mpr ⟨?_, List.findSome?_eq_none_iff.mpr fun level member => ?_⟩
  · refine Option.eq_none_iff_forall_ne_some.mpr fun entry held => ?_
    rw [serves.latest_of_topVersion ranked held] at absent
    cases absent
  · refine Option.bind_eq_none_iff.mpr fun table asked => ?_
    refine Option.eq_none_iff_forall_ne_some.mpr fun entry found => ?_
    have bounds := List.mem_range'_1.mp member
    have scanned : entry ∈ engine.scanOrder contents key := by
      refine List.mem_append_right _ (List.mem_flatMap.mpr ⟨level, ?_, ?_⟩)
      · exact List.mem_range.mpr (by omega)
      · exact List.mem_filterMap.mpr ⟨table, List.mem_of_find?_eq_some asked, found⟩
    rw [none_scanned] at scanned
    cases scanned

/-- What a scan keeps of a version is what a point read finds exactly when the version is
undisguised. -/
theorem Serves.undisguised_iff (serves : engine.Serves ops contents)
    (ranked : engine.Ranked contents) {key : Key} {latest : Entry}
    (newest : engine.latest contents key = some latest) :
    engine.Undisguised ops contents key latest ↔
      ((engine.latest contents key).bind Entry.value).filter (· ≠ []) =
        ((engine.topVersion contents key).or (engine.askedBelow ops contents key)).bind
          Entry.value := by
  rw [newest, Option.bind_some]
  cases top : engine.topVersion contents key with
  | none =>
      rw [Option.none_or]
      refine ⟨fun undisguised => (undisguised.below top).symm, fun same => ⟨?_, fun _ => same.symm⟩⟩
      intro held
      rw [top] at held
      cases held
  | some version =>
      obtain rfl : version = latest :=
        Option.some.inj ((serves.latest_of_topVersion ranked top).symm.trans newest)
      rw [Option.some_or, Option.bind_some]
      constructor
      · intro undisguised
        have nonempty := undisguised.above (by rw [top]; rfl)
        cases stored : version.value with
        | none => rfl
        | some bytes =>
            refine Option.filter_some_pos ?_
            simpa [stored] using nonempty
      · intro same
        refine ⟨fun _ empty => ?_, fun missing => ?_⟩
        · rw [empty] at same
          cases same
        · rw [top] at missing
          cases missing

/-- A scan agrees with the point reads exactly when the engine is open and the latest
version of every key in range is undisguised. -/
theorem scanAgrees_iff (serves : engine.Serves ops contents)
    (ranked : engine.Ranked contents) {start stop : Key} (ordered : start ≤ stop) :
    engine.ScanAgrees ops start stop ↔ engine.closed = false ∧
      ∀ key, start ≤ key → key < stop → ∀ latest, engine.latest contents key = some latest →
        engine.Undisguised ops contents key latest := by
  cases stopped : engine.closed with
  | true =>
      have refused : engine.scan ops start stop = .error (.error .closed) := by
        rw [scan, stopped]
        rfl
      simp [ScanAgrees, refused]
  | false =>
      obtain ⟨found, ran, ascending, members⟩ := serves.scan_spec ordered stopped
      simp only [ScanAgrees, true_and]
      constructor
      · rintro ⟨listed, listedRan, -, agree⟩ key low high latest newest
        rw [ran] at listedRan
        cases listedRan
        refine (serves.undisguised_iff ranked newest).mpr (Option.ext fun value => ?_)
        have both := (members key value).symm.trans (agree key value)
        simpa only [low, high, and_self, true_and, serves.get_eq_some stopped] using both
      · intro undisguised
        refine ⟨found, ran, ascending, fun key value => ?_⟩
        rw [members, serves.get_eq_some stopped]
        refine and_congr_right fun within => ?_
        cases newest : engine.latest contents key with
        | none => rw [serves.served_of_latest ranked newest]; simp
        | some latest =>
            have same := (serves.undisguised_iff ranked newest).mp
              (undisguised key within.1 within.2 latest newest)
            rw [← same, newest]

/-- Level 0 holds one key with the empty string; at level 1 one table spans the key of
another. -/
def emptyStored : StorageEngine MemoryTable :=
  ((fresh MemoryWorld.smallConfig).setLevel 0
    [{ path := ['0'], entries := [⟨[1], some [], 0, 4⟩], createdAt := 1 }]).setLevel 1
    [{ path := ['1'], entries := [⟨[2], some [20], 0, 1⟩, ⟨[6], some [60], 0, 2⟩], createdAt := 0 },
     { path := ['2'], entries := [⟨[4], some [40], 0, 3⟩], createdAt := 0 }]

private theorem emptyStored_serves :
    emptyStored.Serves MemoryTable.ops MemoryTable.entries := by
  refine ((exact_fresh _ _ _).serves.setLevel ?_).setLevel fun table member => ?_
  · exact List.forall_mem_singleton.mpr (MemoryTable.readsFor (List.pairwise_singleton _ _))
  · rcases List.mem_pair.mp member with rfl | rfl
    · exact MemoryTable.readsFor (List.pairwise_pair.mpr (by decide))
    · exact MemoryTable.readsFor (List.pairwise_singleton _ _)

private theorem emptyStored_ranked : emptyStored.Ranked MemoryTable.entries := by
  decide +kernel

theorem scanAgrees_iff_emptyStored :
    emptyStored.ScanAgrees MemoryTable.ops [0] [9] ↔ emptyStored.closed = false ∧
      ∀ key, [0] ≤ key → key < [9] → ∀ latest,
        emptyStored.latest MemoryTable.entries key = some latest →
          emptyStored.Undisguised MemoryTable.ops MemoryTable.entries key latest :=
  scanAgrees_iff emptyStored_serves emptyStored_ranked (by decide)

/-- A point read finds the empty string and a scan does not; a scan finds the key that a
table spans and a point read does not. -/
theorem scan_misses_empty_value :
    emptyStored.Serves MemoryTable.ops MemoryTable.entries ∧
      emptyStored.Ranked MemoryTable.entries ∧
      emptyStored.get MemoryTable.ops [1] = .ok (some []) ∧
      emptyStored.scan MemoryTable.ops [0] [2] = .ok [] ∧
      ¬emptyStored.ScanAgrees MemoryTable.ops [0] [2] ∧
      emptyStored.get MemoryTable.ops [4] = .ok none ∧
      emptyStored.scan MemoryTable.ops [3] [5] = .ok [([4], [40])] ∧
      ¬emptyStored.ScanAgrees MemoryTable.ops [3] [5] := by
  have empty : emptyStored.scan MemoryTable.ops [0] [2] = .ok [] := by decide +kernel
  have spanned : emptyStored.scan MemoryTable.ops [3] [5] = .ok [([4], [40])] := by
    decide +kernel
  refine ⟨emptyStored_serves, emptyStored_ranked, by decide +kernel, empty, ?_,
    by decide +kernel, spanned, ?_⟩
  · rintro ⟨found, ran, -, agree⟩
    rw [empty] at ran
    cases ran
    exact List.not_mem_nil ((agree [1] []).mpr ⟨by decide, by decide +kernel⟩)
  · rintro ⟨found, ran, -, agree⟩
    rw [spanned] at ran
    cases ran
    have read := ((agree [4] [40]).mp List.mem_cons_self).2
    revert read
    decide +kernel

end StorageEngine

end JustDb

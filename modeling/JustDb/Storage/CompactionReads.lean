import JustDb.Storage.Chunks
import JustDb.Storage.InMemory

/-!
# What compaction does to reads

A compaction merges two neighbouring levels into one and keeps, of each key, the
version with the largest sequence number, unless that version is a delete marker.
Dropping the marker uncovers what deeper levels hold for the key.
-/

namespace JustDb

open Stateful Machine

variable {World Table : Type}

namespace StorageEngine

variable {ops : TableOps Table} {contents : Table → List Entry}
  {engine : StorageEngine Table}

/-! ## Merging -/

/-- An entry as a version of its own key. -/
def keyedVersion (entry : Entry) : Key × Entry :=
  (entry.key, entry)

theorem mem_map_keyedVersion {entries : List Entry} {key : Key} {entry : Entry} :
    (key, entry) ∈ entries.map keyedVersion ↔ entry ∈ entries ∧ entry.key = key := by
  simp only [List.mem_map, keyedVersion, Prod.mk.injEq]
  constructor
  · rintro ⟨other, member, keyed, rfl⟩
    exact ⟨member, keyed⟩
  · rintro ⟨member, keyed⟩
    exact ⟨entry, member, keyed, rfl⟩

theorem foldlM_absorbEntry (entries : List Entry) (kept : Newest.Table Key Entry) :
    (entries.map .ok).foldlM absorbEntry kept =
      .ok (Newest.collect Entry.sequence kept (entries.map keyedVersion)) := by
  have steps : ∀ entry ∈ entries, ∀ kept, absorbEntry kept (.ok entry) =
      .ok (Newest.collect Entry.sequence kept [keyedVersion entry]) := fun _ _ _ => rfl
  rw [List.foldlM_map, Newest.foldlM_collect steps, List.map_eq_flatMap]

/-- Merging exact tables collects the entries that they list. -/
theorem foldlM_iter {tables : List Table}
    (exact_ : ∀ table ∈ tables, ExactFor ops table (contents table))
    (kept : Newest.Table Key Entry) :
    tables.foldlM (fun kept table => (ops.iter table).foldlM absorbEntry kept) kept =
      .ok (Newest.collect Entry.sequence kept ((tables.flatMap contents).map keyedVersion)) := by
  have steps : ∀ table ∈ tables, ∀ kept, (ops.iter table).foldlM absorbEntry kept =
      .ok (Newest.collect Entry.sequence kept ((contents table).map keyedVersion)) :=
    fun table member kept => by rw [(exact_ table member).iter, foldlM_absorbEntry]
  rw [Newest.foldlM_collect steps, List.map_flatMap]

/-- Every version held is held under its own key. -/
def Keyed (kept : Newest.Table Key Entry) : Prop :=
  ∀ item ∈ kept.entries, item.2.key = item.1

/-- The versions of a merge that hold a value, in key order. -/
def liveVersions (kept : Newest.Table Key Entry) : List Entry :=
  ((kept.entries.map Sigma.snd).filter fun entry => entry.value.isSome).insertionSort
    fun left right => left.key ≤ right.key

theorem Keyed.ascending_liveVersions {kept : Newest.Table Key Entry} (keyed : Keyed kept) :
    Ascending (liveVersions kept) := by
  apply Newest.pairwise_lt_insertionSort
  refine List.Pairwise.filter _ (List.pairwise_map.mpr ?_)
  have keys : kept.entries.Pairwise fun left right => left.1 ≠ right.1 :=
    List.pairwise_map.mp kept.nodupKeys
  refine keys.imp_of_mem fun leftMem rightMem apart => ?_
  rwa [keyed _ leftMem, keyed _ rightMem]

theorem Keyed.absorbEntry {kept next : Newest.Table Key Entry} {item : Result Entry}
    (keyed : Keyed kept) (ran : StorageEngine.absorbEntry kept item = .ok next) :
    Keyed next := by
  obtain ⟨entry, _, absorbed⟩ := Result.bind_eq_ok.mp ran
  cases absorbed
  intro held member
  have found : (Newest.absorb Entry.sequence kept (entry.key, entry)).lookup held.1 =
      some held.2 := AList.mem_lookup_iff.mpr member
  by_cases same : held.1 = entry.key
  · have old : ∀ other, kept.lookup held.1 = some other → other.key = held.1 :=
      fun other at_ => keyed ⟨held.1, other⟩ (AList.mem_lookup_iff.mp at_)
    rw [same, Newest.absorb_lookup_self, Option.some.injEq] at found
    rw [same] at old ⊢
    rw [← found]
    split
    next other at_ =>
      split
      · exact old other at_
      · rfl
    next => rfl
  · rw [Newest.absorb_lookup_ne _ _ _ same] at found
    exact keyed held (AList.mem_lookup_iff.mp found)

/-- Whatever the iterators yield, a merge lists its keys in ascending order. -/
theorem mergeSstables_ascending {tables1 tables2 : List Table} {merged : List Entry}
    (ran : mergeSstables ops tables1 tables2 = .ok merged) : Ascending merged := by
  obtain ⟨kept, folded, listed⟩ := Result.bind_eq_ok.mp ran
  cases listed
  have keyed : Keyed kept := by
    refine Result.foldlM_invariant (fun kept table next keyed ran => ?_) ?_ folded
    · exact Result.foldlM_invariant (fun kept item next => Keyed.absorbEntry) keyed ran
    · intro item member
      cases member
  exact keyed.ascending_liveVersions

/-- The newest version that two neighbouring levels hold. -/
def merging (contents : Table → List Entry) (engine : StorageEngine Table) (level : Nat)
    (key : Key) : Option Entry :=
  (engine.levelLayers contents level ++ engine.levelLayers contents (level + 1)).findSome?
    fun layer => layer key

/-- The tables of two levels are exact. -/
theorem Exact.exactFor_of_mem_append (exact_ : engine.Exact ops contents) {first second : Nat}
    {table : Table} (member : table ∈ engine.tables first ++ engine.tables second) :
    ExactFor ops table (contents table) := by
  rcases List.mem_append.mp member with own | next
  · exact exact_.tables first table own
  · exact exact_.tables second table next

/-- What exact tables list, under its keys. -/
def keyedListing (contents : Table → List Entry) (tables : List Table) : List (Key × Entry) :=
  (tables.flatMap contents).map keyedVersion

theorem mem_keyedListing {tables : List Table} {key : Key} {entry : Entry} :
    (key, entry) ∈ keyedListing contents tables ↔
      ∃ table ∈ tables, entry ∈ contents table ∧ entry.key = key := by
  rw [keyedListing, mem_map_keyedVersion, List.mem_flatMap]
  grind

/-- The versions that a merge of some tables keeps. -/
abbrev keptVersions (contents : Table → List Entry) (tables : List Table) :
    Newest.Table Key Entry :=
  Newest.collect Entry.sequence ∅ (keyedListing contents tables)

theorem summarizes_keptVersions (contents : Table → List Entry) (tables : List Table) :
    Newest.Summarizes Entry.sequence (keyedListing contents tables)
      (keptVersions contents tables) :=
  (Newest.summarizes_empty _).collect _

section Merge

variable {tables1 tables2 : List Table}
  (exact_ : ∀ table ∈ tables1 ++ tables2, ExactFor ops table (contents table))
include exact_

/-- Exact tables merge. -/
theorem mergeSstables_of_exact :
    mergeSstables ops tables1 tables2 =
      .ok (liveVersions (keptVersions contents (tables1 ++ tables2))) := by
  rw [mergeSstables, foldlM_iter exact_]
  rfl

/-- A merge of exact tables lists, in key order, the versions that it keeps unless they are
delete markers. -/
theorem lookup_mergeSstables {merged : List Entry}
    (ran : mergeSstables ops tables1 tables2 = .ok merged) (key : Key) :
    entryFor merged key = ((keptVersions contents (tables1 ++ tables2)).lookup key).filter
      fun entry => entry.value.isSome := by
  have ascending := mergeSstables_ascending ran
  have summary := summarizes_keptVersions contents (tables1 ++ tables2)
  rw [mergeSstables_of_exact exact_] at ran
  cases ran
  have keyed : ∀ item ∈ (keptVersions contents (tables1 ++ tables2)).entries,
      item.2.key = item.1 := by
    intro item member
    obtain ⟨_, _, _, own⟩ :=
      mem_keyedListing.mp (summary.newest (AList.mem_lookup_iff.mpr member)).1
    exact own
  refine Option.ext fun entry => ?_
  rw [ascending.entryFor_eq_some, liveVersions, List.mem_insertionSort, Option.filter_eq_some_iff,
    List.mem_filter, List.mem_map]
  constructor
  · rintro ⟨⟨⟨item, member, rfl⟩, live⟩, rfl⟩
    rw [keyed item member]
    exact ⟨AList.mem_lookup_iff.mpr member, live⟩
  · rintro ⟨held, live⟩
    have member := AList.mem_lookup_iff.mp held
    exact ⟨⟨⟨_, member, rfl⟩, live⟩, keyed _ member⟩

/-- Under each key a merge of exact tables keeps a version that one of them lists. -/
theorem kept_mergeSstables {merged : List Entry}
    (ran : mergeSstables ops tables1 tables2 = .ok merged) (key : Key) :
    ((∀ table ∈ tables1 ++ tables2, entryFor (contents table) key = none) ∧
        entryFor merged key = none) ∨
      ∃ table ∈ tables1 ++ tables2, ∃ version, entryFor (contents table) key = some version ∧
        entryFor merged key = (some version).filter fun entry => entry.value.isSome := by
  have summary := summarizes_keptVersions contents (tables1 ++ tables2)
  rw [lookup_mergeSstables exact_ ran]
  cases kept : (keptVersions contents (tables1 ++ tables2)).lookup key with
  | none =>
      refine .inl ⟨fun table member => entryFor_eq_none.mpr fun entry held keyed => ?_, rfl⟩
      exact summary.absent kept entry (mem_keyedListing.mpr ⟨table, member, held, keyed⟩)
  | some version =>
      obtain ⟨table, member, held, keyed⟩ := mem_keyedListing.mp (summary.newest kept).1
      exact .inr ⟨table, member, version,
        (exact_ table member).ascending.entryFor_eq_some.mpr ⟨held, keyed⟩, rfl⟩

end Merge

/-- A merge lists, in key order, the newest version of each key unless it is a delete
marker. -/
theorem Exact.mergeSstables (exact_ : engine.Exact ops contents) {level : Nat}
    (descending : Layered.Descending Entry.sequence
      (engine.levelLayers contents level ++ engine.levelLayers contents (level + 1)))
    {merged : List Entry}
    (ran : StorageEngine.mergeSstables ops (engine.tables level) (engine.tables (level + 1)) =
      .ok merged) :
    Ascending merged ∧ ∀ key, entryFor merged key =
      (engine.merging contents level key).filter fun entry => entry.value.isSome := by
  refine ⟨mergeSstables_ascending ran, fun key => ?_⟩
  have arrived : ∀ entry, (key, entry) ∈
      keyedListing contents (engine.tables level ++ engine.tables (level + 1)) ↔
        entry ∈ Layered.versions
          (engine.levelLayers contents level ++ engine.levelLayers contents (level + 1)) key := by
    intro entry
    rw [mem_keyedListing, Layered.versions_append, List.mem_append,
      exact_.mem_levelVersions, exact_.mem_levelVersions]
    simp only [List.mem_append]
    grind
  rw [lookup_mergeSstables (fun _ => exact_.exactFor_of_mem_append) ran,
    (summarizes_keptVersions contents _).lookup_eq_findSome? descending arrived]
  rfl

/-- The engine once a level and the next one have been replaced by a run. -/
def replaced (engine : StorageEngine Table) (counter : SequenceNumber) (level : Nat)
    (newTables : List Table) : StorageEngine Table :=
  ((engine.setCounter counter).setLevel level []).setLevel (level + 1) newTables

theorem tables_replaced (counter : SequenceNumber) (level other : Nat)
    (newTables : List Table) :
    (engine.replaced counter level newTables).tables other =
      if other = level + 1 then newTables
      else if other = level then [] else engine.tables other := by
  simp [replaced, tables_setLevel]

/-! ## Tables that follow each other -/

/-- Tables whose contents, read one after another, ascend form a run. -/
theorem apart_of_ascending {tables : List Table}
    (exact_ : ∀ table ∈ tables, ExactFor ops table (contents table))
    (ascending : Ascending (tables.flatMap contents)) : tables.Pairwise (Apart ops) := by
  induction tables with
  | nil => exact .nil
  | cons table tables ih =>
      rw [List.flatMap_cons] at ascending
      obtain ⟨-, later, below⟩ := List.pairwise_append.mp ascending
      refine .cons (fun other member => .inl ?_)
        (ih (fun other member => exact_ other (List.mem_cons_of_mem _ member)) later)
      obtain ⟨last, lastEq, lastKey⟩ :=
        Option.map_eq_some_iff.mp (exact_ table List.mem_cons_self).maxKey
      obtain ⟨first, firstEq, firstKey⟩ :=
        Option.map_eq_some_iff.mp (exact_ other (List.mem_cons_of_mem _ member)).minKey
      rw [← lastKey, ← firstKey]
      exact below last (List.mem_of_getLast? lastEq) first
        (List.mem_flatMap.mpr ⟨other, member, List.mem_of_mem_head? firstEq⟩)

end StorageEngine

namespace Machine

variable {platform : Platform World Table} {contents : Table → List Entry}

/-- Exact tables made of chunks hold the chunks. -/
theorem exact_of_madeOf (exact_ : platform.Exact contents) {config : Config}
    {chunks : List (List Entry)} {tables : List Table}
    (made : List.Forall₂ (platform.MadeOf config) chunks tables)
    (nonempty : ∀ chunk ∈ chunks, chunk ≠ []) (ascending : Ascending chunks.flatten) :
    (∀ table ∈ tables, ExactFor platform.toTableOps table (contents table)) ∧
      tables.map contents = chunks := by
  induction made with
  | nil => exact ⟨by simp, rfl⟩
  | cons made rest ih =>
      obtain ⟨path, world, reached, built⟩ := made
      obtain ⟨own, later, -⟩ := List.pairwise_append.mp ascending
      obtain ⟨holds, exactTable⟩ :=
        exact_ _ _ _ _ _ _ (nonempty _ List.mem_cons_self) own built
      obtain ⟨others, listed⟩ :=
        ih (fun chunk member => nonempty chunk (List.mem_cons_of_mem _ member)) later
      refine ⟨?_, by rw [List.map_cons, holds, listed]⟩
      intro table member
      rcases List.mem_cons.mp member with rfl | later
      · rw [holds]
        exact exactTable
      · exact others table later

theorem createSstablesForLevel_ok (exact_ : platform.Exact contents) {level : Nat}
    {entries : List Entry} {tables : List Table} {machine reached : Machine World Table}
    (ascending : Ascending entries)
    (ran : createSstablesForLevel platform level entries machine = .ok tables reached) :
    (∃ counter, reached.engine = machine.engine.setCounter counter) ∧
      (∀ table ∈ tables, ExactFor platform.toTableOps table (contents table)) ∧
      tables.flatMap contents = entries := by
  obtain ⟨counter, targetSize, _, made⟩ := createSstablesForLevel_eq_ok ran
  have whole : Ascending (chunksOf targetSize entries).flatten := by
    rwa [flatten_chunksOf]
  obtain ⟨tablesExact, listed⟩ :=
    exact_of_madeOf exact_ made (fun _ => ne_nil_of_mem_chunksOf) whole
  refine ⟨counter, tablesExact, ?_⟩
  rw [List.flatMap_def, listed, flatten_chunksOf]

/-- A compaction that returns `Ok` found nothing to do, or replaced two levels by the
merge of their contents. -/
theorem compactInto_ok (exact_ : platform.Exact contents) {level : Nat}
    {machine reached : Machine World Table}
    (tablesExact : machine.engine.Exact platform.toTableOps contents)
    (descending : Layered.Descending Entry.sequence
      (machine.engine.levelLayers contents level ++
        machine.engine.levelLayers contents (level + 1)))
    (ran : compactInto platform level machine = .ok () reached) :
    (machine.engine.tables level = [] ∧ reached = machine) ∨
      machine.engine.tables level ≠ [] ∧ ∃ counter newTables,
        reached.engine = machine.engine.replaced counter level newTables ∧
        (∀ table ∈ newTables, ExactFor platform.toTableOps table (contents table)) ∧
        Ascending (newTables.flatMap contents) ∧
        ∀ key, entryFor (newTables.flatMap contents) key =
          (machine.engine.merging contents level key).filter fun entry =>
            entry.value.isSome := by
  obtain ⟨_, _, got, ran⟩ := bind_eq_ok.mp ran
  cases got
  split at ran
  next empty =>
    cases ran
    exact .inl ⟨List.isEmpty_iff.mp empty, rfl⟩
  next pending =>
    obtain ⟨newTables, created, built, ran⟩ := bind_eq_ok.mp ran
    obtain ⟨merged, _, lifted, createdRan⟩ := bind_eq_ok.mp built
    obtain ⟨mergedRan, rfl⟩ := lift_eq_ok.mp lifted
    obtain ⟨⟨⟩, swapped, swap, deleted⟩ := bind_eq_ok.mp ran
    cases swap
    obtain ⟨ascending, lookup⟩ := tablesExact.mergeSstables descending mergedRan
    obtain ⟨⟨counter, kept⟩, newExact, listed⟩ :=
      createSstablesForLevel_ok exact_ ascending createdRan
    refine .inr ⟨by simpa using pending, counter, newTables, ?_, newExact, ?_, ?_⟩
    · refine ((keeps_deleteOldFiles platform _).of_ok deleted).trans ?_
      rw [StorageEngine.replaced, ← kept]
    · rwa [listed]
    · rwa [listed]

end Machine

namespace StorageEngine

variable {ops : TableOps Table} {contents : Table → List Entry}
  {engine : StorageEngine Table}

/-! ## Reads across a compaction -/

/-- The newest version held above a level. -/
def above (contents : Table → List Entry) (engine : StorageEngine Table) (level : Nat)
    (key : Key) : Option Entry :=
  (engine.memtables.map MemTable.get ++
    (List.range level).flatMap (engine.levelLayers contents)).findSome? fun layer => layer key

/-- The newest version held below a level and the next one. -/
def below (contents : Table → List Entry) (engine : StorageEngine Table) (level : Nat)
    (key : Key) : Option Entry :=
  ((List.range' (level + 2) (engine.config.maxLevels - (level + 2))).flatMap
    (engine.levelLayers contents)).findSome? fun layer => layer key

/-- The levels above two neighbouring ones, the two, and those below. -/
theorem range_cut {level levels : Nat} (inside : level + 1 < levels) :
    List.range levels =
      List.range level ++ [level, level + 1] ++
        List.range' (level + 2) (levels - (level + 2)) := by
  obtain ⟨deeper, size⟩ := Nat.exists_eq_add_of_le (show level + 2 ≤ _ from inside)
  rw [size, Nat.add_sub_cancel_left, List.range_eq_range', List.range_eq_range',
    ← List.range'_append_1, ← List.range'_append_1, Nat.zero_add, Nat.zero_add]
  rfl

theorem layers_cut {level : Nat} (inside : level + 1 < engine.config.maxLevels) :
    engine.layers contents =
      (engine.memtables.map MemTable.get ++
        (List.range level).flatMap (engine.levelLayers contents)) ++
      (engine.levelLayers contents level ++ engine.levelLayers contents (level + 1)) ++
      (List.range' (level + 2) (engine.config.maxLevels - (level + 2))).flatMap
        (engine.levelLayers contents) := by
  rw [layers, range_cut inside]
  simp [List.flatMap_append]

/-- Two neighbouring levels are ranked as the layers are. -/
theorem descending_pair {level : Nat} (inside : level + 1 < engine.config.maxLevels)
    (descending : Layered.Descending Entry.sequence (engine.layers contents)) :
    Layered.Descending Entry.sequence
      (engine.levelLayers contents level ++ engine.levelLayers contents (level + 1)) := by
  rw [layers_cut inside] at descending
  exact (List.pairwise_append.mp (List.pairwise_append.mp descending).1).2.1

theorem newest_cut {level : Nat} (inside : level + 1 < engine.config.maxLevels) (key : Key) :
    engine.newest contents key =
      ((engine.above contents level key).or (engine.merging contents level key)).or
        (engine.below contents level key) := by
  rw [newest, layers_cut inside, List.findSome?_append, List.findSome?_append]
  rfl

theorem levelLayers_eq {other : StorageEngine Table} {level : Nat}
    (same : other.tables level = engine.tables level) :
    other.levelLayers contents level = engine.levelLayers contents level := by
  rw [levelLayers, levelLayers]
  split
  next top => rw [← top, same]
  next => rw [same]

variable {counter : SequenceNumber} {level : Nat} {newTables : List Table}

theorem above_replaced (key : Key) :
    (engine.replaced counter level newTables).above contents level key =
      engine.above contents level key := by
  have unchanged : ∀ other ∈ List.range level,
      (engine.replaced counter level newTables).levelLayers contents other =
        engine.levelLayers contents other := by
    intro other member
    have smaller := List.mem_range.mp member
    refine levelLayers_eq ?_
    rw [tables_replaced, if_neg (by omega), if_neg (by omega)]
  rw [above, above, List.flatMap_congr unchanged]
  rfl

theorem below_replaced (key : Key) :
    (engine.replaced counter level newTables).below contents level key =
      engine.below contents level key := by
  have unchanged : ∀ other ∈ List.range' (level + 2) (engine.config.maxLevels - (level + 2)),
      (engine.replaced counter level newTables).levelLayers contents other =
        engine.levelLayers contents other := by
    intro other member
    have larger := (List.mem_range'_1.mp member).1
    refine levelLayers_eq ?_
    rw [tables_replaced, if_neg (by omega), if_neg (by omega)]
  rw [below, below, show (engine.replaced counter level newTables).config = engine.config from rfl,
    List.flatMap_congr unchanged]

/-- The two levels hold what the new run holds. -/
theorem merging_replaced (key : Key) :
    (engine.replaced counter level newTables).merging contents level key =
      entryFor (newTables.flatMap contents) key := by
  have emptied : (engine.replaced counter level newTables).tables level = [] := by
    rw [tables_replaced, if_neg (by omega), if_pos rfl]
  have filled : (engine.replaced counter level newTables).tables (level + 1) = newTables := by
    rw [tables_replaced, if_pos rfl]
  have nothing : ((engine.replaced counter level newTables).levelLayers contents
      level).findSome? (fun layer => layer key) = none := by
    rw [levelLayers]
    split
    next top =>
      rw [← top, emptied]
      rfl
    next =>
      rw [emptied]
      rfl
  rw [merging, List.findSome?_append, nothing, Option.none_or, levelLayers,
    if_neg (by omega), filled, List.findSome?_singleton, runLookup_eq_entryFor]

theorem Exact.replaced (exact_ : engine.Exact ops contents)
    (newExact : ∀ table ∈ newTables, ExactFor ops table (contents table))
    (ascending : Ascending (newTables.flatMap contents)) :
    (engine.replaced counter level newTables).Exact ops contents := by
  have counted : (engine.setCounter counter).Exact ops contents := ⟨exact_.tables, exact_.runs⟩
  have emptied : ((engine.setCounter counter).setLevel level []).Exact ops contents :=
    counted.setLevel (by simp) fun _ => .nil
  exact emptied.setLevel newExact fun _ => apart_of_ascending newExact ascending

/-- No delete marker that the merge drops hides a live value further down: each key
that nothing newer holds, and whose newest merged version is a delete marker, has no
live value below. -/
def NoneUncovered (contents : Table → List Entry) (engine : StorageEngine Table)
    (level : Nat) : Prop :=
  ∀ key marker, engine.above contents level key = none →
    engine.merging contents level key = some marker → marker.value = none →
      (engine.below contents level key).bind Entry.value = none

end StorageEngine

namespace Machine

variable {platform : Platform World Table} {contents : Table → List Entry}

/-- The compaction of a level: `compact_l0_to_l1` for level 0, `compact_level` below. -/
def compact (platform : Platform World Table) (level : Nat) : Action World Table Unit :=
  if level = 0 then compactL0ToL1 platform else compactLevel platform level

theorem compact_eq (level : Nat) : compact platform level = compactInto platform level := by
  rw [compact]
  split
  next top => rw [top, compactL0ToL1]
  next => rfl

/-- Dropping a delete marker from the middle of three versions is seen exactly when
nothing stands above it and a value stands below it. -/
private theorem bind_filter_eq_iff (above merged below : Option Entry) :
    ((above.or (merged.filter fun entry => entry.value.isSome)).or below).bind Entry.value =
        ((above.or merged).or below).bind Entry.value ↔
      ∀ marker, above = none → merged = some marker → marker.value = none →
        below.bind Entry.value = none := by
  cases above with
  | some newest => simp
  | none =>
      cases merged with
      | none => simp
      | some entry =>
          cases live : entry.value with
          | none =>
              have dropped : (some entry).filter (fun entry => entry.value.isSome) = none := by
                simp [live]
              simp only [dropped, Option.or_none, Option.none_or, Option.some_or,
                Option.bind_some, live, forall_const, Option.some.injEq, forall_eq']
          | some value =>
              have kept : (some entry).filter (fun entry => entry.value.isSome) =
                  some entry := by
                simp [live]
              rw [kept]
              refine iff_of_true rfl ?_
              rintro marker - equal dead
              cases equal
              rw [live] at dead
              cases dead

/-- A compaction that returns `Ok` keeps every read exactly when the engine is closed,
the level holds nothing, or no dropped delete marker uncovers a value. -/
theorem compact_keeps_reads_iff (exact_ : platform.Exact contents) {level : Nat}
    {machine reached : Machine World Table}
    (tablesExact : machine.engine.Exact platform.toTableOps contents)
    (descending : Layered.Descending Entry.sequence (machine.engine.layers contents))
    (inside : level + 1 < machine.engine.config.maxLevels)
    (ran : compact platform level machine = .ok () reached) :
    (∀ key, reached.engine.get platform.toTableOps key =
        machine.engine.get platform.toTableOps key) ↔
      machine.engine.closed = true ∨ machine.engine.tables level = [] ∨
        machine.engine.NoneUncovered contents level := by
  rw [compact_eq] at ran
  have pair := StorageEngine.descending_pair inside descending
  rcases compactInto_ok exact_ tablesExact pair ran with
    ⟨empty, rfl⟩ | ⟨nonempty, counter, newTables, after, newExact, ascending, lookup⟩
  · simp [empty]
  cases stopped : machine.engine.closed with
  | true =>
      have stopped' : reached.engine.closed = true := by rw [after]; exact stopped
      simp [StorageEngine.get_of_closed stopped, StorageEngine.get_of_closed stopped']
  | false =>
      have running : reached.engine.closed = false := by rw [after]; exact stopped
      have reads : ∀ key, reached.engine.get platform.toTableOps key =
          .ok ((((machine.engine.above contents level key).or
            ((machine.engine.merging contents level key).filter fun entry =>
              entry.value.isSome)).or (machine.engine.below contents level key)).bind
                Entry.value) := by
        intro key
        have afterExact : (machine.engine.replaced counter level newTables).Exact
            platform.toTableOps contents := tablesExact.replaced newExact ascending
        have afterInside : level + 1 <
            (machine.engine.replaced counter level newTables).config.maxLevels := inside
        rw [StorageEngine.get_eq running, after, afterExact.search_eq,
          StorageEngine.newest_cut afterInside, StorageEngine.above_replaced,
          StorageEngine.merging_replaced, StorageEngine.below_replaced, lookup]
        rfl
      have before : ∀ key, machine.engine.get platform.toTableOps key =
          .ok ((((machine.engine.above contents level key).or
            (machine.engine.merging contents level key)).or
              (machine.engine.below contents level key)).bind Entry.value) := by
        intro key
        rw [StorageEngine.get_eq stopped, tablesExact.search_eq,
          StorageEngine.newest_cut inside]
        rfl
      simp only [Bool.false_eq_true, nonempty, false_or, StorageEngine.NoneUncovered]
      refine forall_congr' fun key => ?_
      rw [reads, before, Except.ok.injEq]
      exact bind_filter_eq_iff _ _ _

/-- Level 0 holds a delete marker for a key whose value lies in level 2. -/
def markerOverValue : Machine MemoryWorld MemoryTable where
  engine := ((StorageEngine.fresh MemoryWorld.smallConfig).setLevel 2
    [{ path := ['2'], entries := [⟨[1], some [10], 0, 1⟩], createdAt := 0 }]).setLevel 0
      [{ path := ['0'], entries := [⟨[1], none, 0, 2⟩], createdAt := 0 }]
  world := { files := [], clock := 0, failures := [] }

private theorem markerOverValue_exact :
    markerOverValue.engine.Exact MemoryTable.ops MemoryTable.entries := by
  refine ((StorageEngine.exact_fresh _ _ _).setLevel ?_ ?_).setLevel ?_ ?_
  · exact List.forall_mem_singleton.mpr
      (MemoryTable.exactFor (by decide) (List.pairwise_singleton _ _))
  · exact fun _ => List.pairwise_singleton _ _
  · exact List.forall_mem_singleton.mpr
      (MemoryTable.exactFor (by decide) (List.pairwise_singleton _ _))
  · exact fun _ => List.pairwise_singleton _ _

private theorem markerOverValue_descending : Layered.Descending Entry.sequence
    (markerOverValue.engine.layers MemoryTable.entries) :=
  StorageEngine.descending_of_listings (by decide +kernel)

private theorem markerOverValue_compacts :
    succeeded (compact MemoryWorld.platform 0 markerOverValue) = true := by
  decide +kernel

theorem compact_keeps_reads_iff_markerOverValue :
    (∀ key, (final (compact MemoryWorld.platform 0 markerOverValue)).engine.get
        MemoryTable.ops key = markerOverValue.engine.get MemoryTable.ops key) ↔
      markerOverValue.engine.closed = true ∨ markerOverValue.engine.tables 0 = [] ∨
        markerOverValue.engine.NoneUncovered MemoryTable.entries 0 :=
  compact_keeps_reads_iff MemoryWorld.platform_exact markerOverValue_exact
    markerOverValue_descending (by decide) (eq_ok_of_succeeded markerOverValue_compacts)

/-- A compaction of level 0 brings a deleted key back. -/
theorem deleted_key_returns :
    markerOverValue.engine.Exact MemoryTable.ops MemoryTable.entries ∧
      Layered.Descending Entry.sequence (markerOverValue.engine.layers MemoryTable.entries) ∧
      succeeded (compact MemoryWorld.platform 0 markerOverValue) = true ∧
      ¬∀ key, (final (compact MemoryWorld.platform 0 markerOverValue)).engine.get
        MemoryTable.ops key = markerOverValue.engine.get MemoryTable.ops key := by
  refine ⟨markerOverValue_exact, markerOverValue_descending, markerOverValue_compacts, ?_⟩
  intro kept
  have answer := kept [1]
  revert answer
  decide +kernel

end Machine

end JustDb

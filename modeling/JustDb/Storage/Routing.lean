import JustDb.SSTable.RangeRead
import JustDb.Storage.Chunks
import JustDb.Storage.Disk

/-!
# Finding the table of a key

A deeper level answers from the one table whose key range covers the key.  Readers do
not store that range; `load_index` takes it from the block index, whose last key is
the first key of the last block.  So a table covers all of its keys only when its last
block holds one entry.
-/

namespace JustDb

open Stateful Machine

/-! ## The key range of a reader -/

/-- The key range that `load_index` derives for a table of some entries. -/
structure IndexBounds (metadata : SStableMeta) (entries : List Entry) : Prop where
  minKey : metadata.minKey = ((indexedBlocks entries).map firstKey).head?.getD []
  maxKey : metadata.maxKey = ((indexedBlocks entries).map firstKey).getLast?.getD []

/-- The index lists every block of the table, and the last of them holds one entry. -/
def LastBlockSingle (entries : List Entry) : Prop :=
  (splitBlocks entries).length < u32Size ∧
    ∀ block, (splitBlocks entries).getLast? = some block → block.length = 1

theorem indexFrom_map_key (stored : List Entry → Bytes) (offset : Nat)
    (groups : List (List Entry)) :
    (indexFrom stored offset groups).map IndexEntry.key = groups.map firstKey := by
  induction groups generalizing offset with
  | nil => rfl
  | cons group groups ih => rw [indexFrom, List.map_cons, List.map_cons, ih]

/-- A reader recovered from a finished table has the derived key range. -/
theorem SSTableBuilder.Built.indexBounds {external : External} {builder : SSTableBuilder}
    {createdAt : Timestamp} {entries : List Entry} {sink : Sink} {bloomFilter : BloomFilter}
    (built : SSTableBuilder.Built external builder createdAt entries sink bloomFilter)
    (limits : ∀ entry ∈ entries, entry.WithinLimits) {path : FileName} {mapped : Bool}
    {reader : SSTableReader}
    (recovered : SSTableReader.recover path sink.written mapped = .ok reader) :
    IndexBounds reader.metadata entries := by
  have grouped : ∀ group ∈ splitBlocks entries, ∀ entry ∈ group, entry.WithinLimits :=
    fun group member entry held => limits entry (mem_of_mem_splitBlocks member held)
  have addressable := built.addressable
  obtain ⟨minKey, maxKey⟩ := SSTableReader.recover_eq_ok built.written addressable
    (fun entry member => SSTableReader.encodable_of_mem_indexFrom grouped (by omega) member)
    recovered
  rw [SSTableBuilder.indexOf, indexFrom_length, List.map_take, indexFrom_map_key,
    ← List.map_take] at minKey maxKey
  exact ⟨minKey, maxKey⟩

section Bounds

variable {entries : List Entry} {metadata : SStableMeta}

/-- The blocks of a table with entries end in a block. -/
theorem exists_last_block (nonempty : entries ≠ []) :
    ∃ front block, splitBlocks entries = front ++ [block] ∧ block ≠ [] := by
  rcases List.eq_nil_or_concat (splitBlocks entries) with none | ⟨front, block, whole⟩
  · have flat := flatten_splitBlocks entries
    rw [none] at flat
    exact absurd flat.symm nonempty
  · rw [List.concat_eq_append] at whole
    have member : block ∈ splitBlocks entries := by
      rw [whole]
      exact List.mem_append_right _ (List.mem_singleton_self block)
    exact ⟨front, block, whole, ne_nil_of_mem_splitBlocks member⟩

/-- With a single entry in its last block, a table's derived range is that of its
entries. -/
theorem IndexBounds.exact (bounds : IndexBounds metadata entries) (nonempty : entries ≠ [])
    (single : LastBlockSingle entries) :
    entries.head?.map Entry.key = some metadata.minKey ∧
      entries.getLast?.map Entry.key = some metadata.maxKey := by
  have whole := indexedBlocks_of_lt single.1
  have flat := flatten_splitBlocks entries
  obtain ⟨minKey, maxKey⟩ := bounds
  rw [whole] at minKey maxKey
  constructor
  · cases blocks : splitBlocks entries with
    | nil =>
        rw [blocks] at flat
        exact absurd flat.symm nonempty
    | cons first rest =>
        have some : first ≠ [] := ne_nil_of_mem_splitBlocks (by rw [blocks]; exact .head _)
        obtain ⟨entry, others, rfl⟩ := List.exists_cons_of_ne_nil some
        rw [minKey, blocks, ← flat, blocks]
        rfl
  · obtain ⟨front, block, split, _⟩ := exists_last_block nonempty
    have one : block.length = 1 := single.2 block (by rw [split, List.getLast?_concat])
    obtain ⟨last, rfl⟩ := List.length_eq_one_iff.mp one
    rw [maxKey, split, List.map_append, ← flat, split, List.flatten_append]
    simp [firstKey]

/-- Where the count of the blocks wraps around, the derived range ends before the last
block. -/
theorem IndexBounds.length_lt (bounds : IndexBounds metadata entries)
    {front : List (List Entry)} {block : List Entry}
    (split : splitBlocks entries = front ++ [block]) {key : Key}
    (below : ∀ group ∈ front, firstKey group < key) (covered : key ≤ metadata.maxKey) :
    (splitBlocks entries).length < u32Size := by
  by_contra many
  have length : (splitBlocks entries).length = front.length + 1 := by
    rw [split, List.length_append, List.length_singleton]
  have size : u32Size = 4294967296 := rfl
  have indexed : indexedBlocks entries =
      front.take ((splitBlocks entries).length % u32Size) := by
    have cut : (splitBlocks entries).length % u32Size ≤ front.length := by
      have small := Nat.mod_lt (splitBlocks entries).length (by decide : 0 < u32Size)
      omega
    rw [indexedBlocks, split, List.take_append_of_le_length (by rwa [← split])]
  rw [bounds.maxKey, indexed] at covered
  cases top : ((front.take ((splitBlocks entries).length % u32Size)).map firstKey).getLast? with
  | none =>
      have inside : 0 < front.length := by omega
      have earlier := below _ (List.getElem_mem inside)
      rw [top, Option.getD_none] at covered
      exact List.not_lt_nil _ (earlier.trans_le covered)
  | some last =>
      rw [top, Option.getD_some] at covered
      obtain ⟨group, member, rfl⟩ := List.mem_map.mp (List.mem_of_getLast? top)
      exact absurd (below group (List.mem_of_mem_take member)) (not_lt.mpr covered)

/-- A table whose derived range covers its last entry has a single entry in its last
block. -/
theorem IndexBounds.lastBlockSingle (bounds : IndexBounds metadata entries)
    (nonempty : entries ≠ []) (ascending : Ascending entries)
    (covers : ∀ last, entries.getLast? = some last → last.key ≤ metadata.maxKey) :
    LastBlockSingle entries := by
  obtain ⟨front, block, split, some⟩ := exists_last_block nonempty
  have flat := flatten_splitBlocks entries
  rw [split, List.flatten_append, List.flatten_singleton] at flat
  obtain ⟨first, rest, rfl⟩ := List.exists_cons_of_ne_nil some
  -- the last entry of the table
  obtain ⟨last, final⟩ : ∃ last, (first :: rest).getLast? = Option.some last :=
    ⟨_, List.getLast?_eq_some_getLast (List.cons_ne_nil _ _)⟩
  have held : last ∈ first :: rest := List.mem_of_getLast? final
  have covered : last.key ≤ metadata.maxKey := by
    apply covers
    rw [← flat, List.getLast?_append, final, Option.some_or]
  rw [← flat] at ascending
  obtain ⟨_, own, across⟩ := List.pairwise_append.mp ascending
  -- no block before the last one reaches it
  have below : ∀ group ∈ front, firstKey group < last.key := by
    intro group member
    have blocks : group ∈ splitBlocks entries := by
      rw [split]
      exact List.mem_append_left _ member
    obtain ⟨entry, inside, keyed⟩ := exists_firstKey (ne_nil_of_mem_splitBlocks blocks)
    rw [← keyed]
    exact across entry (List.mem_flatten_of_mem member inside) last held
  have few := bounds.length_lt split below covered
  refine ⟨few, fun block at_ => ?_⟩
  rw [split, List.getLast?_concat, Option.some.injEq] at at_
  have maxKey : metadata.maxKey = first.key := by
    rw [bounds.maxKey, indexedBlocks_of_lt few, split,
      List.map_append, List.map_singleton, List.getLast?_concat]
    rfl
  rw [maxKey] at covered
  rw [← at_]
  cases rest with
  | nil => rfl
  | cons second rest =>
      rw [List.getLast?_cons_cons] at final
      have above := (List.pairwise_cons.mp own).1 last (List.mem_of_getLast? final)
      exact absurd above (not_lt.mpr covered)

end Bounds

/-! ## Routing over chunks -/

variable {Table : Type} {ops : TableOps Table} {chunks : List (List Entry)}
  {tables : List Table}

/-- Every entry is routed to the table at the position of its chunk. -/
def RoutesChunks (ops : TableOps Table) (chunks : List (List Entry)) (tables : List Table) :
    Prop :=
  ∀ (position : Nat) (chunk : List Entry), chunks[position]? = some chunk →
    ∀ entry ∈ chunk, ∃ table, tables[position]? = some table ∧
      StorageEngine.findSstableForKey ops tables entry.key = some table

/-- Tables with derived ranges route every entry to its chunk exactly when each of them
has a single entry in its last block. -/
theorem routesChunks_iff
    (bounds : List.Forall₂ (fun chunk table => IndexBounds (ops.metadata table) chunk) chunks
      tables)
    (nonempty : ∀ chunk ∈ chunks, chunk ≠ []) (ascending : Ascending chunks.flatten) :
    RoutesChunks ops chunks tables ↔ ∀ chunk ∈ chunks, LastBlockSingle chunk := by
  constructor
  · intro routes chunk member
    obtain ⟨position, at_⟩ := List.getElem?_of_mem member
    obtain ⟨inside, rfl⟩ := List.getElem?_eq_some_iff.mp at_
    have own := (List.pairwise_flatten.mp ascending).1 _ member
    have aligned := bounds.length_eq
    have bounded := List.Forall₂.get bounds inside (aligned ▸ inside)
    refine IndexBounds.lastBlockSingle bounded (nonempty _ member) own fun last final => ?_
    obtain ⟨table, tableAt, found⟩ := routes position _ at_ last (List.mem_of_getLast? final)
    obtain ⟨_, rfl⟩ := List.getElem?_eq_some_iff.mp tableAt
    have covered := List.find?_some found
    rw [decide_eq_true_eq] at covered
    exact covered.2
  · intro single
    induction bounds with
    | nil =>
        intro position chunk at_
        cases at_
    | @cons chunk table chunks tables bound _ ih =>
        obtain ⟨sorted, later, across⟩ := List.pairwise_append.mp ascending
        have own : Ascending chunk := sorted
        have some := nonempty chunk List.mem_cons_self
        obtain ⟨minKey, maxKey⟩ := bound.exact some (single chunk List.mem_cons_self)
        intro position other at_ entry member
        cases position with
        | zero =>
            cases at_
            refine ⟨table, rfl, List.find?_cons_of_pos (decide_eq_true ?_)⟩
            exact ⟨own.le_of_head? minKey member, own.le_of_getLast? maxKey member⟩
        | succ position =>
            have routes := ih (fun chunk held => nonempty chunk (List.mem_cons_of_mem _ held))
              later fun chunk held => single chunk (List.mem_cons_of_mem _ held)
            obtain ⟨found, foundAt, finds⟩ := routes position other at_ entry member
            refine ⟨found, foundAt, ?_⟩
            -- the last key of the first chunk is below all keys behind it
            obtain ⟨last, final, keyed⟩ := Option.map_eq_some_iff.mp maxKey
            have above := across last (List.mem_of_getLast? final) entry
              (List.mem_flatten_of_mem (List.mem_of_getElem? at_) member)
            rw [keyed] at above
            rw [StorageEngine.findSstableForKey, List.find?_cons_of_neg]
            · exact finds
            · rw [decide_eq_true_eq]
              exact fun covered => absurd above (not_lt.mpr covered.2)

/-! ## Tables on disk -/

namespace Disk

variable {external : External} {host : Host}

/-- A reader of a table made on disk has the derived key range. -/
theorem indexBounds_of_madeOf {config : Config} {chunk : List Entry} {table : SSTableReader}
    (ascending : Ascending chunk) (limits : ∀ entry ∈ chunk, entry.WithinLimits)
    (made : (indexedPlatform external host).MadeOf config chunk table) :
    IndexBounds table.metadata chunk := by
  obtain ⟨path, world, reached, ran⟩ := made
  obtain ⟨metadata, written, building, opening⟩ := bind_eq_ok.mp ran
  obtain ⟨createdAt, sink, building, found⟩ := buildFromVec_eq_ok building
  change openIndexed path config.useMmap written = .ok table reached at opening
  rw [openIndexed, bind_of_ok (get_apply _), found] at opening
  have sorted : SSTableBuilder.sortedByKey chunk = chunk :=
    List.Pairwise.insertionSort_eq (ascending.imp fun below => below.le)
  rw [SSTableBuilder.buildFromVec, sorted] at building
  obtain ⟨bloomFilter, built, _⟩ := SSTableBuilder.build_eq_ok building
  exact built.indexBounds limits (lift_eq_ok.mp opening).1

/-- `create_sstables_for_level` makes one table of each chunk, with the derived range. -/
theorem indexBounds_of_createSstablesForLevel {level targetSize : Nat} {entries : List Entry}
    {tables : List SSTableReader} {machine reached : Machine Disk SSTableReader}
    (ascending : Ascending entries) (limits : ∀ entry ∈ entries, entry.WithinLimits)
    (target : machine.engine.config.targetSize level = .ok targetSize)
    (ran : createSstablesForLevel (indexedPlatform external host) level entries machine =
      .ok tables reached) :
    List.Forall₂ ((indexedPlatform external host).MadeOf machine.engine.config)
        (chunksOf targetSize entries) tables ∧
      List.Forall₂ (fun chunk table => IndexBounds
        ((SSTableReader.ops external).metadata table) chunk) (chunksOf targetSize entries)
        tables := by
  have made := madeOf_of_createSstablesForLevel target ran
  refine ⟨made, List.forall₂_iff_get.mpr ⟨made.length_eq, fun position inside tableInside => ?_⟩⟩
  have member := List.get_mem (chunksOf targetSize entries) ⟨position, inside⟩
  refine indexBounds_of_madeOf (ascending.of_mem_chunksOf member) (fun entry held => ?_)
    (made.get inside tableInside)
  apply limits
  rw [← flatten_chunksOf targetSize entries]
  exact List.mem_flatten_of_mem member held

/-- The tables that `create_sstables_for_level` makes of the chunks of ascending entries
route every entry to its chunk exactly when each table has a single entry in its last
block. -/
theorem routesChunks_createSstablesForLevel_iff {level targetSize : Nat} {entries : List Entry}
    {tables : List SSTableReader} {machine reached : Machine Disk SSTableReader}
    (ascending : Ascending entries) (limits : ∀ entry ∈ entries, entry.WithinLimits)
    (target : machine.engine.config.targetSize level = .ok targetSize)
    (ran : createSstablesForLevel (indexedPlatform external host) level entries machine =
      .ok tables reached) :
    List.Forall₂ ((indexedPlatform external host).MadeOf machine.engine.config)
        (chunksOf targetSize entries) tables ∧
      (RoutesChunks (SSTableReader.ops external) (chunksOf targetSize entries) tables ↔
        ∀ chunk ∈ chunksOf targetSize entries, LastBlockSingle chunk) := by
  obtain ⟨made, bounds⟩ :=
    indexBounds_of_createSstablesForLevel ascending limits target ran
  have whole : Ascending (chunksOf targetSize entries).flatten := by
    rwa [flatten_chunksOf]
  exact ⟨made, routesChunks_iff bounds (fun _ => ne_nil_of_mem_chunksOf) whole⟩

/-- A machine whose clock stands still and whose directories are listed in order. -/
private def steadyHost : Host where
  clock _ := 1000000
  order := id
  lists := .refl

/-- An engine with tables of a given size on an empty disk. -/
private def emptyMachine (l0SstableSize : Nat) : Machine Disk SSTableReader where
  engine := .fresh { l0SstableSize }
  world := { files := [], ticks := 0 }

/-- Two keys of one byte. -/
private def twoKeys : List Entry :=
  [{ key := [1], value := some [10], timestamp := 5, sequence := 1 },
   { key := [2], value := some [20], timestamp := 6, sequence := 2 }]

private theorem twoKeys_ascending : Ascending twoKeys := by
  rw [Ascending]
  decide

private theorem twoKeys_withinLimits : ∀ entry ∈ twoKeys, entry.WithinLimits := by
  intro entry member
  rcases List.mem_pair.mp member with rfl | rfl
  · exact ⟨by decide, fun value stored => by cases stored; decide⟩
  · exact ⟨by decide, fun value stored => by cases stored; decide⟩

private theorem twoKeys_ran (l0SstableSize : Nat)
    (returned : succeeded (createSstablesForLevel (indexedPlatform .plain steadyHost) 1 twoKeys
      (emptyMachine l0SstableSize)) = true) :
    ∃ tables reached, createSstablesForLevel (indexedPlatform .plain steadyHost) 1 twoKeys
      (emptyMachine l0SstableSize) = .ok tables reached := by
  obtain ⟨tables, ran⟩ := exists_ok_of_succeeded returned
  exact ⟨tables, _, ran⟩

/-- Two tables of one entry each. -/
theorem routesChunks_createSstablesForLevel_iff_apart :
    ∃ first second reached,
      createSstablesForLevel (indexedPlatform .plain steadyHost) 1 twoKeys (emptyMachine 10) =
        .ok [first, second] reached ∧
      RoutesChunks (SSTableReader.ops .plain) (twoKeys.map fun entry => [entry])
        [first, second] := by
  obtain ⟨tables, reached, ran⟩ := twoKeys_ran 10 (by decide +kernel)
  have target : (emptyMachine 10).engine.config.targetSize 1 = .ok 20 := rfl
  have chunks : chunksOf 20 twoKeys = twoKeys.map fun entry => [entry] := by decide
  obtain ⟨made, routes⟩ := routesChunks_createSstablesForLevel_iff twoKeys_ascending
    twoKeys_withinLimits target ran
  rw [chunks] at made routes
  obtain ⟨first, second, rfl⟩ := List.length_eq_two.mp made.length_eq.symm
  refine ⟨first, second, reached, ran, routes.mpr fun chunk member => ?_⟩
  obtain ⟨entry, held, rfl⟩ := List.mem_map.mp member
  rcases List.mem_pair.mp held with rfl | rfl
  · exact ⟨by decide, fun block at_ => by cases at_; rfl⟩
  · exact ⟨by decide, fun block at_ => by cases at_; rfl⟩

/-- The second key of a table of one block is above the largest key of its reader. -/
theorem second_key_not_routed :
    ¬ ∀ (machine reached : Machine Disk SSTableReader) (targetSize : Nat)
        (entries : List Entry) (tables : List SSTableReader),
      Ascending entries → (∀ entry ∈ entries, entry.WithinLimits) →
      machine.engine.config.targetSize 1 = .ok targetSize →
      createSstablesForLevel (indexedPlatform .plain steadyHost) 1 entries machine =
        .ok tables reached →
      RoutesChunks (SSTableReader.ops .plain) (chunksOf targetSize entries) tables := by
  intro routes
  obtain ⟨tables, reached, ran⟩ := twoKeys_ran 1024 (by decide +kernel)
  have target : (emptyMachine 1024).engine.config.targetSize 1 = .ok 2048 := rfl
  obtain ⟨_, bounds⟩ := indexBounds_of_createSstablesForLevel twoKeys_ascending
    twoKeys_withinLimits target ran
  have chunks : chunksOf 2048 twoKeys = [twoKeys] := by decide
  have routed := routes _ _ _ _ _ twoKeys_ascending twoKeys_withinLimits target ran
  have whole : Ascending (chunksOf 2048 twoKeys).flatten := by
    rw [flatten_chunksOf]
    exact twoKeys_ascending
  have single := (routesChunks_iff bounds (fun _ => ne_nil_of_mem_chunksOf) whole).mp routed
    twoKeys (by rw [chunks]; exact List.mem_singleton_self _)
  have two := single.2 twoKeys (by decide)
  cases two

end Disk

end JustDb

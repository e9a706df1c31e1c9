import JustDb.SSTable.PointLookup

/-!
# The layout of a table and its way back

A file whose build returned `Ok` is cut, without gap or overlap, into its blocks, its
bloom filter, its index and its footer.  The footer locates the sections from the end
of the file, so a reader recovers the index and the metadata that the writer had.
-/

namespace JustDb

open Stateful

/-- Index intervals that follow each other from one offset to another. -/
def Tiles : (start : Nat) → List IndexEntry → (stop : Nat) → Prop
  | start, [], stop => start = stop
  | start, entry :: index, stop => entry.offset = start ∧ Tiles (start + entry.size) index stop

theorem tiles_indexFrom (stored : List Entry → Bytes) (offset : Nat)
    (groups : List (List Entry)) :
    Tiles offset (indexFrom stored offset groups) (offset + (groups.flatMap stored).length) := by
  induction groups generalizing offset with
  | nil => rfl
  | cons group groups ih =>
      have rest := ih (offset + (stored group).length)
      rw [Nat.add_assoc, ← List.length_append, ← List.flatMap_cons] at rest
      exact ⟨rfl, rest⟩

/-- An index entry holds the first key of a block and the interval where it stands. -/
structure Locates (stored : List Entry → Bytes) (data : Bytes) (group : List Entry)
    (entry : IndexEntry) : Prop where
  key : group.head?.map Entry.key = some entry.key
  bytes : (data.drop entry.offset).take entry.size = stored group

theorem head?_key {group : List Entry} (nonempty : group ≠ []) :
    group.head?.map Entry.key = some (firstKey group) := by
  obtain ⟨first, rest, rfl⟩ := List.exists_cons_of_ne_nil nonempty
  rfl

/-- The index entries locate the blocks one by one. -/
theorem forall₂_locates (stored : List Entry → Bytes) (before : Bytes)
    {groups : List (List Entry)} (nonempty : ∀ group ∈ groups, group ≠ []) :
    List.Forall₂ (Locates stored (before ++ groups.flatMap stored)) groups
      (indexFrom stored before.length groups) := by
  induction groups generalizing before with
  | nil => exact .nil
  | cons group groups ih =>
      have rest := ih (before ++ stored group)
        fun other member => nonempty other (List.mem_cons_of_mem _ member)
      rw [List.append_assoc, ← List.flatMap_cons, List.length_append] at rest
      refine .cons ⟨head?_key (nonempty group List.mem_cons_self), ?_⟩ rest
      change ((before ++ (group :: groups).flatMap stored).drop before.length).take _ = _
      rw [List.drop_left, List.flatMap_cons, List.take_left]

/-- Blocks one after another have strictly ascending first keys. -/
theorem pairwise_indexFrom (stored : List Entry → Bytes) (offset : Nat)
    {groups : List (List Entry)} (nonempty : ∀ group ∈ groups, group ≠ [])
    (ascending : Ascending groups.flatten) :
    (indexFrom stored offset groups).Pairwise fun left right => left.key < right.key := by
  rw [List.pairwise_iff_getElem]
  intro left right leftInside rightInside below
  have at_ : ∀ {position : Nat} (inside : position < (indexFrom stored offset groups).length),
      ∃ group, groups[position]? = some group ∧
        ((indexFrom stored offset groups)[position]).key = firstKey group := by
    intro position inside
    have found := List.getElem?_eq_getElem inside
    rw [indexFrom_getElem?] at found
    obtain ⟨group, here, entry⟩ := Option.map_eq_some_iff.mp found
    exact ⟨group, here, by rw [← entry]⟩
  obtain ⟨first, firstAt, firstKeyed⟩ := at_ leftInside
  obtain ⟨second, secondAt, secondKeyed⟩ := at_ rightInside
  rw [firstKeyed, secondKeyed]
  exact firstKey_lt nonempty ascending below firstAt secondAt

/-- The first key of an index is the first key of all entries. -/
theorem head?_indexFrom (stored : List Entry → Bytes) (offset : Nat)
    {groups : List (List Entry)} (nonempty : ∀ group ∈ groups, group ≠ []) :
    (indexFrom stored offset groups).head?.map IndexEntry.key =
      groups.flatten.head?.map Entry.key := by
  cases groups with
  | nil => rfl
  | cons group groups =>
      have here := nonempty group List.mem_cons_self
      have keyed := head?_key here
      rw [List.flatten_cons, List.head?_append_of_ne_nil _ here, keyed]
      rfl

/-- A footer gives back numbers that fit a word. -/
theorem footerMeta_of_lt {entryCount dataSize bloomSize indexSize : Nat}
    (counted : entryCount < wordSize) (addressable : dataSize + bloomSize + indexSize < wordSize)
    (createdAt : Timestamp) (compression : CompressionType) :
    footerMeta entryCount dataSize indexSize dataSize bloomSize createdAt compression =
      { entryCount, dataSize, indexSize, bloomOffset := dataSize, bloomSize, minKey := [],
        maxKey := [], compression, createdAt, version := sstableVersion } := by
  rw [footerMeta, toUInt64_toNat counted, toUInt64_toNat (by omega : dataSize < wordSize),
    toUInt64_toNat (by omega : bloomSize < wordSize),
    toUInt64_toNat (by omega : indexSize < wordSize)]

namespace SSTableWriter

variable {external : External}

/-- What stands in the file of a finished writer, section by section. -/
structure LaidOut (external : External) (finished : SSTableWriter) (metadata : SStableMeta)
    (entries : List Entry) (data bloom index footer : Bytes) : Prop where
  file : finished.writer.written = data ++ (bloom ++ (index ++ footer))
  dataSize : data.length = metadata.dataSize
  bloomOffset : data.length = metadata.bloomOffset
  bloom_eq : bloom = finished.bloomFilter.toBytes
  bloomSize : bloom.length = metadata.bloomSize
  index_eq : index = serializeIndex finished.index
  indexSize : index.length = metadata.indexSize
  footerSize_eq : footer.length = footerSize
  tiles : Tiles 0 finished.index metadata.dataSize
  ascending : finished.index.Pairwise fun left right => left.key < right.key
  blocks : ∃ groups, groups.flatten = entries ∧
    List.Forall₂ (Locates (finished.stored external) data) groups finished.index

/-- Appending an entry has counted it. -/
theorem entryCount_lt_of_appendEntry {key : Key} {entryData : Bytes} {self after : SSTableWriter}
    (ran : appendEntry key entryData self = .ok () after) : after.entryCount < wordSize := by
  rw [appendEntry, bind_of_ok (modify_apply _ _), bind_of_ok (get_apply _)] at ran
  obtain ⟨entries, _, blockSum, ran⟩ := bind_eq_ok.mp ran
  obtain ⟨_, rfl⟩ := lift_eq_ok.mp blockSum
  obtain ⟨total, _, tableSum, ran⟩ := bind_eq_ok.mp ran
  obtain ⟨counted, rfl⟩ := lift_eq_ok.mp tableSum
  cases ran
  rw [← (checkedAdd_eq_ok.mp counted).2]
  exact (checkedAdd_eq_ok.mp counted).1

/-- A run of `add` calls has counted its entries. -/
theorem entryCount_lt_of_adds {entries : List Entry} {start filled : SSTableWriter}
    (room : start.entryCount < wordSize)
    (ran : entries.forM (SSTableWriter.add external) start = .ok ⟨⟩ filled) :
    filled.entryCount < wordSize := by
  have preserved : ∀ (done : List Entry) entry before after, before.entryCount < wordSize →
      SSTableWriter.add external entry before = .ok ⟨⟩ after → after.entryCount < wordSize := by
    intro done entry before after _ stepped
    obtain ⟨⟨⟩, _, _, ranNote⟩ := bind_eq_ok.mp stepped
    obtain ⟨⟨⟩, _, _, ranRoom⟩ := bind_eq_ok.mp ranNote
    obtain ⟨⟨⟩, _, _, ranAppend⟩ := bind_eq_ok.mp ranRoom
    exact entryCount_lt_of_appendEntry ranAppend
  exact @forM_ok_induction Fault SSTableWriter Entry (SSTableWriter.add external)
    (fun _ state => state.entryCount < wordSize) preserved entries [] start filled room ran

/-- What `finish` leaves behind a split of the entries. -/
theorem Adding.laidOut {start filled finished : SSTableWriter} {entries : List Entry}
    {metadata : SStableMeta} (adding : Adding external start filled entries)
    (ran : finish external filled = .ok metadata finished) :
    ∃ data bloom index footer,
      LaidOut external finished metadata entries data bloom index footer := by
  obtain ⟨written, rfl, index_eq, bloom_eq, stored⟩ := adding.holds.finish_result ran
  have nonempty : ∀ group ∈ splitBlocks entries, group ≠ [] :=
    fun group member => ne_nil_of_mem_splitBlocks member
  have ascending : Ascending (splitBlocks entries).flatten := by
    rw [flatten_splitBlocks]
    exact adding.ascending
  refine ⟨_, _, _, _, written.written, rfl, rfl, ?_, rfl, ?_, rfl, ?_, ?_, ?_, ?_⟩
  · rw [bloom_eq]
  · rw [index_eq]
  · exact paddedFooter_length _ _ _ _ _ _ _
  · have tiled := tiles_indexFrom (filled.stored external) 0 (splitBlocks entries)
    rw [Nat.zero_add] at tiled
    rw [index_eq]
    exact tiled
  · rw [index_eq]
    exact pairwise_indexFrom _ 0 nonempty ascending
  · refine ⟨splitBlocks entries, flatten_splitBlocks entries, ?_⟩
    rw [index_eq, stored]
    exact forall₂_locates (filled.stored external) [] nonempty

/-- A new writer is ready for its first entry. -/
theorem adding_of_new {output : Output} {expectedEntries : Nat} {compression : CompressionType}
    {level : Int} {rate : Float64} {createdAt : Timestamp} {writer : SSTableWriter}
    {opened : Sink}
    (created : SSTableWriter.new external expectedEntries compression level rate createdAt
      { output } = .ok writer opened) :
    Adding external writer writer [] ∧ 0 < writer.bloomFilter.bitCount ∧
      writer.settings = (output, compression, level, createdAt) := by
  obtain ⟨bloomFilter, made, rfl⟩ := @SSTableBuilder.new_eq_ok external
    { compression, compressionLevel := level, bloomFalsePositiveRate := rate } output createdAt
    expectedEntries writer opened created
  refine ⟨?_, (BloomFilter.blank_of_new external made).indexable, rfl⟩
  exact adding_initial external _ output (BloomFilter.elementCount_of_new external made) createdAt

/-- A table that was written by a successful run of `add` calls and `finish` is laid out
section by section, and a reader recovers its index and, but for the largest key, its
metadata. -/
theorem table_round_trip {output : Output} {expectedEntries : Nat}
    {compression : CompressionType} {level : Int} {rate : Float64} {createdAt : Timestamp}
    {writer finished : SSTableWriter} {opened : Sink} {entries : List Entry}
    {metadata : SStableMeta} (bounded : output.Bounded)
    (created : SSTableWriter.new external expectedEntries compression level rate createdAt
      { output } = .ok writer opened)
    (ran : addAll external entries writer = .ok metadata finished)
    (keys : ∀ entry ∈ entries, entry.key.length < u32Size)
    (blocks : finished.index.length < u32Size) (path : FileName) (mapped : Bool) :
    (∃ data bloom index footer,
      LaidOut external finished metadata entries data bloom index footer) ∧
    (metadata.entryCount = entries.length ∧ metadata.createdAt = createdAt ∧
      metadata.compression = compression) ∧
    ∃ reader, SSTableReader.recover path finished.writer.written mapped = .ok reader ∧
      reader.index = finished.index ∧
      reader.metadata = { metadata with maxKey := reader.metadata.maxKey } := by
  obtain ⟨start, -, settings⟩ := adding_of_new created
  obtain ⟨⟨⟩, filled, adding, finishing⟩ := bind_eq_ok.mp ran
  have held := start.addAll adding
  have counted := entryCount_lt_of_adds (by rw [start.entryCount]; decide) adding
  have kept := held.settings.trans settings
  have target : filled.writer.output = output := congrArg Prod.fst kept
  refine ⟨held.laidOut finishing, ?_⟩
  obtain ⟨written, rfl, index_eq, -⟩ := held.holds.finish_result finishing
  have addressable := written.addressable
  have grouped : ∀ group ∈ splitBlocks entries, ∀ entry ∈ group, entry.key.length < u32Size :=
    fun group member entry inside => keys entry (mem_of_mem_splitBlocks member inside)
  have data : ((splitBlocks entries).flatMap (filled.stored external)).length < wordSize :=
    lt_of_le_of_lt (Nat.le_add_right_of_le (Nat.le_add_right _ _)) addressable
  have recovered := SSTableReader.recover_eq path mapped written.written
    (written.bounded (by rw [target]; exact bounded)) addressable
    fun entry member => SSTableReader.encodable_of_keys grouped data member
  have minKey : (finished.index.head?.map IndexEntry.key).getD [] = filled.minKey.getD [] := by
    have first := head?_indexFrom (filled.stored external) 0
      fun group (member : group ∈ splitBlocks entries) => ne_nil_of_mem_splitBlocks member
    rw [flatten_splitBlocks, ← held.minKey] at first
    rw [index_eq, ← first]
    rfl
  rw [footerMeta_of_lt counted addressable, ← index_eq, Nat.mod_eq_of_lt blocks,
    List.take_length, minKey] at recovered
  refine ⟨⟨held.entryCount, ?_, ?_⟩, _, recovered, rfl, ?_⟩
  · exact congrArg (fun settings => settings.2.2.2) kept
  · exact congrArg (fun settings => settings.2.1) kept
  · rw [summary, ← index_eq]

/-- A value and a delete marker. -/
private def markedPair : List Entry :=
  [{ key := [1], value := some [10], timestamp := 5, sequence := 1 },
   { key := [2], value := none, timestamp := 6, sequence := 2 }]

theorem table_round_trip_markedPair :
    ∃ writer opened metadata finished reader,
      SSTableWriter.new External.plain 2 .none 1 (.finite (1 / 100)) 7 { output := .spacious } =
        .ok writer opened ∧
      addAll External.plain markedPair writer = .ok metadata finished ∧
      SSTableReader.recover [] finished.writer.written true = .ok reader ∧
      reader.index = finished.index ∧ metadata.entryCount = 2 := by
  have returned : succeeded (({ compression := .none } : SSTableBuilder).build External.plain 7
      markedPair { output := .spacious }) = true := by decide +kernel
  obtain ⟨metadata, ran⟩ := exists_ok_of_succeeded returned
  obtain ⟨writer, opened, created, consuming⟩ := bind_eq_ok.mp ran
  obtain ⟨finished, added, -⟩ := SSTableBuilder.consume_eq_ok consuming
  have blocks : finished.index.length < u32Size := by
    obtain ⟨⟨⟩, filled, adding, finishing⟩ := bind_eq_ok.mp added
    have held := (adding_of_new created).1.addAll adding
    rw [(held.holds.finish_result finishing).2.2.1, indexFrom_length]
    decide +kernel
  obtain ⟨-, counts, reader, recovered, index, -⟩ := table_round_trip Output.spacious_bounded
    created added (by decide) blocks [] true
  exact ⟨writer, opened, metadata, finished, reader, created, added, recovered, index, counts.1⟩

end SSTableWriter

end JustDb

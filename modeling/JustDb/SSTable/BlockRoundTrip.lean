import JustDb.SSTable.Serving

/-!
# One block, written and read back

The writer bounds a block of several entries by `BLOCK_SIZE` and a block of one
entry by nothing, and adds a count of four bytes to either.  The reader hands zstd
a buffer of `BLOCK_SIZE * 4` bytes.  The two agree on every block of several
entries, so a block that cannot be read back holds a single large entry.
-/

namespace JustDb

open Stateful

/-- The room that the reader gives zstd for a decompressed block. -/
def decompressionCapacity : Nat := blockSize * 4

variable {external : External}

theorem zstdCompress_of_compressBlock {level : Int} {data compressed : Bytes}
    (made : compressBlock external .zstd level data = .ok compressed) :
    external.zstdCompress data level = .ok compressed := by
  unfold compressBlock at made
  cases outcome : external.zstdCompress data level with
  | ok bytes =>
      rw [outcome] at made
      cases made
      rfl
  | error reason =>
      rw [outcome] at made
      cases made

/-- zstd gives back a block of the table exactly where it fits the reader's buffer. -/
theorem decompressBlock_zstd_iff (roundTrips : external.ZstdRoundTrips) {level : Int}
    {data compressed : Bytes} (made : compressBlock external .zstd level data = .ok compressed) :
    decompressBlock external .zstd compressed = .ok data ↔
      data.length ≤ decompressionCapacity := by
  have squeezed := zstdCompress_of_compressBlock made
  rw [decompressBlock]
  rcases Nat.lt_or_ge decompressionCapacity data.length with large | small
  · obtain ⟨reason, failed⟩ := roundTrips.overflows squeezed large
    rw [show blockSize * 4 = decompressionCapacity from rfl, failed]
    exact iff_of_false (fun same => by cases same) (not_le.mpr large)
  · rw [show blockSize * 4 = decompressionCapacity from rfl, roundTrips.fits squeezed small]
    exact iff_of_true rfl small

/-- Whether a compressed block decompresses to what it was made from. -/
theorem decompressBlock_iff (lz4 : external.Lz4RoundTrips) (zstd : external.ZstdRoundTrips)
    {compression : CompressionType} {level : Int} {data compressed : Bytes}
    (made : compressBlock external compression level data = .ok compressed) :
    decompressBlock external compression compressed = .ok data ↔
      compression ≠ .zstd ∨ data.length ≤ decompressionCapacity := by
  by_cases plain : compression = .zstd
  · subst plain
    rw [decompressBlock_zstd_iff zstd made, or_iff_right (not_not.mpr rfl)]
  · exact iff_of_true (SSTableReader.decompressBlock_compressBlock plain lz4 made) (.inl plain)

/-- A block of the writer overflows the reader's buffer only as a single entry. -/
theorem Split.Fits.capacity_iff {group : List Entry} (fits : Split.Fits group)
    (nonempty : group ≠ []) :
    (blockBytes group).length ≤ decompressionCapacity ↔
      ∀ entry, group = [entry] → (entryBytes entry).length + 4 ≤ decompressionCapacity := by
  have length : (blockBytes group).length = (bodyBytes group).length + 4 := by
    rw [blockBytes_eq, List.length_append, LittleEndian.encode_length, Nat.add_comm]
  match group, nonempty with
  | [entry], _ =>
      rw [length, bodyBytes, List.flatMap_singleton]
      exact ⟨fun small other same => by cases same; exact small, fun small => small entry rfl⟩
  | first :: second :: rest, _ =>
      have small : (bodyBytes (first :: second :: rest)).length ≤ blockSize :=
        fits.resolve_left (by simp)
      refine iff_of_true ?_ (fun entry same => by cases same)
      rw [length]
      exact (Nat.add_le_add_right small 4).trans (by decide)

/-- Where a compressed block can be decompressed, it fits the reader's buffer. -/
theorem fits_of_decompressBlock (zstd : external.ZstdRoundTrips) {compression : CompressionType}
    {level : Int} {data compressed decompressed : Bytes}
    (made : compressBlock external compression level data = .ok compressed)
    (ran : decompressBlock external compression compressed = .ok decompressed) :
    compression ≠ .zstd ∨ data.length ≤ decompressionCapacity := by
  by_cases plain : compression = .zstd
  · subst plain
    refine .inr (not_lt.mp fun large => ?_)
    obtain ⟨reason, failed⟩ := zstd.overflows (zstdCompress_of_compressBlock made) large
    rw [decompressBlock, show blockSize * 4 = decompressionCapacity from rfl, failed] at ran
    cases ran
  · exact .inl plain

/-- All blocks of a table fit the reader's buffer exactly where all its entries do. -/
theorem blocks_fit_iff {entries : List Entry} :
    (∀ group ∈ splitBlocks entries, (blockBytes group).length ≤ decompressionCapacity) ↔
      ∀ entry ∈ entries, (entryBytes entry).length + 4 ≤ decompressionCapacity := by
  constructor
  · intro fits entry member
    rw [← flatten_splitBlocks entries] at member
    obtain ⟨group, block, inside⟩ := List.mem_flatten.mp member
    have record : (entryBytes entry).length ≤ (bodyBytes group).length :=
      (List.sublist_flatten_of_mem (List.mem_map_of_mem inside)).length_le
    have small := fits group block
    rw [blockBytes_eq, List.length_append, LittleEndian.encode_length] at small
    omega
  · intro fits group block
    apply ((fits_of_mem_splitBlocks block).capacity_iff (ne_nil_of_mem_splitBlocks block)).mpr
    intro entry same
    apply fits
    apply mem_of_mem_splitBlocks block
    rw [same]
    exact List.mem_singleton_self entry

namespace SSTableReader

/-- What `read_block` returns of a block that stands in the file behind its checksum and
is not cached. -/
theorem readBlock_checked_iff {reader : SSTableReader} {before compressed rest data : Bytes}
    {key : Key}
    (contents : reader.contents = before ++
      ((LittleEndian.encode 4 (external.crc32 compressed).toNat ++ compressed) ++ rest))
    (bounded : reader.contents.length ≤ maxFileSize)
    (uncached : reader.blockCache.lookup before.length = none) :
    (∃ cached, readBlock external
        { key, offset := before.length, size := compressed.length + 4 } reader =
          .ok data cached) ↔
      decompressBlock external reader.metadata.compression compressed = .ok data := by
  have size : compressed.length + 4 =
      (LittleEndian.encode 4 (external.crc32 compressed).toNat ++ compressed).length := by
    rw [List.length_append, LittleEndian.encode_length, Nat.add_comm]
  rw [readBlock, bind_of_ok (get_apply reader)]
  simp only [uncached]
  rw [size, readAt_section contents bounded, bind_of_ok (lift_ok _ _), unpackBlock_checked]
  cases decompressBlock external reader.metadata.compression compressed with
  | ok block =>
      rw [bind_of_ok (lift_ok _ _), bind_of_ok (modify_apply _ _), pure_apply]
      constructor
      · rintro ⟨cached, same⟩
        cases same
        rfl
      · intro same
        cases same
        exact ⟨_, rfl⟩
  | error fault =>
      constructor
      · rintro ⟨cached, same⟩
        cases same
      · intro same
        cases same

/-- A reader of the file of a writer that has just flushed a block, which it has not
read yet.  What else the writer puts in the file is left open. -/
structure Follows (reader : SSTableReader) (writer : SSTableWriter) (block : IndexEntry) :
    Prop where
  contents : writer.writer.written <+: reader.contents
  bounded : reader.contents.length ≤ maxFileSize
  compression : reader.metadata.compression = writer.compression
  uncached : reader.blockCache.lookup block.offset = none

end SSTableReader

namespace SSTableWriter

/-- The index entry of a block that has just been flushed. -/
theorem Holds.getLast?_index_flushedAs {self : SSTableWriter} {split : Split} {compressed : Bytes}
    (holds : self.Holds external split) (nonempty : split.current ≠ []) :
    (self.flushedAs external compressed).index.getLast? =
      some { key := firstKey split.current, offset := self.writer.written.length,
             size := compressed.length + 4 } := by
  change (setLastSize (compressed.length + 4) self.index).getLast? = _
  rw [holds.index, pendingIndex, if_neg nonempty, setLastSize_append_singleton,
    List.getLast?_concat, holds.placed]

/-- Whether `read_block` gives back a flushed block, by the size of the block. -/
theorem readBlock_flushed_iff_length (lz4 : external.Lz4RoundTrips)
    (zstd : external.ZstdRoundTrips) {self after : SSTableWriter} {split : Split}
    (holds : self.Holds external split) (nonempty : split.current ≠ [])
    (ran : flushCurrentBlock external self = .ok () after) {block : IndexEntry}
    (indexed : after.index.getLast? = some block) {reader : SSTableReader}
    (follows : reader.Follows after block) :
    (∃ cached, SSTableReader.readBlock external block reader =
        .ok (blockBytes split.current) cached) ↔
      self.compression ≠ .zstd ∨ (blockBytes split.current).length ≤ decompressionCapacity := by
  obtain ⟨compressed, made, rfl⟩ :=
    flushCurrentBlock_eq_ok (fun empty => nonempty (holds.currentBlock_eq_nil.mp empty)) ran
  rw [holds.getLast?_index_flushedAs nonempty] at indexed
  cases indexed
  rw [holds.currentBlock, holds.currentBlockEntries, ← blockBytes] at made
  obtain ⟨rest, contents⟩ := follows.contents
  change self.writer.written ++ _ ++ compressed ++ rest = reader.contents at contents
  rw [List.append_assoc, List.append_assoc, ← List.append_assoc _ compressed] at contents
  have compression : reader.metadata.compression = self.compression := follows.compression
  rw [SSTableReader.readBlock_checked_iff contents.symm follows.bounded follows.uncached,
    compression, decompressBlock_iff lz4 zstd made]

/-- `read_block` on the bytes that `flush_current_block` wrote gives back the block,
unless zstd compressed a single entry too large for the reader's buffer. -/
theorem readBlock_flushed_iff (lz4 : external.Lz4RoundTrips) (zstd : external.ZstdRoundTrips)
    {self after : SSTableWriter} {split : Split} (holds : self.Holds external split)
    (nonempty : split.current ≠ []) (fits : Split.Fits split.current)
    (ran : flushCurrentBlock external self = .ok () after) {block : IndexEntry}
    (indexed : after.index.getLast? = some block) {reader : SSTableReader}
    (follows : reader.Follows after block) :
    (∃ cached, SSTableReader.readBlock external block reader =
        .ok (blockBytes split.current) cached) ↔
      (self.compression = .zstd → ∀ entry, split.current = [entry] →
        (entryBytes entry).length + 4 ≤ decompressionCapacity) := by
  rw [readBlock_flushed_iff_length lz4 zstd holds nonempty ran indexed follows,
    fits.capacity_iff nonempty, imp_iff_not_or]

/-! ## One entry in a block of its own -/

/-- `add` on a writer without entries puts the entry in the block in hand. -/
theorem add_of_empty {self : SSTableWriter} {entry : Entry} (unused : self.maxKey = none)
    (indexable : 0 < self.bloomFilter.bitCount)
    (countable : self.bloomFilter.elementCount + 1 < wordSize) (empty : self.currentBlock = [])
    (none : self.currentBlockEntries = 0) (room : self.entryCount + 1 < wordSize)
    (limits : entry.WithinLimits) :
    add external entry self =
      .ok () ((self.noted entry.key).appended entry.key (entryBytes entry)) := by
  have ordered : checkOrder entry.key self = .ok () self := by
    rw [checkOrder, bind_of_ok (get_apply self), unused]
    rfl
  have small : (self.noted entry.key).currentBlock.length + (entryBytes entry).length <
      wordSize := by
    have size := entryBytes_length_le limits
    change self.currentBlock.length + _ < wordSize
    rw [empty, List.length_nil, Nat.zero_add]
    exact lt_of_le_of_lt size (by decide)
  have roomy : makeRoom external (entryBytes entry) (self.noted entry.key) =
      .ok () (self.noted entry.key) := by
    have first : ¬ (self.noted entry.key).currentBlockEntries > 0 := by
      change ¬ self.currentBlockEntries > 0
      rw [none]
      exact lt_irrefl 0
    rw [makeRoom_of_small small, if_neg fun full => first full.2]
  have blockRoom : (self.noted entry.key).currentBlockEntries + 1 < wordSize := by
    change self.currentBlockEntries + 1 < wordSize
    rw [none]
    decide
  rw [add, bind_of_ok ordered, bind_of_ok (noteKey_of_room indexable countable entry.key),
    bind_of_ok roomy, appendEntry_of_room blockRoom room]

/-- The filter of a new table with one entry. -/
private def emptyFilter : BloomFilter :=
  { bits := List.replicate 56 0, bitCount := 64, hashCount := 10, elementCount := 0 }

/-- The writer of a new zstd table. -/
private def zstdWriter : SSTableWriter :=
  initial { compression := .zstd } .spacious emptyFilter 0

/-- The writer of a new zstd table with one entry in hand. -/
private def zstdWriterWith (entry : Entry) : SSTableWriter :=
  (zstdWriter.noted entry.key).appended entry.key (entryBytes entry)

private theorem zstdWriter_add {entry : Entry} (limits : entry.WithinLimits) :
    add External.plain entry zstdWriter = .ok () (zstdWriterWith entry) :=
  add_of_empty rfl (by decide) (by decide) rfl rfl (by decide) limits

private theorem zstdWriterWith_holds (entry : Entry) :
    (zstdWriterWith entry).Holds External.plain { current := [entry] } := by
  have start : Adding External.plain zstdWriter zstdWriter [] :=
    adding_initial External.plain { compression := .zstd } .spacious rfl 0
  exact (start.holds.noted entry.key).append entry

/-- That writer once its block has gone to the file. -/
private def flushedWith (entry : Entry) : SSTableWriter :=
  (zstdWriterWith entry).flushedAs External.plain (blockBytes [entry])

private theorem flushedWith_bounded {entry : Entry} (limits : entry.WithinLimits) :
    (flushedWith entry).writer.written.length ≤ maxFileSize := by
  have size := entryBytes_length_le limits
  change ([] ++ _ ++ blockBytes [entry]).length ≤ maxFileSize
  rw [blockBytes_eq, bodyBytes, List.flatMap_singleton]
  simp only [List.length_append, LittleEndian.encode_length, List.length_nil]
  unfold maxKeySize maxValueSize at size
  unfold maxFileSize
  omega

private theorem zstdWriterWith_flush {entry : Entry} (limits : entry.WithinLimits) :
    flushCurrentBlock External.plain (zstdWriterWith entry) = .ok () (flushedWith entry) := by
  have holds := zstdWriterWith_holds entry
  have made : compressBlock External.plain .zstd 1 (blockData 1 (entryBytes entry)) =
      .ok (blockBytes [entry]) := by
    rw [blockBytes, bodyBytes, List.flatMap_singleton]
    rfl
  cases ran : flushCurrentBlock External.plain (zstdWriterWith entry) with
  | ok value after =>
      obtain ⟨compressed, squeezed, rfl⟩ := flushCurrentBlock_eq_ok
        (fun empty => entryBytes_ne_nil entry empty) ran
      cases made.symm.trans squeezed
      rfl
  | error fault after =>
      have refused := flushCurrentBlock_eq_error holds.placed rfl Output.spacious_bounded made
        (flushedWith_bounded limits) ran
      exact absurd refused.2.2 (Output.not_refuses_spacious le_rfl)

/-- A reader of that file as far as it is written. -/
private def readerOf (entry : Entry) : SSTableReader :=
  let reader := SSTableReader.fresh [] (flushedWith entry).writer.written true
  { reader with metadata := { reader.metadata with compression := .zstd } }

private theorem readerOf_follows {entry : Entry} (limits : entry.WithinLimits)
    (block : IndexEntry) : (readerOf entry).Follows (flushedWith entry) block where
  contents := List.prefix_rfl
  bounded := flushedWith_bounded limits
  compression := rfl
  uncached := rfl

private def blockOf (entry : Entry) : IndexEntry :=
  { key := entry.key, offset := 0, size := (blockBytes [entry]).length + 4 }

/-- A one-byte value in a zstd table. -/
private def smallEntry : Entry :=
  { key := [107], value := some [1], timestamp := 5, sequence := 1 }

private theorem smallEntry_withinLimits : smallEntry.WithinLimits :=
  ⟨by decide, fun value stored => by cases stored; decide⟩

theorem readBlock_flushed_iff_small :
    ∃ cached, SSTableReader.readBlock External.plain (blockOf smallEntry) (readerOf smallEntry) =
      .ok (blockBytes [smallEntry]) cached := by
  have indexed : (flushedWith smallEntry).index.getLast? = some (blockOf smallEntry) := rfl
  refine (readBlock_flushed_iff External.plain_lz4RoundTrips External.plain_zstdRoundTrips
    (zstdWriterWith_holds smallEntry) (List.cons_ne_nil _ _) (.inl le_rfl)
    (zstdWriterWith_flush smallEntry_withinLimits) indexed
    (readerOf_follows smallEntry_withinLimits _)).mpr ?_
  intro _ entry same
  cases same
  decide

/-- A value of 20000 bytes. -/
private def largeEntry : Entry :=
  { key := [107], value := some (List.replicate 20000 0), timestamp := 5, sequence := 1 }

private theorem largeEntry_withinLimits : largeEntry.WithinLimits := by
  refine ⟨by decide, fun value stored => ?_⟩
  cases stored
  rw [List.length_replicate]
  decide

private theorem largeEntry_length : (entryBytes largeEntry).length = 20026 := by
  have value : largeEntry.value.map (fun value => 4 + value.length) = some 20004 := by
    simp only [largeEntry, Option.map_some, List.length_replicate]
  rw [entryBytes_length, value]
  rfl

/-- A value of 20000 bytes, added to a new zstd table and flushed, is not read back. -/
theorem large_block_not_read_back :
    ¬ ∀ (entry : Entry) (self after : SSTableWriter) (block : IndexEntry)
        (reader : SSTableReader), entry.WithinLimits →
      add External.plain entry zstdWriter = .ok () self →
      flushCurrentBlock External.plain self = .ok () after →
      after.index.getLast? = some block → reader.Follows after block →
      ∃ cached, SSTableReader.readBlock External.plain block reader =
        .ok (blockBytes [entry]) cached := by
  intro readsBack
  have limits := largeEntry_withinLimits
  have indexed : (flushedWith largeEntry).index.getLast? = some (blockOf largeEntry) :=
    (zstdWriterWith_holds largeEntry).getLast?_index_flushedAs (List.cons_ne_nil _ _)
  have read := readsBack largeEntry _ _ _ _ limits (zstdWriter_add limits)
    (zstdWriterWith_flush limits) indexed (readerOf_follows limits _)
  have fits := (readBlock_flushed_iff_length External.plain_lz4RoundTrips
    External.plain_zstdRoundTrips (zstdWriterWith_holds largeEntry) (List.cons_ne_nil _ _)
    (zstdWriterWith_flush limits) indexed (readerOf_follows limits _)).mp read
  have small := fits.resolve_left (not_not.mpr rfl)
  have length : (blockBytes [largeEntry]).length = 20030 := by
    rw [blockBytes_eq, bodyBytes, List.flatMap_singleton, List.length_append,
      LittleEndian.encode_length, largeEntry_length]
  change (blockBytes [largeEntry]).length ≤ decompressionCapacity at small
  rw [length] at small
  revert small
  decide

end SSTableWriter

end JustDb

import JustDb.SSTable.Layout
import JustDb.Library.Newest

/-!
# Building a table

A run of `add` calls keeps the writer's state in step with the entries added so
far.  From this follow the bytes of every file whose build returned `Ok`, and the
ways in which a build can fail.
-/

namespace JustDb

open Stateful

/-- Ascending entries can be extended by an entry above the last of them. -/
theorem Ascending.append_singleton {entries : List Entry} (ascending : Ascending entries)
    {entry : Entry} (above : ∀ last, entries.getLast? = some last → last.key < entry.key) :
    Ascending (entries ++ [entry]) := by
  refine List.pairwise_append.mpr ⟨ascending, List.pairwise_singleton _ _, ?_⟩
  intro other member added same
  rw [List.mem_singleton.mp same]
  rcases List.eq_nil_or_concat entries with rfl | ⟨front, last, rfl⟩
  · cases member
  · rw [List.concat_eq_append] at above ascending member
    have top := above last List.getLast?_concat
    rcases List.mem_append.mp member with earlier | final
    · exact ((List.pairwise_append.mp ascending).2.2 other earlier last
        (List.mem_singleton_self last)).trans top
    · rw [List.mem_singleton.mp final]
      exact top

namespace SSTableWriter

variable {external : External}

/-- What no call on a writer changes. -/
def settings (self : SSTableWriter) : Output × CompressionType × Int × Timestamp :=
  (self.writer.output, self.compression, self.compressionLevel, self.createdAt)

/-- The state of a writer after the entries `done` have been added to `initial`. -/
structure Adding (external : External) (initial state : SSTableWriter) (done : List Entry) :
    Prop where
  holds : state.Holds external (Split.ofEntries done)
  ascending : Ascending done
  entryCount : state.entryCount = done.length
  minKey : state.minKey = done.head?.map Entry.key
  maxKey : state.maxKey = done.getLast?.map Entry.key
  bloomFilter : state.bloomFilter = { initial.bloomFilter with elementCount := done.length }
  settings : state.settings = initial.settings

theorem Adding.add {initial before after : SSTableWriter} {done : List Entry} {entry : Entry}
    (adding : Adding external initial before done)
    (ran : SSTableWriter.add external entry before = .ok () after) :
    Adding external initial after (done ++ [entry]) := by
  obtain ⟨⟨⟩, checked, ordered, ranNote⟩ := bind_eq_ok.mp ran
  obtain ⟨rfl, above⟩ := checkOrder_eq_ok ordered
  obtain ⟨⟨⟩, noted, noting, ranRoom⟩ := bind_eq_ok.mp ranNote
  cases noteKey_eq_ok noting
  obtain ⟨⟨⟩, roomy, making, ranAppend⟩ := bind_eq_ok.mp ranRoom
  cases appendEntry_eq_ok ranAppend
  have holds := (adding.holds.noted entry.key).add making
  obtain ⟨written, calls, position, index, block, count, rfl⟩ := makeRoom_frame making
  refine ⟨?_, ?_, ?_, ?_, ?_, ?_, adding.settings⟩
  · rwa [Split.ofEntries_append_singleton]
  · refine adding.ascending.append_singleton fun last final => above last.key ?_
    rw [adding.maxKey, final]
    rfl
  · change checked.entryCount + 1 = _
    rw [adding.entryCount, List.length_append, List.length_singleton]
  · change (if checked.minKey.isNone then some entry.key else checked.minKey) = _
    rw [adding.minKey]
    cases done <;> rfl
  · rw [List.getLast?_concat]
    rfl
  · change { checked.bloomFilter with elementCount := checked.bloomFilter.elementCount + 1 } = _
    rw [adding.bloomFilter, List.length_append, List.length_singleton]

/-! ## How a call can fail -/

theorem compressible {compression : CompressionType} (plain : compression ≠ .zstd) (level : Int)
    (data : Bytes) :
    ∃ compressed, compressBlock external compression level data = .ok compressed := by
  cases compression with
  | none => exact ⟨data, rfl⟩
  | lz4 => exact ⟨external.lz4Compress data, rfl⟩
  | zstd => exact absurd rfl plain

/-- The error of `add` for a key that is not above the ones before it. -/
def unsorted : Fault :=
  .error (.invalidOperation "keys must be added in sorted order")

theorem checkOrder_eq_error {key : Key} {self after : SSTableWriter} {fault : Fault}
    (ran : checkOrder key self = .error fault after) :
    fault = unsorted ∧ ∃ maxKey, self.maxKey = some maxKey ∧ key ≤ maxKey := by
  rw [checkOrder, bind_of_ok (get_apply self)] at ran
  cases largest : self.maxKey with
  | none =>
      rw [largest] at ran
      cases ran
  | some maxKey =>
      rw [largest] at ran
      dsimp only at ran
      split at ran
      next below =>
        cases ran
        exact ⟨rfl, maxKey, rfl, below⟩
      next => cases ran

theorem noteKey_of_room {self : SSTableWriter} (indexable : 0 < self.bloomFilter.bitCount)
    (room : self.bloomFilter.elementCount + 1 < wordSize) (key : Key) :
    noteKey external key self = .ok () (self.noted key) := by
  rw [noteKey, bind_of_ok (get_apply self),
    BloomFilter.add_of_room external indexable room key, bind_of_ok (lift_ok _ _), set_apply]
  rfl

theorem makeRoom_of_small {entryData : Bytes} {self : SSTableWriter}
    (small : self.currentBlock.length + entryData.length < wordSize) :
    makeRoom external entryData self =
      if self.currentBlock.length + entryData.length > blockSize ∧
          self.currentBlockEntries > 0 then
        flushCurrentBlock external self
      else .ok () self := by
  rw [makeRoom, bind_of_ok (get_apply self), checkedAdd, if_pos small, bind_of_ok (lift_ok _ _)]
  split <;> rfl

theorem makeRoom_eq_error {entryData : Bytes} {self after : SSTableWriter} {fault : Fault}
    (small : self.currentBlock.length + entryData.length < wordSize)
    (ran : makeRoom external entryData self = .error fault after) :
    (self.currentBlock.length + entryData.length > blockSize ∧ self.currentBlockEntries > 0) ∧
      flushCurrentBlock external self = .error fault after := by
  rw [makeRoom_of_small small] at ran
  split at ran
  next full => exact ⟨full, ran⟩
  next => cases ran

theorem appendEntry_of_room {self : SSTableWriter}
    (blockRoom : self.currentBlockEntries + 1 < wordSize) (room : self.entryCount + 1 < wordSize)
    (key : Key) (entryData : Bytes) :
    appendEntry key entryData self = .ok () (self.appended key entryData) := by
  have counted : (self.noteBlock key).currentBlockEntries = self.currentBlockEntries := by
    rw [noteBlock_eq]
  have total : (self.noteBlock key).entryCount = self.entryCount := by
    rw [noteBlock_eq]
  rw [appendEntry, bind_of_ok (modify_apply _ _), bind_of_ok (get_apply _), counted, total,
    checkedAdd, if_pos blockRoom, bind_of_ok (lift_ok _ _), checkedAdd, if_pos room,
    bind_of_ok (lift_ok _ _), set_apply, noteBlock_eq]
  rfl

/-- What lets every call on a writer succeed but for the file system and the order of
the keys. -/
structure Able (initial : SSTableWriter) : Prop where
  bounded : initial.writer.output.Bounded
  plain : initial.compression ≠ .zstd
  indexable : 0 < initial.bloomFilter.bitCount

theorem Adding.output {initial state : SSTableWriter} {done : List Entry}
    (adding : Adding external initial state done) :
    state.writer.output = initial.writer.output :=
  congrArg Prod.fst adding.settings

theorem Adding.compression {initial state : SSTableWriter} {done : List Entry}
    (adding : Adding external initial state done) : state.compression = initial.compression :=
  congrArg (fun settings => settings.2.1) adding.settings

theorem Adding.stored {initial state : SSTableWriter} {done : List Entry}
    (adding : Adding external initial state done) :
    state.stored external = initial.stored external := by
  have level : state.compressionLevel = initial.compressionLevel :=
    congrArg (fun settings => settings.2.2.1) adding.settings
  rw [SSTableWriter.stored, adding.compression, level]

/-- A flush fails only where the file system does. -/
theorem Holds.flush_eq_error {output : Output} {limit : Nat} {self after : SSTableWriter}
    {split : Split} {fault : Fault} (holds : self.Holds external split)
    (target : self.writer.output = output) (bounded : output.Bounded)
    (plain : self.compression ≠ .zstd)
    (fits : (split.blocks.flatMap (self.stored external)).length ≤ limit)
    (ran : flushCurrentBlock external self = .error fault after) :
    Refusal output limit fault after := by
  by_cases empty : split.current = []
  · rw [flushCurrentBlock_of_empty (holds.currentBlock_eq_nil.mpr empty)] at ran
    cases ran
  · obtain ⟨compressed, made⟩ : ∃ compressed, compressBlock external self.compression
        self.compressionLevel (blockData self.currentBlockEntries self.currentBlock) =
          .ok compressed := compressible plain _ _
    refine flushCurrentBlock_eq_error holds.placed target bounded made ?_ ran
    rw [(holds.flushedAs empty made).written]
    rwa [Split.blocks, if_neg empty] at fits

/-- The block in hand and one more entry can be addressed. -/
theorem Adding.currentBlock_room {initial state : SSTableWriter} {done : List Entry}
    {entry : Entry} (adding : Adding external initial state done)
    (limits : ∀ added ∈ done ++ [entry], added.WithinLimits) :
    state.currentBlock.length + (entryBytes entry).length < wordSize := by
  have of := Split.of_ofEntries done
  have held : ∀ added ∈ (Split.ofEntries done).current, added ∈ done ++ [entry] := by
    intro added member
    refine List.mem_append_left _ ?_
    rw [← of.flatten]
    exact List.mem_append_right _ member
  have size := of.currentFits.bodyBytes_le fun added member => limits added (held added member)
  have entrySize := entryBytes_length_le (limits entry (by simp))
  rw [adding.holds.currentBlock]
  unfold blockSize maxKeySize maxValueSize at size
  unfold maxKeySize maxValueSize at entrySize
  unfold wordSize UInt64.size
  omega

/-- The block in hand has no more entries than have been added. -/
theorem Holds.currentBlockEntries_le {state : SSTableWriter} {done : List Entry}
    (holds : state.Holds external (Split.ofEntries done)) :
    state.currentBlockEntries ≤ done.length := by
  have count := congrArg List.length (Split.of_ofEntries done).flatten
  rw [List.length_append] at count
  rw [holds.currentBlockEntries]
  omega

/-- Where a block is flushed to make room, all blocks so far are full. -/
theorem Holds.blocks_of_full {self : SSTableWriter} {split : Split} {entry : Entry}
    (holds : self.Holds external split)
    (full : self.currentBlock.length + (entryBytes entry).length > blockSize ∧
      self.currentBlockEntries > 0) : split.blocks = (split.add entry).flushed := by
  rw [holds.currentBlock, holds.currentBlockEntries, gt_iff_lt, gt_iff_lt,
    List.length_pos_iff] at full
  rw [Split.blocks, if_neg full.2, Split.add, if_pos full]

/-- A key is refused only where it breaks the order of the entries. -/
theorem Adding.checkOrder_eq_error {initial before after : SSTableWriter} {done : List Entry}
    {entry : Entry} {fault : Fault} (adding : Adding external initial before done)
    (ran : checkOrder entry.key before = .error fault after) :
    fault = unsorted ∧ ¬ Ascending (done ++ [entry]) := by
  obtain ⟨rfl, maxKey, largest, below⟩ := SSTableWriter.checkOrder_eq_error ran
  refine ⟨rfl, fun ascending => ?_⟩
  rw [adding.maxKey] at largest
  obtain ⟨last, final, rfl⟩ := Option.map_eq_some_iff.mp largest
  have above := (List.pairwise_append.mp ascending).2.2 last (List.mem_of_getLast? final) entry
    (List.mem_singleton_self entry)
  exact absurd above (not_lt.mpr below)

/-- Where the entries can be counted, an entry for which there is room is appended. -/
theorem Adding.appendEntry_of_room {initial before roomy : SSTableWriter} {done : List Entry}
    {entry : Entry} (adding : Adding external initial before done)
    (room : done.length + 1 < wordSize)
    (making : makeRoom external (entryBytes entry) (before.noted entry.key) = .ok () roomy) :
    appendEntry entry.key (entryBytes entry) roomy =
      .ok () (roomy.appended entry.key (entryBytes entry)) := by
  have appended := (adding.holds.noted entry.key).add making
  rw [← Split.ofEntries_append_singleton] at appended
  apply SSTableWriter.appendEntry_of_room
  · have count := appended.currentBlockEntries_le
    rw [List.length_append, List.length_singleton] at count
    exact lt_of_le_of_lt count room
  · obtain ⟨_, _, _, _, _, _, rfl⟩ := makeRoom_frame making
    change before.entryCount + 1 < wordSize
    rw [adding.entryCount]
    exact room

theorem Adding.add_eq_error {limit : Nat} {initial before after : SSTableWriter}
    {done : List Entry} {entry : Entry} {fault : Fault}
    (adding : Adding external initial before done) (able : Able initial)
    (room : done.length + 1 < wordSize) (limits : ∀ added ∈ done ++ [entry], added.WithinLimits)
    (fits : ((Split.ofEntries (done ++ [entry])).flushed.flatMap
      (initial.stored external)).length ≤ limit)
    (ran : SSTableWriter.add external entry before = .error fault after) :
    Refusal initial.writer.output limit fault after ∨
      fault = unsorted ∧ ¬ Ascending (done ++ [entry]) := by
  rcases bind_eq_error.mp ran with disordered | ⟨⟨⟩, checked, ordered, ranNote⟩
  · exact .inr (adding.checkOrder_eq_error disordered)
  obtain ⟨rfl, -⟩ := checkOrder_eq_ok ordered
  have indexable : 0 < checked.bloomFilter.bitCount := by
    rw [adding.bloomFilter]
    exact able.indexable
  have countable : checked.bloomFilter.elementCount + 1 < wordSize := by
    rw [adding.bloomFilter]
    exact room
  rw [bind_of_ok (noteKey_of_room indexable countable entry.key)] at ranNote
  have holds := adding.holds.noted entry.key
  rcases bind_eq_error.mp ranNote with failed | ⟨⟨⟩, roomy, making, ranAppend⟩
  · have small : (checked.noted entry.key).currentBlock.length + (entryBytes entry).length <
        wordSize := adding.currentBlock_room limits
    obtain ⟨full, flushing⟩ := makeRoom_eq_error small failed
    refine .inl (holds.flush_eq_error adding.output able.bounded ?_ ?_ flushing)
    · change checked.compression ≠ .zstd
      rw [adding.compression]
      exact able.plain
    · change ((Split.ofEntries done).blocks.flatMap (checked.stored external)).length ≤ limit
      rw [adding.stored, holds.blocks_of_full full]
      rwa [Split.ofEntries_append_singleton] at fits
  · rw [adding.appendEntry_of_room room making] at ranAppend
    cases ranAppend

end SSTableWriter

/-! ## The finished file -/

theorem footerData_length (entryCount dataSize indexSize bloomOffset bloomSize : Nat)
    (createdAt : Timestamp) (compression : CompressionType) :
    (footerData entryCount dataSize indexSize bloomOffset bloomSize createdAt
      compression).length = 57 := by
  simp [footerData, Serializer.writeU8, Serializer.writeU32, Serializer.writeU64,
    Serializer.finish]

/-- A footer, padded to its fixed size. -/
def paddedFooter (footer : Bytes) : Bytes :=
  footer ++ List.replicate (footerSize - footer.length) 0

/-- A table file: data blocks, bloom filter, index and footer. -/
def fileBytes (data bloom index : Bytes) (entryCount : Nat) (createdAt : Timestamp)
    (compression : CompressionType) : Bytes :=
  data ++ (bloom ++ (index ++ paddedFooter (footerData entryCount data.length index.length
    data.length bloom.length createdAt compression)))

namespace SSTableWriter

variable {external : External}

/-- The footer always fits its place, so writing it is one write. -/
theorem writeFooter_eq (dataSize indexSize bloomOffset bloomSize : Nat) (self : SSTableWriter) :
    writeFooter dataSize indexSize bloomOffset bloomSize self =
      onWriter (Sink.writeAll (paddedFooter (footerData self.entryCount dataSize indexSize
        bloomOffset bloomSize self.createdAt self.compression))) self := by
  rw [writeFooter, bind_of_ok (get_apply self), if_neg]
  · rfl
  · rw [footerData_length]
    decide

/-- The part of `finish` after the last block has been flushed. -/
theorem finish_of_flushed {self flushed : SSTableWriter}
    (ran : flushCurrentBlock external self = .ok () flushed) :
    finish external self =
      (do
        emit flushed.bloomFilter.toBytes
        emit (serializeIndex flushed.index)
        writeFooter flushed.position (serializeIndex flushed.index).length flushed.position
          flushed.bloomFilter.toBytes.length
        onWriter Sink.sync
        pure
          { entryCount := flushed.entryCount, dataSize := flushed.position,
            indexSize := (serializeIndex flushed.index).length, bloomOffset := flushed.position,
            bloomSize := flushed.bloomFilter.toBytes.length, minKey := flushed.minKey.getD [],
            maxKey := flushed.maxKey.getD [], compression := flushed.compression,
            createdAt := flushed.createdAt, version := sstableVersion } : Writing SStableMeta)
        flushed := by
  rw [finish, bind_of_ok ran, bind_of_ok (get_apply flushed)]

theorem onWriter_sync_eq_ok {self after : SSTableWriter}
    (ran : onWriter Sink.sync self = .ok () after) : after = self := by
  obtain ⟨writer, synced, rfl⟩ := onWriter_eq_ok.mp ran
  unfold Sink.sync at synced
  split at synced
  · cases synced
    rfl
  · cases synced

theorem onWriter_sync_eq_error {output : Output} {limit : Nat} {self after : SSTableWriter}
    {fault : Fault} (target : self.writer.output = output)
    (ran : onWriter Sink.sync self = .error fault after) : Refusal output limit fault after := by
  subst target
  unfold onWriter Sink.sync at ran
  split at ran
  next => cases ran
  next failed =>
    cases ran
    split at failed
    · cases failed
    next unsynced =>
      cases failed
      exact ⟨rfl, rfl, .inr (.inl (Bool.eq_false_iff.mpr unsynced))⟩

/-- The file that finishing a writer leaves. -/
def finishedFile (external : External) (self : SSTableWriter) (groups : List (List Entry)) :
    Bytes :=
  fileBytes (groups.flatMap (self.stored external)) self.bloomFilter.toBytes
    (serializeIndex (indexFrom (self.stored external) 0 groups)) self.entryCount
    self.createdAt self.compression

/-- What stands in the file of a finished table. -/
structure Written (external : External) (state after : SSTableWriter)
    (groups : List (List Entry)) : Prop where
  written : after.writer.written = state.finishedFile external groups
  addressable : (groups.flatMap (state.stored external)).length +
    state.bloomFilter.toBytes.length +
      (serializeIndex (indexFrom (state.stored external) 0 groups)).length < wordSize
  bounded : state.writer.output.Bounded → after.writer.written.length ≤ maxFileSize

/-- The metadata that finishing a writer returns. -/
def summary (external : External) (self : SSTableWriter) (groups : List (List Entry)) :
    SStableMeta where
  entryCount := self.entryCount
  dataSize := (groups.flatMap (self.stored external)).length
  indexSize := (serializeIndex (indexFrom (self.stored external) 0 groups)).length
  bloomOffset := (groups.flatMap (self.stored external)).length
  bloomSize := self.bloomFilter.toBytes.length
  minKey := self.minKey.getD []
  maxKey := self.maxKey.getD []
  compression := self.compression
  createdAt := self.createdAt
  version := sstableVersion

/-- The writer of a split once its last block has been flushed. -/
theorem Holds.flushed_eq {self flushed : SSTableWriter} {split : Split}
    (holds : self.Holds external split)
    (flushing : flushCurrentBlock external self = .ok () flushed) :
    ∃ calls currentBlock currentBlockEntries,
      flushed = { self with
        writer :=
          { self.writer with written := split.blocks.flatMap (self.stored external), calls }
        position := (split.blocks.flatMap (self.stored external)).length
        index := indexFrom (self.stored external) 0 split.blocks
        currentBlock, currentBlockEntries } := by
  have full := holds.finished flushing
  obtain ⟨written, calls, position, index, block, count, rfl⟩ := flushCurrentBlock_frame flushing
  have written_eq : written = split.blocks.flatMap (self.stored external) := full.written
  have index_eq : index = indexFrom (self.stored external) 0 split.blocks :=
    full.index.trans (List.append_nil _)
  have position_eq : position = written.length := full.placed
  subst written_eq index_eq position_eq
  exact ⟨calls, block, count, rfl⟩

/-- Finishing a writer that holds a split writes its file and returns its metadata. -/
theorem Holds.finish_result {self after : SSTableWriter} {split : Split} {metadata : SStableMeta}
    (holds : self.Holds external split) (ran : finish external self = .ok metadata after) :
    Written external self after split.blocks ∧ metadata = self.summary external split.blocks ∧
      after.index = indexFrom (self.stored external) 0 split.blocks ∧
        after.bloomFilter = self.bloomFilter ∧ after.stored external = self.stored external := by
  obtain ⟨⟨⟩, flushed, flushing, _⟩ := bind_eq_ok.mp ran
  rw [finish_of_flushed flushing] at ran
  obtain ⟨calls, block, count, rfl⟩ := holds.flushed_eq flushing
  obtain ⟨⟨⟩, _, bloomRan, ranIndex⟩ := bind_eq_ok.mp ran
  cases (emit_eq_ok bloomRan).2
  obtain ⟨⟨⟩, _, indexRan, ranFooter⟩ := bind_eq_ok.mp ranIndex
  obtain ⟨addressable, rfl⟩ := emit_eq_ok indexRan
  obtain ⟨⟨⟩, _, footerRan, ranSync⟩ := bind_eq_ok.mp ranFooter
  rw [writeFooter_eq] at footerRan
  obtain ⟨accepted, rfl⟩ := onWriter_writeAll_eq_ok.mp footerRan
  obtain ⟨⟨⟩, _, syncRan, done⟩ := bind_eq_ok.mp ranSync
  cases onWriter_sync_eq_ok syncRan
  cases done
  refine ⟨⟨?_, addressable, fun bounded => bounded _ _ accepted⟩, rfl, rfl, rfl, rfl⟩
  simp only [Sink.grown, emitted, finishedFile, fileBytes, List.append_assoc]

theorem Holds.finish_eq_ok {self after : SSTableWriter} {split : Split} {metadata : SStableMeta}
    (holds : self.Holds external split) (ran : finish external self = .ok metadata after) :
    Written external self after split.blocks :=
  (holds.finish_result ran).1

theorem Holds.finish_eq_error {output : Output} {limit : Nat} {self after : SSTableWriter}
    {split : Split} {fault : Fault} (holds : self.Holds external split)
    (target : self.writer.output = output) (bounded : output.Bounded)
    (plain : self.compression ≠ .zstd)
    (fits : (self.finishedFile external split.blocks).length ≤ limit)
    (ran : finish external self = .error fault after) : Refusal output limit fault after := by
  let data := split.blocks.flatMap (self.stored external)
  let index := serializeIndex (indexFrom (self.stored external) 0 split.blocks)
  let footer := paddedFooter (footerData self.entryCount data.length index.length data.length
    self.bloomFilter.toBytes.length self.createdAt self.compression)
  have sections : (((data ++ self.bloomFilter.toBytes) ++ index) ++ footer).length ≤ limit := by
    rw [List.append_assoc, List.append_assoc]
    exact fits
  have toIndex := (List.prefix_append _ footer).length_le.trans sections
  have toBloom := (List.prefix_append _ index).length_le.trans toIndex
  have toData := (List.prefix_append data _).length_le.trans toBloom
  rcases bind_eq_error.mp ran with failed | ⟨⟨⟩, flushed, flushing, _⟩
  · exact holds.flush_eq_error target bounded plain toData failed
  have full := holds.finished flushing
  rw [finish_of_flushed flushing] at ran
  obtain ⟨calls, block, count, rfl⟩ := holds.flushed_eq flushing
  rcases bind_eq_error.mp ran with failed | ⟨⟨⟩, _, bloomRan, ranIndex⟩
  · exact emit_eq_error full.placed target bounded toBloom failed
  cases (emit_eq_ok bloomRan).2
  rcases bind_eq_error.mp ranIndex with failed | ⟨⟨⟩, _, indexRan, ranFooter⟩
  · exact emit_eq_error (full.placed.emitted _) target bounded toIndex failed
  cases (emit_eq_ok indexRan).2
  rcases bind_eq_error.mp ranFooter with failed | ⟨⟨⟩, _, footerRan, ranSync⟩
  · rw [writeFooter_eq] at failed
    refine onWriter_writeAll_eq_error ?_ ?_ failed
    · exact target
    · exact sections
  rw [writeFooter_eq] at footerRan
  cases (onWriter_writeAll_eq_ok.mp footerRan).2
  rcases bind_eq_error.mp ranSync with failed | ⟨⟨⟩, _, _, done⟩
  · refine onWriter_sync_eq_error ?_ failed
    exact target
  · cases done

/-- A successful run of `add` calls. -/
theorem Adding.addAll {start state : SSTableWriter} {entries : List Entry}
    (adding : Adding external start start [])
    (ran : entries.forM (SSTableWriter.add external) start = .ok ⟨⟩ state) :
    Adding external start state entries := by
  have preserved : ∀ done entry before after, Adding external start before done →
      SSTableWriter.add external entry before = .ok ⟨⟩ after →
      Adding external start after (done ++ [entry]) :=
    fun done entry before after held stepped => held.add stepped
  exact forM_ok_induction preserved adding ran

/-- The file of a table, from the writer that is about to get its entries. -/
def fileFor (external : External) (start : SSTableWriter) (entries : List Entry) : Bytes :=
  fileBytes ((splitBlocks entries).flatMap (start.stored external))
    { start.bloomFilter with elementCount := entries.length }.toBytes
    (serializeIndex (indexFrom (start.stored external) 0 (splitBlocks entries))) entries.length
    start.createdAt start.compression

theorem Adding.finishedFile_eq {start state : SSTableWriter} {entries : List Entry}
    (adding : Adding external start state entries) :
    state.finishedFile external (splitBlocks entries) = start.fileFor external entries := by
  have created : state.createdAt = start.createdAt :=
    congrArg (fun settings => settings.2.2.2) adding.settings
  rw [finishedFile, adding.stored, adding.bloomFilter, adding.entryCount, created,
    adding.compression]
  rfl

/-- Adding entries and finishing fails only where the file system does, or at a key that
is not above the ones before it. -/
theorem Adding.addAll_eq_error {start after : SSTableWriter} {entries : List Entry}
    {fault : Fault} (adding : Adding external start start []) (able : Able start)
    (room : entries.length < wordSize) (limits : ∀ entry ∈ entries, entry.WithinLimits)
    (ran : SSTableWriter.addAll external entries start = .error fault after) :
    Refusal start.writer.output (start.fileFor external entries).length fault after ∨
      fault = unsorted ∧ ¬ Ascending entries := by
  rcases bind_eq_error.mp ran with failed | ⟨⟨⟩, filled, succeeded, finishing⟩
  · obtain ⟨done, entry, rest, before, split, succeeded, stopped⟩ := forM_eq_error failed
    have held := adding.addAll succeeded
    have prefixed : entries = (done ++ [entry]) ++ rest := by
      rw [split, List.append_assoc, List.singleton_append]
    subst prefixed
    have fits : ((Split.ofEntries (done ++ [entry])).flushed.flatMap
        (start.stored external)).length ≤
        (start.fileFor external ((done ++ [entry]) ++ rest)).length := by
      obtain ⟨later, blocks⟩ := flushed_prefix_splitBlocks (done ++ [entry]) rest
      rw [fileFor, fileBytes, ← blocks, List.flatMap_append, List.append_assoc]
      exact (List.prefix_append _ _).length_le
    have count : done.length + 1 < wordSize := by
      simp only [List.length_append, List.length_singleton] at room
      omega
    refine (held.add_eq_error able count (fun added member => limits added
      (List.mem_append_left _ member)) fits stopped).imp_right fun disordered => ?_
    exact ⟨disordered.1, fun ascending =>
      disordered.2 (List.pairwise_append.mp ascending).1⟩
  · have held := adding.addAll succeeded
    refine .inl (held.holds.finish_eq_error held.output able.bounded ?_ ?_ finishing)
    · rw [held.compression]
      exact able.plain
    · rw [← held.finishedFile_eq]
      rfl

/-- A writer on a new file. -/
def initial (builder : SSTableBuilder) (output : Output) (bloomFilter : BloomFilter)
    (createdAt : Timestamp) : SSTableWriter where
  writer := { output }
  position := 0
  currentBlock := []
  currentBlockEntries := 0
  index := []
  bloomFilter
  compression := builder.compression
  compressionLevel := builder.compressionLevel
  entryCount := 0
  minKey := none
  maxKey := none
  createdAt

theorem adding_initial (external : External) (builder : SSTableBuilder) (output : Output)
    {bloomFilter : BloomFilter} (unused : bloomFilter.elementCount = 0) (createdAt : Timestamp) :
    Adding external (initial builder output bloomFilter createdAt)
      (initial builder output bloomFilter createdAt) [] where
  holds := ⟨rfl, rfl, rfl, rfl, rfl⟩
  ascending := List.Pairwise.nil
  entryCount := rfl
  minKey := rfl
  maxKey := rfl
  bloomFilter := by
    change bloomFilter = { bloomFilter with elementCount := 0 }
    rw [← unused]
  settings := rfl

end SSTableWriter

/-! ## A whole build -/

namespace SSTableBuilder

variable {external : External}

/-- The blocks of a builder's tables, as its writers store them. -/
abbrev stored (external : External) (self : SSTableBuilder) : List Entry → Bytes :=
  storedBlock external self.compression self.compressionLevel

/-- The index of a table with given entries. -/
def indexOf (external : External) (self : SSTableBuilder) (entries : List Entry) :
    List IndexEntry :=
  indexFrom (self.stored external) 0 (splitBlocks entries)

/-- The file of a table with given entries. -/
def fileOf (external : External) (self : SSTableBuilder) (bloomFilter : BloomFilter)
    (createdAt : Timestamp) (entries : List Entry) : Bytes :=
  fileBytes ((splitBlocks entries).flatMap (self.stored external))
    { bloomFilter with elementCount := entries.length }.toBytes
    (serializeIndex (self.indexOf external entries)) entries.length createdAt self.compression

/-- The outcome of a build that returned `Ok`. -/
structure Built (external : External) (builder : SSTableBuilder) (createdAt : Timestamp)
    (entries : List Entry) (sink : Sink) (bloomFilter : BloomFilter) : Prop where
  made : BloomFilter.new external entries.length builder.bloomFalsePositiveRate = .ok bloomFilter
  ascending : Ascending entries
  written : sink.written = builder.fileOf external bloomFilter createdAt entries
  addressable : ((splitBlocks entries).flatMap (builder.stored external)).length +
    { bloomFilter with elementCount := entries.length }.toBytes.length +
      (serializeIndex (builder.indexOf external entries)).length < wordSize

theorem new_eq_ok {builder : SSTableBuilder} {output : Output} {createdAt : Timestamp}
    {count : Nat} {writer : SSTableWriter} {after : Sink}
    (ran : SSTableWriter.new external count builder.compression builder.compressionLevel
      builder.bloomFalsePositiveRate createdAt { output } = .ok writer after) :
    ∃ bloomFilter, BloomFilter.new external count builder.bloomFalsePositiveRate =
      .ok bloomFilter ∧ writer = SSTableWriter.initial builder output bloomFilter createdAt := by
  obtain ⟨⟨⟩, opened, creating, ranBloom⟩ := bind_eq_ok.mp ran
  unfold Sink.create at creating
  split at creating
  · cases creating
    rw [bind_of_ok (get_apply _)] at ranBloom
    obtain ⟨bloomFilter, _, making, done⟩ := bind_eq_ok.mp ranBloom
    obtain ⟨made, rfl⟩ := lift_eq_ok.mp making
    cases done
    exact ⟨bloomFilter, made, rfl⟩
  · cases creating

/-- A file that opens, with a filter that can be made, gets a writer. -/
theorem new_of_made {builder : SSTableBuilder} {output : Output} {count : Nat}
    {bloomFilter : BloomFilter} (opens : output.opens = true)
    (made : BloomFilter.new external count builder.bloomFalsePositiveRate = .ok bloomFilter)
    (createdAt : Timestamp) :
    SSTableWriter.new external count builder.compression builder.compressionLevel
      builder.bloomFalsePositiveRate createdAt { output } =
      .ok (SSTableWriter.initial builder output bloomFilter createdAt) { output } := by
  have created : Sink.create { output } = .ok () { output } := by
    rw [Sink.create, if_pos opens]
  rw [SSTableWriter.new, bind_of_ok created, bind_of_ok (get_apply _), made,
    bind_of_ok (lift_ok _ _)]
  rfl

theorem consume_eq_ok {α : Type} {writer : SSTableWriter} {action : SSTableWriter.Writing α}
    {value : α} {sink after : Sink} (ran : writer.consume action sink = .ok value after) :
    ∃ reached, action writer = .ok value reached ∧ after = reached.writer := by
  unfold SSTableWriter.consume at ran
  split at ran
  next value reached acted =>
    cases ran
    exact ⟨reached, acted, rfl⟩
  next => cases ran

theorem consume_eq_error {α : Type} {writer : SSTableWriter} {action : SSTableWriter.Writing α}
    {fault : Fault} {sink after : Sink} (ran : writer.consume action sink = .error fault after) :
    ∃ reached, action writer = .error fault reached ∧ after = reached.writer := by
  unfold SSTableWriter.consume at ran
  split at ran
  next => cases ran
  next fault reached failed =>
    cases ran
    exact ⟨reached, failed, rfl⟩

/-- A build that returns `Ok` leaves the file of its entries. -/
theorem build_eq_ok {builder : SSTableBuilder} {output : Output} {createdAt : Timestamp}
    {entries : List Entry} {metadata : SStableMeta} {after : Sink}
    (ran : builder.build external createdAt entries { output } = .ok metadata after) :
    ∃ bloomFilter, Built external builder createdAt entries after bloomFilter ∧
      (output.Bounded → after.written.length ≤ maxFileSize) := by
  obtain ⟨writer, created, creating, consuming⟩ := bind_eq_ok.mp ran
  obtain ⟨bloomFilter, made, rfl⟩ := new_eq_ok creating
  obtain ⟨finished, added, rfl⟩ := consume_eq_ok consuming
  obtain ⟨⟨⟩, filled, adding, finishing⟩ := bind_eq_ok.mp added
  have held := (SSTableWriter.adding_initial external builder output
    (BloomFilter.elementCount_of_new external made) createdAt).addAll adding
  obtain ⟨written, addressable, bounded⟩ := held.holds.finish_eq_ok finishing
  rw [held.output] at bounded
  rw [held.stored, held.bloomFilter] at addressable
  exact ⟨bloomFilter, ⟨made, held.ascending, written.trans held.finishedFile_eq, addressable⟩,
    bounded⟩

/-- Building from entries within the engine's limits fails only where the file system
refuses a file no larger than the table, or at a key that is not above the ones before
it. -/
theorem build_eq_error {builder : SSTableBuilder} {output : Output} {createdAt : Timestamp}
    {entries : List Entry} {bloomFilter : BloomFilter} {fault : Fault} {after : Sink}
    (bounded : output.Bounded) (plain : builder.compression ≠ .zstd)
    (made : BloomFilter.new external entries.length builder.bloomFalsePositiveRate =
      .ok bloomFilter)
    (limits : ∀ entry ∈ entries, entry.WithinLimits) (room : entries.length < wordSize)
    (ran : builder.build external createdAt entries { output } = .error fault after) :
    (fault = .error .io ∧ after.refused = true ∧
      output.Refuses (builder.fileOf external bloomFilter createdAt entries).length) ∨
      fault = SSTableWriter.unsorted ∧ ¬ Ascending entries := by
  by_cases opens : output.opens = true
  · rw [build, bind_of_ok (new_of_made opens made createdAt)] at ran
    obtain ⟨failed, failing, rfl⟩ := consume_eq_error ran
    have start := SSTableWriter.adding_initial external builder output
      (BloomFilter.elementCount_of_new external made) createdAt
    exact start.addAll_eq_error
      ⟨bounded, plain, (BloomFilter.blank_of_new external made).indexable⟩ room limits failing
  · have refused : Sink.create { output } = .error (.error .io) { output, refused := true } := by
      rw [Sink.create, if_neg opens]
    rw [build, SSTableWriter.new, bind_of_error (bind_of_error refused)] at ran
    cases ran
    exact .inl ⟨rfl, rfl, .inl (Bool.eq_false_iff.mpr opens)⟩

/-- A build succeeds on a file system that has room for the table. -/
theorem build_succeeds {builder : SSTableBuilder} {output : Output} {createdAt : Timestamp}
    {entries : List Entry} {bloomFilter : BloomFilter} (bounded : output.Bounded)
    (plain : builder.compression ≠ .zstd)
    (made : BloomFilter.new external entries.length builder.bloomFalsePositiveRate =
      .ok bloomFilter)
    (limits : ∀ entry ∈ entries, entry.WithinLimits) (room : entries.length < wordSize)
    (ascending : Ascending entries)
    (willing : ¬ output.Refuses (builder.fileOf external bloomFilter createdAt entries).length) :
    ∃ metadata after, builder.build external createdAt entries { output } = .ok metadata after := by
  cases ran : builder.build external createdAt entries { output } with
  | ok metadata after => exact ⟨metadata, after, rfl⟩
  | error fault after =>
      rcases build_eq_error bounded plain made limits room ran with refused | disordered
      · exact absurd refused.2.2 willing
      · exact absurd ascending disordered.2

/-- Entries in key order are the entries that were given. -/
theorem sortedByKey_perm (entries : List Entry) : (sortedByKey entries).Perm entries :=
  List.perm_insertionSort _ _

/-- Sorting leaves no two entries of one key exactly where there were none. -/
theorem ascending_sortedByKey_iff {entries : List Entry} :
    Ascending (sortedByKey entries) ↔
      entries.Pairwise fun left right => left.key ≠ right.key := by
  constructor
  · intro ascending
    have apart : (sortedByKey entries).Pairwise fun left right => left.key ≠ right.key :=
      ascending.imp fun below => below.ne
    exact apart.perm (sortedByKey_perm entries) fun different => different.symm
  · exact Newest.pairwise_lt_insertionSort

end SSTableBuilder

end JustDb

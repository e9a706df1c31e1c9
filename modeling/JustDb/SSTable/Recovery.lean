import JustDb.SSTable.Build

/-!
# Recovering a table from its bytes

`load_metadata` and `load_index` on the file of a finished table: the footer comes
back field by field, and the index as far as its 32-bit count reaches.
-/

namespace JustDb

open Stateful Parsing Deserializer

/-! ## The footer -/

theorem footerData_eq (entryCount dataSize indexSize bloomOffset bloomSize : Nat)
    (createdAt : Timestamp) (compression : CompressionType) :
    footerData entryCount dataSize indexSize bloomOffset bloomSize createdAt compression =
      LittleEndian.encode 8 entryCount.toUInt64.toNat ++
      (LittleEndian.encode 8 dataSize.toUInt64.toNat ++
      (LittleEndian.encode 8 indexSize.toUInt64.toNat ++
      (LittleEndian.encode 8 bloomOffset.toUInt64.toNat ++
      (LittleEndian.encode 8 bloomSize.toUInt64.toNat ++
      (LittleEndian.encode 8 createdAt.toNat ++
      ([compressionByte compression] ++
      (LittleEndian.encode 4 sstableVersion.toNat ++
      LittleEndian.encode 4 sstableMagic.toNat))))))) := by
  simp [footerData, Serializer.writeU8, Serializer.writeU32, Serializer.writeU64,
    Serializer.finish]

theorem decodes_readCompression (compression : CompressionType) :
    Decodes cursor readCompression [compressionByte compression] compression := by
  cases compression with
  | none => exact (decodes_readU8 0).map (.pure _)
  | lz4 => exact (decodes_readU8 1).map (.pure _)
  | zstd => exact (decodes_readU8 2).map (.pure _)

/-- The metadata that a footer gives back: every number is a `u64`. -/
def footerMeta (entryCount dataSize indexSize bloomOffset bloomSize : Nat)
    (createdAt : Timestamp) (compression : CompressionType) : SStableMeta where
  entryCount := entryCount.toUInt64.toNat
  dataSize := dataSize.toUInt64.toNat
  indexSize := indexSize.toUInt64.toNat
  bloomOffset := bloomOffset.toUInt64.toNat
  bloomSize := bloomSize.toUInt64.toNat
  minKey := []
  maxKey := []
  compression
  createdAt
  version := sstableVersion

theorem decodes_readFooter (entryCount dataSize indexSize bloomOffset bloomSize : Nat)
    (createdAt : Timestamp) (compression : CompressionType) :
    Decodes cursor readFooter
      (footerData entryCount dataSize indexSize bloomOffset bloomSize createdAt compression)
      (footerMeta entryCount dataSize indexSize bloomOffset bloomSize createdAt compression) := by
  rw [footerData_eq]
  exact (decodes_readU64 _).bind ((decodes_readU64 _).bind ((decodes_readU64 _).bind
    ((decodes_readU64 _).bind ((decodes_readU64 _).bind ((decodes_readU64 _).bind
      ((decodes_readCompression compression).bind ((decodes_readU32 _).bind
        ((decodes_readU32 _).map (.pure _)))))))))

/-- Reading a padded footer gives its fields back. -/
theorem decodeFrom_paddedFooter (entryCount dataSize indexSize bloomOffset bloomSize : Nat)
    (createdAt : Timestamp) (compression : CompressionType) :
    decodeFrom (paddedFooter (footerData entryCount dataSize indexSize bloomOffset bloomSize
      createdAt compression)) readFooter =
      .ok (footerMeta entryCount dataSize indexSize bloomOffset bloomSize createdAt
        compression) := by
  refine decodeFrom_of_returns (decodes_readFooter _ _ _ _ _ _ _).returns ?_
  rw [List.length_append, footerData_length, List.length_replicate]
  decide

theorem paddedFooter_length (entryCount dataSize indexSize bloomOffset bloomSize : Nat)
    (createdAt : Timestamp) (compression : CompressionType) :
    (paddedFooter (footerData entryCount dataSize indexSize bloomOffset bloomSize createdAt
      compression)).length = footerSize := by
  rw [paddedFooter, List.length_append, List.length_replicate, footerData_length]
  rfl

/-! ## The index -/

def indexEntryBytes (entry : IndexEntry) : Bytes :=
  keyBytes entry.key ++ (LittleEndian.encode 8 entry.offset.toUInt64.toNat ++
    LittleEndian.encode 8 entry.size.toUInt64.toNat)

theorem serializeIndex_eq (index : List IndexEntry) :
    serializeIndex index =
      LittleEndian.encode 4 index.length.toUInt32.toNat ++ index.flatMap indexEntryBytes := by
  have entries : ∀ (serializer : Serializer) (index : List IndexEntry),
      (index.foldl serializeIndexEntry serializer).buffer =
        serializer.buffer ++ index.flatMap indexEntryBytes := by
    intro serializer index
    induction index generalizing serializer with
    | nil => simp
    | cons entry index ih =>
        rw [List.foldl_cons, ih]
        simp [serializeIndexEntry, indexEntryBytes, keyBytes, Serializer.writeU32,
          Serializer.writeU64, Serializer.writeBytes]
  rw [serializeIndex, Serializer.finish, entries]
  simp [Serializer.writeU32]

/-- An index entry whose numbers fit their fields. -/
structure IndexEntry.Encodable (entry : IndexEntry) : Prop where
  key : entry.key.length < u32Size
  offset : entry.offset < wordSize
  size : entry.size < wordSize

theorem toUInt64_toNat {number : Nat} (small : number < wordSize) :
    number.toUInt64.toNat = number :=
  Nat.mod_eq_of_lt small

theorem decodes_readIndexEntry {entry : IndexEntry} (encodable : entry.Encodable) :
    Decodes cursor readIndexEntry (indexEntryBytes entry) entry := by
  refine (decodes_readKey encodable.key).bind ((decodes_readU64 entry.offset.toUInt64).bind
    ((decodes_readU64 entry.size.toUInt64).map ?_))
  rw [toUInt64_toNat encodable.offset, toUInt64_toNat encodable.size]
  exact .pure entry

/-- The reader gets back as many index entries as the 32-bit count says. -/
theorem decodeFrom_serializeIndex {index : List IndexEntry}
    (encodable : ∀ entry ∈ index, entry.Encodable)
    (addressable : (serializeIndex index).length < wordSize) :
    decodeFrom (serializeIndex index) readIndex = .ok (index.take (index.length % u32Size)) := by
  have counted : (index.take (index.length % u32Size)).length = index.length.toUInt32.toNat := by
    rw [List.length_take]
    exact Nat.min_eq_left (Nat.mod_le _ _)
  have entries : Decodes cursor (repeated readIndexEntry index.length.toUInt32.toNat)
      ((index.take (index.length % u32Size)).flatMap indexEntryBytes)
      (index.take (index.length % u32Size)) := by
    rw [← counted]
    exact Decodes.repeated fun entry member =>
      decodes_readIndexEntry (encodable entry (List.mem_of_mem_take member))
  have whole : Decodes cursor readIndex
      (LittleEndian.encode 4 index.length.toUInt32.toNat ++
        (index.take (index.length % u32Size)).flatMap indexEntryBytes)
      (index.take (index.length % u32Size)) :=
    (decodes_readU32 index.length.toUInt32).bind entries
  have bytes : serializeIndex index =
      (LittleEndian.encode 4 index.length.toUInt32.toNat ++
        (index.take (index.length % u32Size)).flatMap indexEntryBytes) ++
        (index.drop (index.length % u32Size)).flatMap indexEntryBytes := by
    rw [serializeIndex_eq, List.append_assoc, ← List.flatMap_append, List.take_append_drop]
  rw [bytes] at addressable ⊢
  exact decodeFrom_of_returns whole.returns addressable

/-! ## Reads at an offset -/

namespace SSTableReader

/-- A read that returns returns the bytes at its offset. -/
theorem readAt_eq_ok {self : SSTableReader} {offset size : Nat} {bytes : Bytes}
    (ran : self.readAt offset size = .ok bytes) :
    bytes = (self.contents.drop offset).take size := by
  unfold readAt at ran
  split at ran
  · obtain ⟨stop, _, sliced⟩ := Result.bind_eq_ok.mp ran
    split at sliced <;> cases sliced
    rfl
  · split at ran
    · cases ran
    · split at ran
      · cases ran
      · split at ran <;> cases ran
        rfl

/-- Within a file that a file system can hold, a read returns. -/
theorem readAt_of_le {self : SSTableReader} {offset size : Nat}
    (bounded : self.contents.length ≤ maxFileSize) (inside : offset + size ≤ self.contents.length) :
    self.readAt offset size = .ok ((self.contents.drop offset).take size) := by
  have addressable : offset + size < wordSize := by
    unfold maxFileSize at bounded
    unfold wordSize UInt64.size
    omega
  unfold readAt
  split
  · rw [checkedAdd, if_pos addressable, Result.ok_bind, if_neg (by omega)]
  · rw [if_neg (by omega), if_neg (by omega), if_neg (by omega)]

/-- A read of a section of the file returns the section. -/
theorem readAt_section {self : SSTableReader} {before wanted after : Bytes}
    (contents : self.contents = before ++ (wanted ++ after))
    (bounded : self.contents.length ≤ maxFileSize) :
    self.readAt before.length wanted.length = .ok wanted := by
  rw [readAt_of_le bounded (by rw [contents]; simp only [List.length_append]; omega), contents,
    List.drop_left, List.take_left]

/-! ## Recovery from a finished file -/

section Recovery

variable {data bloom : Bytes} {index : List IndexEntry} {entryCount : Nat}
  {createdAt : Timestamp} {compression : CompressionType}

/-- The last bytes of a table file are its footer. -/
theorem footer_slice {file : Bytes}
    (finished : file = fileBytes data bloom (serializeIndex index) entryCount createdAt
      compression) :
    footerSize ≤ file.length ∧
      (file.drop (file.length - footerSize)).take footerSize =
        paddedFooter (footerData entryCount data.length (serializeIndex index).length data.length
          bloom.length createdAt compression) := by
  have footer := paddedFooter_length entryCount data.length (serializeIndex index).length
    data.length bloom.length createdAt compression
  have front : file = (data ++ (bloom ++ serializeIndex index)) ++
      paddedFooter (footerData entryCount data.length (serializeIndex index).length data.length
        bloom.length createdAt compression) := by
    rw [finished, fileBytes, List.append_assoc, List.append_assoc]
  have length : file.length - footerSize = (data ++ (bloom ++ serializeIndex index)).length := by
    rw [front, List.length_append, footer, Nat.add_sub_cancel]
  constructor
  · rw [front, List.length_append, footer]
    exact Nat.le_add_left _ _
  · rw [length, front, List.drop_left, ← footer, List.take_length]

/-- The metadata that a reader takes from the footer of a finished file. -/
def describedBy (self : SSTableReader) (data bloom : Bytes) (index : List IndexEntry)
    (entryCount : Nat) (createdAt : Timestamp) (compression : CompressionType) : SSTableReader :=
  { self with
    metadata :=
      { footerMeta entryCount data.length (serializeIndex index).length data.length bloom.length
          createdAt compression with
        minKey := self.metadata.minKey
        maxKey := self.metadata.maxKey } }

theorem loadMetadata_eq_ok {self described : SSTableReader}
    (finished : self.contents = fileBytes data bloom (serializeIndex index) entryCount createdAt
      compression) (ran : self.loadMetadata = .ok described) :
    described = self.describedBy data bloom index entryCount createdAt compression := by
  obtain ⟨long, slice⟩ := footer_slice finished
  rw [loadMetadata, if_neg (not_lt.mpr long)] at ran
  obtain ⟨footer, read, parsed⟩ := Result.bind_eq_ok.mp ran
  rw [readAt_eq_ok read, slice, decodeFrom_paddedFooter] at parsed
  cases parsed
  rfl

theorem loadMetadata_of_bounded {self : SSTableReader}
    (finished : self.contents = fileBytes data bloom (serializeIndex index) entryCount createdAt
      compression) (bounded : self.contents.length ≤ maxFileSize) :
    self.loadMetadata =
      .ok (self.describedBy data bloom index entryCount createdAt compression) := by
  obtain ⟨long, slice⟩ := footer_slice finished
  rw [loadMetadata, if_neg (not_lt.mpr long), readAt_of_le bounded (by omega), slice,
    Result.ok_bind, decodeFrom_paddedFooter]
  rfl

/-- A file opens only if its bloom filter section can be read back. -/
theorem openFile_eq_ok {path : FileName} {file : Bytes} {mapped : Bool} {reader : SSTableReader}
    (finished : file = fileBytes data bloom (serializeIndex index) entryCount createdAt
      compression)
    (addressable : data.length + bloom.length < wordSize) (nonempty : bloom ≠ [])
    (ran : openFile path file mapped = .ok reader) :
    ∃ filter, BloomFilter.fromBytes bloom = .ok filter := by
  obtain ⟨recovered, recovering, loading⟩ := Result.bind_eq_ok.mp ran
  obtain ⟨described, describing, indexing⟩ := Result.bind_eq_ok.mp recovering
  have described_eq : described = (fresh path file mapped).describedBy data bloom index
      entryCount createdAt compression := loadMetadata_eq_ok finished describing
  obtain ⟨indexOffset, _, rest⟩ := Result.bind_eq_ok.mp indexing
  obtain ⟨indexData, _, rest⟩ := Result.bind_eq_ok.mp rest
  obtain ⟨entries, _, rest⟩ := Result.bind_eq_ok.mp rest
  cases rest
  have offset : described.metadata.bloomOffset = data.length := by
    rw [described_eq]
    exact toUInt64_toNat (by omega)
  have size : described.metadata.bloomSize = bloom.length := by
    rw [described_eq]
    exact toUInt64_toNat (by omega)
  have contents : described.contents = data ++ (bloom ++ (serializeIndex index ++ paddedFooter
      (footerData entryCount data.length (serializeIndex index).length data.length bloom.length
        createdAt compression))) := by
    rw [described_eq]
    exact finished
  rw [loadBloomFilter, offset, size, if_neg (by simpa using nonempty)] at loading
  obtain ⟨bytes, read, parsed⟩ := Result.bind_eq_ok.mp loading
  obtain ⟨filter, made, _⟩ := Result.bind_eq_ok.mp parsed
  have slice := readAt_eq_ok read
  rw [show ({ described with
    index := entries
    metadata := _ } : SSTableReader).contents = described.contents from rfl, contents,
    List.drop_left, List.take_left] at slice
  exact ⟨filter, by rw [← slice]; exact made⟩

/-- The key range that a reader recovered from a finished file takes from its index. -/
theorem recover_eq_ok {path : FileName} {file : Bytes} {mapped : Bool} {reader : SSTableReader}
    (finished : file = fileBytes data bloom (serializeIndex index) entryCount createdAt
      compression)
    (addressable : data.length + bloom.length + (serializeIndex index).length < wordSize)
    (encodable : ∀ entry ∈ index, entry.Encodable)
    (ran : recover path file mapped = .ok reader) :
    reader.metadata.minKey =
        (((index.take (index.length % u32Size)).map IndexEntry.key).head?).getD [] ∧
      reader.metadata.maxKey =
        (((index.take (index.length % u32Size)).map IndexEntry.key).getLast?).getD [] := by
  obtain ⟨described, describing, indexing⟩ := Result.bind_eq_ok.mp ran
  have described_eq : described = (fresh path file mapped).describedBy data bloom index
      entryCount createdAt compression := loadMetadata_eq_ok finished describing
  have bloomOffset : described.metadata.bloomOffset = data.length := by
    rw [described_eq]
    exact toUInt64_toNat (by omega)
  have bloomSize : described.metadata.bloomSize = bloom.length := by
    rw [described_eq]
    exact toUInt64_toNat (by omega)
  have indexSize : described.metadata.indexSize = (serializeIndex index).length := by
    rw [described_eq]
    exact toUInt64_toNat (by omega)
  have contents : described.contents = (data ++ bloom) ++ (serializeIndex index ++ paddedFooter
      (footerData entryCount data.length (serializeIndex index).length data.length bloom.length
        createdAt compression)) := by
    rw [described_eq, List.append_assoc]
    exact finished
  obtain ⟨indexOffset, sum, rest⟩ := Result.bind_eq_ok.mp indexing
  obtain ⟨indexData, read, rest⟩ := Result.bind_eq_ok.mp rest
  obtain ⟨entries, parsed, rest⟩ := Result.bind_eq_ok.mp rest
  cases rest
  have offset : indexOffset = (data ++ bloom).length := by
    rw [← (checkedAdd_eq_ok.mp sum).2, bloomOffset, bloomSize, List.length_append]
  have slice := readAt_eq_ok read
  rw [contents, offset, List.drop_left, indexSize, List.take_left] at slice
  rw [slice, decodeFrom_serializeIndex encodable (by omega)] at parsed
  cases parsed
  rw [described_eq, List.head?_map, List.getLast?_map]
  exact ⟨rfl, rfl⟩

/-- The reader that `load_metadata` and `load_index` recover from a finished file. -/
theorem recover_eq {file : Bytes} (path : FileName) (mapped : Bool)
    (finished : file = fileBytes data bloom (serializeIndex index) entryCount createdAt
      compression)
    (bounded : file.length ≤ maxFileSize)
    (addressable : data.length + bloom.length + (serializeIndex index).length < wordSize)
    (encodable : ∀ entry ∈ index, entry.Encodable) :
    recover path file mapped =
      .ok { fresh path file mapped with
        index := index.take (index.length % u32Size)
        metadata :=
          { footerMeta entryCount data.length (serializeIndex index).length data.length
              bloom.length createdAt compression with
            minKey := ((index.take (index.length % u32Size)).head?.map IndexEntry.key).getD []
            maxKey :=
              ((index.take (index.length % u32Size)).getLast?.map IndexEntry.key).getD [] } } := by
  let described := (fresh path file mapped).describedBy data bloom index entryCount createdAt
    compression
  have describing : (fresh path file mapped).loadMetadata = .ok described :=
    loadMetadata_of_bounded finished bounded
  have bloomOffset : described.metadata.bloomOffset = data.length := toUInt64_toNat (by omega)
  have bloomSize : described.metadata.bloomSize = bloom.length := toUInt64_toNat (by omega)
  have indexSize : described.metadata.indexSize = (serializeIndex index).length :=
    toUInt64_toNat (by omega)
  have contents : described.contents = (data ++ bloom) ++ (serializeIndex index ++ paddedFooter
      (footerData entryCount data.length (serializeIndex index).length data.length bloom.length
        createdAt compression)) := by
    rw [List.append_assoc]
    exact finished
  have indexRead : described.readAt (data.length + bloom.length) (serializeIndex index).length =
      .ok (serializeIndex index) := by
    rw [← List.length_append]
    exact readAt_section contents bounded
  have parsed := decodeFrom_serializeIndex encodable (by omega)
  have offset : checkedAdd data.length bloom.length = .ok (data.length + bloom.length) :=
    checkedAdd_eq_ok.mpr ⟨by omega, rfl⟩
  rw [recover, describing, Result.ok_bind, loadIndex, bloomOffset, bloomSize, indexSize, offset,
    Result.ok_bind, indexRead, Result.ok_bind, parsed]
  rfl

/-- `load_metadata` and `load_index` on a finished file. -/
theorem recover_fileBytes {file : Bytes} (path : FileName) (mapped : Bool)
    (finished : file = fileBytes data bloom (serializeIndex index) entryCount createdAt
      compression)
    (bounded : file.length ≤ maxFileSize)
    (addressable : data.length + bloom.length + (serializeIndex index).length < wordSize)
    (encodable : ∀ entry ∈ index, entry.Encodable) :
    ∃ reader, recover path file mapped = .ok reader ∧ reader.contents = file ∧
      reader.metadata.compression = compression ∧
      reader.index = index.take (index.length % u32Size) ∧ reader.blockCache = ∅ :=
  ⟨_, recover_eq path mapped finished bounded addressable encodable, rfl, rfl, rfl, rfl⟩

end Recovery

end SSTableReader

end JustDb

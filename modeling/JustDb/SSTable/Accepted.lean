import JustDb.AcceptedBytes
import JustDb.BloomBytes
import JustDb.SSTable.Opening
import JustDb.SSTable.Blocks

/-!
# What a reader accepts as a table

The parsers of a table accept what the writer writes, and little else.  The footer, the
index and the section of the bloom filter of a file that opens are the bytes that the
writer's serializer makes of what was read; only what stands behind the footer and the
index in their places is free.  A block may mark a value with any byte but zero.
-/

namespace JustDb

open Stateful Parsing Deserializer

/-! ## Records and blocks -/

/-- A value behind its mark. -/
def markedValue (mark : UInt8) : Option Value → Bytes
  | some value => mark :: keyBytes value
  | none => [0]

/-- The bytes of an entry, with a given byte in place of the mark of a value. -/
def markedBytes (mark : UInt8) (entry : Entry) : Bytes :=
  keyBytes entry.key ++ markedValue mark entry.value ++
    (LittleEndian.encode 8 entry.timestamp.toNat ++ LittleEndian.encode 8 entry.sequence.toNat)

/-- The writer marks values with a one. -/
theorem markedBytes_one (entry : Entry) : markedBytes 1 entry = entryBytes entry := by
  rw [entryBytes_eq, versionBytes, markedBytes, List.append_assoc]
  cases entry.value <;> rfl

/-- A segment spells an entry: its sizes fit their fields, and any byte but zero marks
its value. -/
def Spells (entry : Entry) (segment : Bytes) : Prop :=
  entry.Encodable ∧ ∃ mark ≠ 0, segment = markedBytes mark entry

theorem consumes_readKey : Consumes cursor readKey fun key segment =>
    segment = keyBytes key ∧ key.length < u32Size :=
  consumes_sized

theorem consumes_readValue : Consumes cursor readValue fun value segment =>
    (∀ stored, value = some stored → stored.length < u32Size) ∧
      ∃ mark ≠ 0, segment = markedValue mark value := by
  refine consumes_readU8.bind fun mark head spelled => ?_
  split
  next marked =>
    have sized : Consumes cursor ((do let len ← readU32; readBytes len.toNat) >>= fun value =>
        pure (some value)) fun value segment =>
          ∃ stored, value = some stored ∧ segment = keyBytes stored ∧ stored.length < u32Size := by
      refine consumes_readKey.bind fun stored segment read => Consumes.pure ?_
      rw [List.append_nil]
      exact ⟨stored, rfl, read⟩
    rw [bind_assoc] at sized
    refine sized.mono ?_
    rintro _ segment ⟨stored, rfl, rfl, small⟩
    refine ⟨fun other same => by cases same; exact small, mark, marked, ?_⟩
    rw [spelled]
    rfl
  next unmarked =>
    refine Consumes.pure ⟨by simp, 1, by decide, ?_⟩
    rw [spelled, not_not.mp unmarked]
    rfl

theorem consumes_readEntry : Consumes cursor readEntry Spells := by
  refine consumes_readKey.bind fun key head keyRead => ?_
  refine consumes_readValue.bind fun value middle valueRead => ?_
  refine consumes_readU64.bind fun timestamp stamp stampRead => ?_
  refine consumes_readU64.bind fun sequence last lastRead => Consumes.pure ?_
  obtain ⟨small, mark, marked, rfl⟩ := valueRead
  refine ⟨⟨keyRead.2, small⟩, mark, marked, ?_⟩
  rw [markedBytes, keyRead.1, stampRead, lastRead]
  simp only [List.append_assoc, List.append_nil]

theorem decodes_markedValue {mark : UInt8} (marked : mark ≠ 0) {value : Option Value}
    (small : ∀ stored, value = some stored → stored.length < u32Size) :
    Decodes cursor readValue (markedValue mark value) value := by
  cases value with
  | none => exact (decodes_readU8 0).map (.pure none)
  | some value =>
      refine (decodes_readU8 mark).bind ?_
      rw [if_pos marked]
      refine (decodes_readU32 value.length.toUInt32).bind ?_
      rw [toUInt32_toNat (small value rfl)]
      exact (decodes_readBytes value).map (.pure _)

theorem decodes_spelled {entry : Entry} {segment : Bytes} (spells : Spells entry segment) :
    Decodes cursor readEntry segment entry := by
  obtain ⟨encodable, mark, marked, rfl⟩ := spells
  rw [markedBytes, List.append_assoc]
  exact (decodes_readKey encodable.key).bind ((decodes_markedValue marked encodable.value).bind
    ((decodes_readU64 entry.timestamp).bind ((decodes_readU64 entry.sequence).map (.pure _))))

/-- A segment spells a block: its count, and its records one after another. -/
def SpellsBlock (entries : List Entry) (segment : Bytes) : Prop :=
  entries.length < u32Size ∧ ∃ records, List.Forall₂ Spells entries records ∧
    segment = LittleEndian.encode 4 entries.length ++ records.flatten

/-- The writer spells its blocks. -/
theorem spellsBlock_blockBytes {group : List Entry} (parsable : Parsable group) :
    SpellsBlock group (blockBytes group) := by
  refine ⟨parsable.count, group.map entryBytes, ?_, ?_⟩
  · rw [List.forall₂_map_right_iff, List.forall₂_same]
    intro entry member
    exact ⟨parsable.encodable entry member, 1, by decide, (markedBytes_one entry).symm⟩
  · rw [blockBytes_eq, toUInt32_toNat parsable.count, bodyBytes, List.flatMap_def]

theorem consumes_block : Consumes cursor
    (do let entryCount ← readU32; repeated readEntry entryCount.toNat) SpellsBlock := by
  refine consumes_readU32.bind fun entryCount head spelled => ?_
  refine (Consumes.repeated consumes_readEntry _).mono fun entries segment read => ?_
  obtain ⟨records, rfl, counted, spells⟩ := read
  refine ⟨counted ▸ entryCount.toNat_lt, records, spells, ?_⟩
  rw [spelled, counted]

theorem decodes_records {entries : List Entry} {records : List Bytes}
    (spells : List.Forall₂ Spells entries records) :
    Decodes cursor (repeated readEntry entries.length) records.flatten entries := by
  induction spells with
  | nil => exact Decodes.pure []
  | cons one _ ih =>
      rw [List.flatten_cons]
      exact (decodes_spelled one).bind (ih.map (Decodes.pure _))

theorem decodes_block {entries : List Entry} {segment : Bytes}
    (spells : SpellsBlock entries segment) : Decodes cursor
      (do let entryCount ← readU32; repeated readEntry entryCount.toNat) segment entries := by
  obtain ⟨counted, records, each, rfl⟩ := spells
  have block : Decodes cursor (do let entryCount ← readU32; repeated readEntry entryCount.toNat)
      (LittleEndian.encode 4 entries.length.toUInt32.toNat ++ records.flatten) entries := by
    refine (decodes_readU32 entries.length.toUInt32).bind ?_
    rw [toUInt32_toNat counted]
    exact decodes_records each
  rwa [toUInt32_toNat counted] at block

/-- The iterator's parser takes a block for some entries exactly when the block starts
with bytes that spell them. -/
theorem parseBlock_accepts_iff {data : Bytes} (bounded : data.length < wordSize)
    (entries : List Entry) :
    parseBlock data = .ok entries ↔ ∃ segment, segment <+: data ∧ SpellsBlock entries segment :=
  decodeFrom_accepts_iff consumes_block (fun _ _ => decodes_block) bounded entries

/-- A value behind a mark that no writer uses, in a block with a byte to spare. -/
theorem parseBlock_accepts_iff_marked :
    ∃ segment, segment <+: [1, 0, 0, 0, 1, 0, 0, 0, 7, 2, 1, 0, 0, 0, 9, 5, 0, 0, 0, 0, 0, 0, 0,
        1, 0, 0, 0, 0, 0, 0, 0, 8] ∧
      SpellsBlock [{ key := [7], value := some [9], timestamp := 5, sequence := 1 }] segment :=
  (parseBlock_accepts_iff (by decide) _).mp (by decide +kernel)

/-! ## The footer -/

namespace SStableMeta

/-- What the writer makes a footer of. -/
def footerBytes (metadata : SStableMeta) : Bytes :=
  footerData metadata.entryCount metadata.dataSize metadata.indexSize metadata.bloomOffset
    metadata.bloomSize metadata.createdAt metadata.compression

/-- The metadata of a footer: its numbers fit their fields, its version is the current one,
and it knows no keys. -/
structure Footed (metadata : SStableMeta) : Prop where
  entryCount : metadata.entryCount < wordSize
  dataSize : metadata.dataSize < wordSize
  indexSize : metadata.indexSize < wordSize
  bloomOffset : metadata.bloomOffset < wordSize
  bloomSize : metadata.bloomSize < wordSize
  version : metadata.version = sstableVersion
  minKey : metadata.minKey = []
  maxKey : metadata.maxKey = []

/-- Such metadata comes back from its footer. -/
theorem Footed.footerMeta {metadata : SStableMeta} (footed : metadata.Footed) :
    JustDb.footerMeta metadata.entryCount metadata.dataSize metadata.indexSize
      metadata.bloomOffset metadata.bloomSize metadata.createdAt metadata.compression =
        metadata := by
  rw [JustDb.footerMeta, toUInt64_toNat footed.entryCount, toUInt64_toNat footed.dataSize,
    toUInt64_toNat footed.indexSize, toUInt64_toNat footed.bloomOffset,
    toUInt64_toNat footed.bloomSize, ← footed.version, ← footed.minKey]
  nth_rewrite 2 [footed.minKey]
  rw [← footed.maxKey]

end SStableMeta

theorem consumes_readCompression : Consumes cursor readCompression fun compression segment =>
    segment = [compressionByte compression] := by
  refine consumes_readU8.bind fun byte segment spelled => ?_
  subst spelled
  split
  next none => exact Consumes.pure (by rw [none]; rfl)
  · split
    next lz4 => exact Consumes.pure (by rw [lz4]; rfl)
    · split
      next zstd => exact Consumes.pure (by rw [zstd]; rfl)
      · exact consumes_throw _

theorem consumes_readFooter : Consumes cursor readFooter fun metadata segment =>
    segment = metadata.footerBytes ∧ metadata.Footed := by
  refine consumes_readU64.bind fun entryCount first firstRead => ?_
  refine consumes_readU64.bind fun dataSize second secondRead => ?_
  refine consumes_readU64.bind fun indexSize third thirdRead => ?_
  refine consumes_readU64.bind fun bloomOffset fourth fourthRead => ?_
  refine consumes_readU64.bind fun bloomSize fifth fifthRead => ?_
  refine consumes_readU64.bind fun createdAt sixth sixthRead => ?_
  refine consumes_readCompression.bind fun compression seventh seventhRead => ?_
  refine consumes_readU32.bind fun version eighth eighthRead => ?_
  refine consumes_readU32.bind fun magic ninth ninthRead => ?_
  split
  · exact consumes_throw _
  next marked =>
    split
    · exact consumes_throw _
    next current =>
      refine Consumes.pure ⟨?_, entryCount.toNat_lt, dataSize.toNat_lt, indexSize.toNat_lt,
        bloomOffset.toNat_lt, bloomSize.toNat_lt, not_not.mp current, rfl, rfl⟩
      rw [SStableMeta.footerBytes, footerData_eq, firstRead, secondRead, thirdRead, fourthRead,
        fifthRead, sixthRead, seventhRead, eighthRead, ninthRead, not_not.mp marked,
        not_not.mp current]
      simp

/-! ## The index -/

theorem consumes_readIndexEntry : Consumes cursor readIndexEntry fun entry segment =>
    segment = indexEntryBytes entry ∧ entry.Encodable := by
  refine consumes_readKey.bind fun key head keyRead => ?_
  refine consumes_readU64.bind fun offset middle offsetRead => ?_
  refine consumes_readU64.bind fun size last sizeRead => Consumes.pure ⟨?_, keyRead.2,
    offset.toNat_lt, size.toNat_lt⟩
  rw [indexEntryBytes, toUInt64_toNat offset.toNat_lt, toUInt64_toNat size.toNat_lt, keyRead.1,
    offsetRead, sizeRead, List.append_nil]

/-- An index that the writer can write whole. -/
def Indexable (index : List IndexEntry) : Prop :=
  index.length < u32Size ∧ ∀ entry ∈ index, entry.Encodable

theorem consumes_readIndex : Consumes cursor readIndex fun index segment =>
    segment = serializeIndex index ∧ Indexable index := by
  refine consumes_readU32.bind fun entryCount head spelled => ?_
  refine (consumes_readIndexEntry.repeatedEncoding _).mono fun index segment read => ?_
  obtain ⟨counted, encodable, rfl⟩ := read
  have small : index.length < u32Size := counted ▸ entryCount.toNat_lt
  refine ⟨?_, small, encodable⟩
  rw [serializeIndex_eq, toUInt32_toNat small, counted, spelled]

theorem decodes_readIndex {index : List IndexEntry} (indexable : Indexable index) :
    Decodes cursor readIndex (serializeIndex index) index := by
  rw [serializeIndex_eq]
  refine (decodes_readU32 index.length.toUInt32).bind ?_
  rw [toUInt32_toNat indexable.1]
  exact Decodes.repeated fun entry member => decodes_readIndexEntry (indexable.2 entry member)

/-! ## The section of the bloom filter -/

/-- A filter whose section is read back: its counts fit their fields, and it has one byte
for each eight bits. -/
structure BloomFilter.Sectioned (filter : BloomFilter) : Prop where
  bitCount : filter.bitCount < 256 ^ 4
  hashCount : filter.hashCount < 256 ^ 4
  elementCount : filter.elementCount < 256 ^ 4
  bits : filter.bits.length = (filter.bitCount + 7) / 8

/-- A section is accepted as a filter exactly when the filter is stored as this section. -/
theorem BloomFilter.fromBytes_accepts_iff (data : Bytes) (filter : BloomFilter) :
    fromBytes data = .ok filter ↔ data = filter.toBytes ∧ filter.Sectioned := by
  constructor
  · intro read
    have parts := readFrom_of_fromBytes read
    have long : 12 ≤ data.length ∧ filter.bits = data.drop 12 := by
      unfold fromBytes at read
      split at read
      · cases read
      next long =>
        dsimp only at read
        split at read
        · cases read
        · cases read
          exact ⟨not_lt.mp long, rfl⟩
    have header : ∀ start, start + 4 ≤ 12 →
        LittleEndian.encode 4 (LittleEndian.decode ((data.drop start).take 4)) =
          (data.drop start).take 4 ∧
        LittleEndian.decode ((data.drop start).take 4) < 256 ^ 4 := by
      intro start inside
      have sized : ((data.drop start).take 4).length = 4 := by
        rw [List.length_take, List.length_drop]
        omega
      have whole := LittleEndian.encode_decode ((data.drop start).take 4)
      have small := LittleEndian.decode_lt ((data.drop start).take 4)
      rw [sized] at whole small
      exact ⟨whole, small⟩
    have first := header 0 (by decide)
    have second := header 4 (by decide)
    have third := header 8 (by decide)
    rw [List.drop_zero, ← parts.bitCount] at first
    rw [← parts.hashCount] at second
    rw [← parts.elementCount] at third
    refine ⟨?_, first.2, second.2, third.2, parts.bits⟩
    have eight : data.take 4 ++ (data.drop 4).take 4 = data.take 8 := List.take_add.symm
    have twelve : data.take 8 ++ (data.drop 8).take 4 = data.take 12 := List.take_add.symm
    rw [toBytes, first.1, second.1, third.1, long.2, eight, twelve, List.take_append_drop]
  · rintro ⟨rfl, sectioned⟩
    rw [fromBytes_toBytes, Nat.mod_eq_of_lt sectioned.bitCount,
      Nat.mod_eq_of_lt sectioned.hashCount, Nat.mod_eq_of_lt sectioned.elementCount,
      if_pos sectioned.bits]

/-! ## Whole files -/

namespace SSTableReader

/-- The sections of a file that opens, in their places. -/
structure Sections (contents : Bytes) (metadata : SStableMeta) (index : List IndexEntry)
    (bloomFilter : Option BloomFilter) : Prop where
  long : footerSize ≤ contents.length
  footed : metadata.Footed
  footer : metadata.footerBytes <+: contents.drop (contents.length - footerSize)
  inside : metadata.indexOffset + metadata.indexSize ≤ contents.length
  indexable : Indexable index
  index : serializeIndex index <+:
    (contents.drop metadata.indexOffset).take metadata.indexSize
  noFilter : bloomFilter = none ↔ metadata.bloomSize = 0
  filter : ∀ filter, bloomFilter = some filter → filter.Sectioned ∧
    (contents.drop metadata.bloomOffset).take metadata.bloomSize = filter.toBytes

/-- The reader of a file with given sections. -/
def ofSections (path : FileName) (contents : Bytes) (mapped : Bool) (metadata : SStableMeta)
    (index : List IndexEntry) (bloomFilter : Option BloomFilter) : SSTableReader :=
  { (described path contents mapped metadata).withIndex index with bloomFilter }

/-- The footer of a file is read where the file ends with the padded footer of the writer. -/
theorem footerOf_accepts_iff {contents : Bytes} (long : footerSize ≤ contents.length)
    (metadata : SStableMeta) :
    footerOf contents = .ok metadata ↔
      metadata.footerBytes <+: contents.drop (contents.length - footerSize) ∧
        metadata.Footed := by
  have sized : (contents.drop (contents.length - footerSize)).length = footerSize := by
    rw [List.length_drop]
    omega
  have whole : (contents.drop (contents.length - footerSize)).take footerSize =
      contents.drop (contents.length - footerSize) := List.take_of_length_le sized.le
  have bounded : (contents.drop (contents.length - footerSize)).length < wordSize := by
    rw [sized]
    decide
  rw [footerOf, whole, decodeFrom_accepts_iff consumes_readFooter _ bounded]
  · constructor
    · rintro ⟨segment, front, rfl, footed⟩
      exact ⟨front, footed⟩
    · rintro ⟨front, footed⟩
      exact ⟨_, front, rfl, footed⟩
  · rintro value segment ⟨rfl, footed⟩
    have decoded := decodes_readFooter value.entryCount value.dataSize value.indexSize
      value.bloomOffset value.bloomSize value.createdAt value.compression
    rwa [footed.footerMeta] at decoded

/-- An index is read from a slice where the slice starts with what the writer makes of it. -/
theorem readIndex_accepts_iff {data : Bytes} (bounded : data.length < wordSize)
    (index : List IndexEntry) :
    decodeFrom data readIndex = .ok index ↔ serializeIndex index <+: data ∧ Indexable index := by
  rw [decodeFrom_accepts_iff consumes_readIndex _ bounded]
  · constructor
    · rintro ⟨segment, front, rfl, indexable⟩
      exact ⟨front, indexable⟩
    · rintro ⟨front, indexable⟩
      exact ⟨_, front, rfl, indexable⟩
  · rintro value segment ⟨rfl, indexable⟩
    exact decodes_readIndex indexable

theorem lt_wordSize_of_le_maxFileSize {length : Nat} (bounded : length ≤ maxFileSize) :
    length < wordSize := by
  unfold maxFileSize at bounded
  unfold wordSize UInt64.size
  omega

/-- A file opens exactly when it has the sections of a table in their places: its last bytes
start with a footer, the place of the index with an index, each as the writer serializes
it, and the place of the bloom filter holds the section of a filter and no more.  The
reader then holds just these. -/
theorem openFile_accepts_iff {contents : Bytes} (bounded : contents.length ≤ maxFileSize)
    (path : FileName) (mapped : Bool) (reader : SSTableReader) :
    openFile path contents mapped = .ok reader ↔
      ∃ metadata index bloomFilter, Sections contents metadata index bloomFilter ∧
        reader = ofSections path contents mapped metadata index bloomFilter := by
  by_cases long : footerSize ≤ contents.length
  swap
  · rw [openFile_of_short (not_le.mp long)]
    constructor
    · intro ran
      cases ran
    · rintro ⟨_, _, _, sections, _⟩
      exact absurd sections.long long
  have addressable : ∀ metadata : SStableMeta, ((contents.drop metadata.indexOffset).take
      metadata.indexSize).length < wordSize := fun metadata =>
    lt_wordSize_of_le_maxFileSize (length_section_le bounded _ _)
  simp only [openFile_eq bounded long, Result.bind_eq_ok]
  constructor
  · rintro ⟨metadata, footer, indexed, loaded, read⟩
    obtain ⟨inside, index, decoded, rfl⟩ := (loadIndex_eq_ok bounded).mp loaded
    obtain ⟨front, footed⟩ := (footerOf_accepts_iff long metadata).mp footer
    obtain ⟨indexFront, indexable⟩ := (readIndex_accepts_iff (addressable metadata) index).mp
      decoded
    rw [loadBloomFilter_withIndex index bounded ((Nat.le_add_right _ _).trans inside)] at read
    split at read
    next none =>
      cases read
      refine ⟨metadata, index, Option.none, ⟨long, footed, front, inside, indexable, indexFront,
        ⟨fun _ => none, fun _ => rfl⟩, ?_⟩, rfl⟩
      intro filter held
      cases held
    next some =>
      obtain ⟨filter, parsed, made⟩ := Result.bind_eq_ok.mp read
      cases made
      obtain ⟨spelled, sectioned⟩ := (BloomFilter.fromBytes_accepts_iff _ filter).mp parsed
      refine ⟨metadata, index, Option.some filter, ⟨long, footed, front, inside, indexable,
        indexFront, ⟨fun absent => ?_, fun empty => absurd empty some⟩, ?_⟩, rfl⟩
      · cases absent
      · intro other same
        cases same
        exact ⟨sectioned, spelled⟩
  · rintro ⟨metadata, index, bloomFilter, sections, rfl⟩
    have decoded := (readIndex_accepts_iff (addressable metadata) index).mpr
      ⟨sections.index, sections.indexable⟩
    refine ⟨metadata, (footerOf_accepts_iff long metadata).mpr
      ⟨sections.footer, sections.footed⟩,
      (described path contents mapped metadata).withIndex index,
      (loadIndex_eq_ok bounded).mpr ⟨sections.inside, index, decoded, rfl⟩, ?_⟩
    rw [loadBloomFilter_withIndex index bounded ((Nat.le_add_right _ _).trans sections.inside)]
    cases bloomFilter with
    | none =>
        rw [if_pos (by exact sections.noFilter.mp rfl)]
        rfl
    | some filter =>
        obtain ⟨sectioned, spelled⟩ := sections.filter filter rfl
        have parsed := (BloomFilter.fromBytes_accepts_iff _ filter).mpr ⟨spelled, sectioned⟩
        have present : ¬ metadata.bloomSize = 0 := by
          intro empty
          cases sections.noFilter.mpr empty
        rw [if_neg (by exact present)]
        exact Result.bind_eq_ok.mpr ⟨filter, parsed, rfl⟩

/-- A filter with bits set, an index of one block, and what a footer says of them. -/
private def smallFilter : BloomFilter :=
  { bits := [3], bitCount := 8, hashCount := 1, elementCount := 1 }

private def smallIndex : List IndexEntry :=
  [{ key := [1], offset := 0, size := 5 }]

private def smallMetadata : SStableMeta :=
  { entryCount := 1, dataSize := 5, indexSize := 25, bloomOffset := 5, bloomSize := 13,
    minKey := [], maxKey := [], compression := .none, createdAt := 7, version := sstableVersion }

private def smallFile : Bytes :=
  [0, 0, 0, 0, 0] ++ smallFilter.toBytes ++ serializeIndex smallIndex ++
    paddedFooter smallMetadata.footerBytes

theorem openFile_accepts_iff_small :
    openFile [] smallFile false =
      .ok (ofSections [] smallFile false smallMetadata smallIndex (some smallFilter)) := by
  refine (openFile_accepts_iff (by decide +kernel) _ _ _).mpr ⟨_, _, _, ⟨by decide +kernel, ?_,
    by decide +kernel, by decide +kernel, ?_, by decide +kernel, by decide, ?_⟩, rfl⟩
  · constructor <;> decide
  · refine ⟨by decide, fun entry member => ?_⟩
    rw [List.mem_singleton.mp member]
    constructor <;> decide
  · intro filter held
    cases held
    exact ⟨by constructor <;> decide, by decide⟩

end SSTableReader

end JustDb

import JustDb.SSTable.BlockParsers
import JustDb.SSTable.Recovery

/-!
# Opening arbitrary bytes

No checksum covers the footer, and its sizes are added up and used as the bounds of reads.
Every other byte of a file is read through the bounds check of the deserializer.  Whether
a file opens does not depend on how it is read; whether opening it panics does.
-/

namespace JustDb

open Stateful Deserializer Parsing

/-! ## Decoders that do not panic -/

namespace Deserializer

/-- The position lies in a slice that an allocation can hold. -/
def Inside (self : Deserializer) : Prop :=
  self.position ≤ self.data.length ∧ self.data.length ≤ maxFileSize

/-- Whatever the slice holds, the decoder returns a value or an error. -/
abbrev NeverPanics {α : Type} (decoder : Decode α) : Prop :=
  Ensures Inside (fun fault _ => fault ≠ .panic) decoder

variable {α : Type}

theorem neverPanics_throw (failure : StorageError) :
    NeverPanics (throw (.error failure) : Decode α) := by
  intro self _ panics
  cases panics

/-- A read of fewer than `2 ^ 32` bytes does not overflow the position. -/
theorem neverPanics_readBytes {len : Nat} (small : len < u32Size) :
    NeverPanics (readBytes len) := by
  intro self inside
  have word : self.position + len < wordSize := by
    have bounds := inside
    unfold Inside maxFileSize at bounds
    unfold u32Size UInt32.size at small
    unfold wordSize UInt64.size
    omega
  by_cases fits : self.position + len ≤ self.data.length
  · have addressable : self.data.length < wordSize := by
      have bound := inside.2
      unfold maxFileSize at bound
      unfold wordSize UInt64.size
      omega
    rw [readBytes_of_le fits addressable]
    exact ⟨fits, inside.2⟩
  · have failed : ensureByte len self =
        .error (.error (.corruption "unexpected end of data")) self := by
      rw [ensureByte, bind_of_ok (get_apply self), checkedAdd, if_pos word,
        bind_of_ok (lift_ok _ _), if_pos (not_le.mp fits)]
      rfl
    rw [readBytes, bind_of_error failed]
    intro panics
    cases panics

theorem neverPanics_readWord {width : Nat} (small : width < u32Size) :
    NeverPanics (readWord width) :=
  (neverPanics_readBytes small).bind fun _ => ensures_pure _

theorem neverPanics_readU8 : NeverPanics readU8 :=
  (neverPanics_readWord (by decide)).bind fun _ => ensures_pure _

theorem neverPanics_readU32 : NeverPanics readU32 :=
  (neverPanics_readWord (by decide)).bind fun _ => ensures_pure _

theorem neverPanics_readU64 : NeverPanics readU64 :=
  (neverPanics_readWord (by decide)).bind fun _ => ensures_pure _

theorem decodeFrom_ne_panic {decoder : Decode α} (never : NeverPanics decoder) {data : Bytes}
    (bounded : data.length ≤ maxFileSize) : decodeFrom data decoder ≠ .error .panic := by
  have ends := never { data } ⟨Nat.zero_le _, bounded⟩
  rw [decodeFrom]
  cases ran : decoder { data } with
  | ok value reached => simp
  | error fault reached =>
      rw [ran] at ends
      simpa using ends

end Deserializer

theorem neverPanics_readCompression : NeverPanics readCompression := by
  apply neverPanics_readU8.bind
  intro byte
  exact (ensures_pure _).ite ((ensures_pure _).ite ((ensures_pure _).ite (neverPanics_throw _)))

theorem neverPanics_readFooter : NeverPanics readFooter := by
  have checked : ∀ (version magic : UInt32) (metadata : SStableMeta),
      NeverPanics (if magic ≠ sstableMagic then
        throw (.error (.corruption "invalid sstable magic number"))
      else if version ≠ sstableVersion then
        throw (.error (.corruption "unsupported sstable version"))
      else pure metadata) :=
    fun _ _ _ => (neverPanics_throw _).ite ((neverPanics_throw _).ite (ensures_pure _))
  exact neverPanics_readU64.bind fun _ => neverPanics_readU64.bind fun _ =>
    neverPanics_readU64.bind fun _ => neverPanics_readU64.bind fun _ =>
      neverPanics_readU64.bind fun _ => neverPanics_readU64.bind fun _ =>
        neverPanics_readCompression.bind fun _ => neverPanics_readU32.bind fun _ =>
          neverPanics_readU32.bind fun _ => checked _ _ _

theorem neverPanics_readIndex : NeverPanics readIndex := by
  have key : NeverPanics readKey :=
    neverPanics_readU32.bind fun keyLen => neverPanics_readBytes keyLen.toNat_lt
  have entry : NeverPanics readIndexEntry :=
    key.bind fun _ => neverPanics_readU64.bind fun _ => neverPanics_readU64.bind fun _ =>
      ensures_pure _
  exact neverPanics_readU32.bind fun entryCount => ensures_repeated entry _

theorem BloomFilter.fromBytes_ne_panic (data : Bytes) : fromBytes data ≠ .error .panic := by
  rw [fromBytes]
  split
  · simp
  · dsimp only
    split
    · simp
    · simp

/-! ## The sizes of the footer -/

/-- The metadata in the last bytes of a file. -/
def footerOf (contents : Bytes) : Result SStableMeta :=
  decodeFrom ((contents.drop (contents.length - footerSize)).take footerSize) readFooter

namespace SStableMeta

/-- Where the index starts. -/
def indexOffset (metadata : SStableMeta) : Nat :=
  metadata.bloomOffset + metadata.bloomSize

/-- The end of the index is a machine word, and an index that starts at an offset of files
is small enough for an allocation. -/
def Addressable (metadata : SStableMeta) : Prop :=
  metadata.indexOffset + metadata.indexSize < wordSize ∧
    (metadata.indexOffset ≤ maxFileSize → metadata.indexSize ≤ maxFileSize)

end SStableMeta

namespace SSTableReader

/-- Where a read panics: a mapped file has its end computed on `usize`, otherwise a buffer
is allocated once the offset has been sought. -/
theorem readAt_ne_panic_iff {self : SSTableReader} {offset size : Nat} :
    self.readAt offset size ≠ .error .panic ↔
      if self.mapped then offset + size < wordSize
      else offset ≤ maxFileSize → size ≤ maxFileSize := by
  unfold readAt
  split
  · by_cases word : offset + size < wordSize
    · rw [checkedAdd, if_pos word, Result.ok_bind]
      split <;> simp [word]
    · rw [checkedAdd, if_neg word, Result.error_bind]
      simp [word]
  · split
    next far => exact iff_of_true (by simp) fun near => absurd near (not_le.mpr far)
    next near =>
      split
      next large =>
        exact iff_of_false (by simp) fun small =>
          absurd (small (not_lt.mp near)) (not_le.mpr large)
      next small =>
        refine iff_of_true ?_ fun _ => not_lt.mp small
        split
        · simp
        · simp

/-- A read that returns some bytes has found all that it asked for. -/
theorem inside_of_readAt {self : SSTableReader} {offset size : Nat} {bytes : Bytes}
    (read : self.readAt offset size = .ok bytes) (filled : bytes ≠ []) :
    offset + size ≤ self.contents.length := by
  have some : size ≠ 0 := by
    rintro rfl
    rw [readAt_eq_ok read, List.take_zero] at filled
    exact filled rfl
  unfold readAt at read
  split at read
  · obtain ⟨stop, sum, sliced⟩ := Result.bind_eq_ok.mp read
    rw [(checkedAdd_eq_ok.mp sum).2]
    split at sliced
    · cases sliced
    next within => exact not_lt.mp within
  · split at read
    · cases read
    · split at read
      · cases read
      · split at read
        · cases read
        next within => exact not_lt.mp fun beyond => within ⟨some, beyond⟩

variable {self : SSTableReader}

/-- A section of a file is no longer than the file. -/
theorem length_section_le {contents : Bytes} (bounded : contents.length ≤ maxFileSize)
    (offset size : Nat) : ((contents.drop offset).take size).length ≤ maxFileSize :=
  ((List.take_sublist _ _).length_le.trans (List.drop_sublist _ _).length_le).trans bounded

/-- Loading the index panics in its two additions or in the allocation only. -/
theorem loadIndex_ne_panic_iff (bounded : self.contents.length ≤ maxFileSize) :
    self.loadIndex ≠ .error .panic ↔
      self.metadata.indexOffset < wordSize ∧
        self.readAt self.metadata.indexOffset self.metadata.indexSize ≠ .error .panic := by
  unfold loadIndex SStableMeta.indexOffset
  by_cases word : self.metadata.bloomOffset + self.metadata.bloomSize < wordSize
  · rw [checkedAdd, if_pos word, Result.ok_bind]
    cases read : self.readAt (self.metadata.bloomOffset + self.metadata.bloomSize)
        self.metadata.indexSize with
    | error fault => simp [word]
    | ok indexData =>
        have small : indexData.length ≤ maxFileSize := by
          rw [readAt_eq_ok read]
          exact length_section_le bounded _ _
        have parsed := decodeFrom_ne_panic neverPanics_readIndex small
        rw [Result.ok_bind]
        cases decoded : decodeFrom indexData readIndex with
        | ok index => simp [word]
        | error fault =>
            rw [decoded] at parsed
            simpa [word] using parsed
  · rw [checkedAdd, if_neg word, Result.error_bind]
    simp [word]

/-- The reader once its index is loaded. -/
def withIndex (self : SSTableReader) (index : List IndexEntry) : SSTableReader :=
  { self with
    index
    metadata := { self.metadata with
      minKey := (index.head?.map IndexEntry.key).getD self.metadata.minKey
      maxKey := (index.getLast?.map IndexEntry.key).getD self.metadata.maxKey } }

/-- The index loads when it lies in the file and parses, however the file is read. -/
theorem loadIndex_eq_ok (bounded : self.contents.length ≤ maxFileSize) {reader : SSTableReader} :
    self.loadIndex = .ok reader ↔
      self.metadata.indexOffset + self.metadata.indexSize ≤ self.contents.length ∧
        ∃ index, decodeFrom ((self.contents.drop self.metadata.indexOffset).take
          self.metadata.indexSize) readIndex = .ok index ∧ reader = self.withIndex index := by
  unfold loadIndex
  simp only [Result.bind_eq_ok, checkedAdd_eq_ok]
  constructor
  · rintro ⟨_, ⟨_, rfl⟩, indexData, read, index, decoded, made⟩
    have filled : indexData ≠ [] := by
      rintro rfl
      cases decoded
    have inside := inside_of_readAt read filled
    rw [readAt_eq_ok read] at decoded
    cases made
    exact ⟨inside, index, decoded, rfl⟩
  · rintro ⟨inside, index, decoded, rfl⟩
    have word : self.metadata.indexOffset < wordSize := by
      unfold maxFileSize at bounded
      unfold wordSize UInt64.size
      omega
    exact ⟨_, ⟨word, rfl⟩, _, readAt_of_le bounded inside, index, decoded, rfl⟩

/-! ## Opening a file -/

section Opening

variable {path : FileName} {contents : Bytes} {mapped : Bool}

/-- A reader that has loaded a footer. -/
def described (path : FileName) (contents : Bytes) (mapped : Bool) (metadata : SStableMeta) :
    SSTableReader :=
  { fresh path contents mapped with metadata := { metadata with minKey := [], maxKey := [] } }

/-- The footer is read alike in both modes. -/
theorem loadMetadata_fresh (bounded : contents.length ≤ maxFileSize)
    (long : footerSize ≤ contents.length) :
    (fresh path contents mapped).loadMetadata = (do
      let metadata ← footerOf contents
      .ok (described path contents mapped metadata)) := by
  set reader := fresh path contents mapped
  have short : ¬ reader.contents.length < footerSize := not_lt.mpr long
  have footer : reader.readAt (reader.contents.length - footerSize) footerSize =
      .ok ((contents.drop (contents.length - footerSize)).take footerSize) :=
    readAt_of_le bounded (Nat.le_of_eq (Nat.sub_add_cancel long))
  rw [loadMetadata, if_neg short, footer, Result.ok_bind]
  rfl

theorem openFile_of_short (short : contents.length < footerSize) :
    openFile path contents mapped = .error (.error (.corruption
      "\n                File too small to contain footer\n                ")) := by
  have refused : (fresh path contents mapped).loadMetadata = .error (.error (.corruption
      "\n                File too small to contain footer\n                ")) := if_pos short
  rw [openFile, recover, refused, Result.error_bind, Result.error_bind]

theorem openFile_eq (bounded : contents.length ≤ maxFileSize)
    (long : footerSize ≤ contents.length) :
    openFile path contents mapped = (do
      let metadata ← footerOf contents
      let reader ← (described path contents mapped metadata).loadIndex
      reader.loadBloomFilter) := by
  rw [openFile, recover, loadMetadata_fresh bounded long]
  cases footerOf contents <;> rfl

/-- A bloom filter section that lies in the file is read alike in both modes. -/
theorem loadBloomFilter_withIndex {self : SSTableReader} (index : List IndexEntry)
    (bounded : self.contents.length ≤ maxFileSize)
    (inside : self.metadata.indexOffset ≤ self.contents.length) :
    (self.withIndex index).loadBloomFilter =
      if self.metadata.bloomSize = 0 then .ok (self.withIndex index)
      else (do
        let bloomFilter ← BloomFilter.fromBytes
          ((self.contents.drop self.metadata.bloomOffset).take self.metadata.bloomSize)
        .ok { self.withIndex index with bloomFilter := some bloomFilter }) := by
  have read : (self.withIndex index).readAt self.metadata.bloomOffset self.metadata.bloomSize =
      .ok ((self.contents.drop self.metadata.bloomOffset).take self.metadata.bloomSize) :=
    readAt_of_le bounded inside
  have sizes : (self.withIndex index).metadata.bloomSize = self.metadata.bloomSize ∧
      (self.withIndex index).metadata.bloomOffset = self.metadata.bloomOffset := ⟨rfl, rfl⟩
  rw [loadBloomFilter, sizes.1, sizes.2, read, Result.ok_bind]

/-- Once the index is loaded nothing panics. -/
theorem loadBloomFilter_ne_panic {self : SSTableReader} (index : List IndexEntry)
    (bounded : self.contents.length ≤ maxFileSize)
    (inside : self.metadata.indexOffset ≤ self.contents.length) :
    (self.withIndex index).loadBloomFilter ≠ .error .panic := by
  rw [loadBloomFilter_withIndex index bounded inside]
  split
  · simp
  · have parsed := BloomFilter.fromBytes_ne_panic
      ((self.contents.drop self.metadata.bloomOffset).take self.metadata.bloomSize)
    cases read : BloomFilter.fromBytes
        ((self.contents.drop self.metadata.bloomOffset).take self.metadata.bloomSize) with
    | ok filter => simp
    | error fault =>
        rw [read] at parsed
        simpa using parsed

/-- What opening asks of the bytes of a file, however they are read. -/
structure Opens (contents : Bytes) (metadata : SStableMeta) : Prop where
  footer : footerOf contents = .ok metadata
  inside : metadata.indexOffset + metadata.indexSize ≤ contents.length
  index : ∃ index, decodeFrom
    ((contents.drop metadata.indexOffset).take metadata.indexSize) readIndex = .ok index
  filter : metadata.bloomSize ≠ 0 → ∃ filter, BloomFilter.fromBytes
    ((contents.drop metadata.bloomOffset).take metadata.bloomSize) = .ok filter

/-- Whether a file opens does not depend on the mode. -/
theorem exists_openFile_iff (bounded : contents.length ≤ maxFileSize)
    (long : footerSize ≤ contents.length) :
    (∃ reader, openFile path contents mapped = .ok reader) ↔
      ∃ metadata, Opens contents metadata := by
  simp only [openFile_eq bounded long, Result.bind_eq_ok]
  constructor
  · rintro ⟨reader, metadata, footer, indexed, loaded, read⟩
    obtain ⟨inside, index, decoded, rfl⟩ := (loadIndex_eq_ok bounded).mp loaded
    refine ⟨metadata, footer, inside, ⟨index, decoded⟩, ?_⟩
    intro some
    rw [loadBloomFilter_withIndex index bounded ((Nat.le_add_right _ _).trans inside),
      if_neg (by exact some)] at read
    obtain ⟨filter, parsed, -⟩ := Result.bind_eq_ok.mp read
    exact ⟨filter, parsed⟩
  · rintro ⟨metadata, footer, inside, ⟨index, decoded⟩, filter⟩
    have loaded : (described path contents mapped metadata).loadIndex =
        .ok ((described path contents mapped metadata).withIndex index) :=
      (loadIndex_eq_ok bounded).mpr ⟨inside, index, decoded, rfl⟩
    set reader := described path contents mapped metadata
    have reading := @loadBloomFilter_withIndex reader index bounded
      ((Nat.le_add_right _ _).trans inside)
    by_cases none : reader.metadata.bloomSize = 0
    · rw [if_pos none] at reading
      exact ⟨_, metadata, footer, _, loaded, reading⟩
    · obtain ⟨parsed, decodes⟩ : ∃ parsed, BloomFilter.fromBytes
          ((reader.contents.drop reader.metadata.bloomOffset).take reader.metadata.bloomSize) =
            .ok parsed := filter none
      rw [if_neg none, decodes, Result.ok_bind] at reading
      exact ⟨_, metadata, footer, _, loaded, reading⟩

/-- Opening a file whose footer reads well panics where loading its index does. -/
theorem openFile_ne_panic_iff (bounded : contents.length ≤ maxFileSize)
    (long : footerSize ≤ contents.length) {metadata : SStableMeta}
    (footer : footerOf contents = .ok metadata) :
    openFile path contents mapped ≠ .error .panic ↔
      (described path contents mapped metadata).loadIndex ≠ .error .panic := by
  rw [openFile_eq bounded long, footer, Result.ok_bind]
  cases loaded : (described path contents mapped metadata).loadIndex with
  | error fault => rw [Result.error_bind]
  | ok reader =>
      obtain ⟨inside, index, -, rfl⟩ := (loadIndex_eq_ok (by exact bounded)).mp loaded
      rw [Result.ok_bind]
      exact iff_of_true (loadBloomFilter_ne_panic index bounded
        ((Nat.le_add_right _ _).trans inside)) (by simp)

/-- In neither mode the index of a footer panics exactly when its sizes are addressable. -/
theorem addressable_iff (bounded : contents.length ≤ maxFileSize) (metadata : SStableMeta) :
    (∀ mapped, (described path contents mapped metadata).loadIndex ≠ .error .panic) ↔
      metadata.Addressable := by
  have each : ∀ mapped, (described path contents mapped metadata).loadIndex ≠ .error .panic ↔
      metadata.indexOffset < wordSize ∧
        if mapped then metadata.indexOffset + metadata.indexSize < wordSize
        else metadata.indexOffset ≤ maxFileSize → metadata.indexSize ≤ maxFileSize := by
    intro mapped
    rw [loadIndex_ne_panic_iff (by exact bounded), readAt_ne_panic_iff]
    rfl
  simp only [each]
  constructor
  · intro safe
    exact ⟨(safe true).2, (safe false).2⟩
  · rintro ⟨word, small⟩ mapped
    refine ⟨lt_of_le_of_lt (Nat.le_add_right _ _) word, ?_⟩
    cases mapped
    · exact small
    · exact word

/-- Opening ends with `Ok` or an error in both modes, and with `Ok` in both or neither. -/
def OpensSafely (path : FileName) (contents : Bytes) : Prop :=
  (∀ mapped, openFile path contents mapped ≠ .error .panic) ∧
    ((∃ reader, openFile path contents true = .ok reader) ↔
      ∃ reader, openFile path contents false = .ok reader)

/-- A file that a file system can hold opens safely exactly when its footer, if it reads
well, has addressable sizes. -/
theorem opensSafely_iff (path : FileName) (contents : Bytes)
    (bounded : contents.length ≤ maxFileSize) :
    OpensSafely path contents ↔
      (footerSize ≤ contents.length → ∀ metadata, footerOf contents = .ok metadata →
        metadata.Addressable) := by
  by_cases long : footerSize ≤ contents.length
  · have agree : (∃ reader, openFile path contents true = .ok reader) ↔
        ∃ reader, openFile path contents false = .ok reader :=
      (exists_openFile_iff bounded long).trans (exists_openFile_iff bounded long).symm
    rw [OpensSafely, and_iff_left agree, forall_prop_of_true long]
    cases footer : footerOf contents with
    | error fault =>
        have parsed := decodeFrom_ne_panic neverPanics_readFooter
          (length_section_le bounded (contents.length - footerSize) footerSize)
        refine iff_of_true ?_ (by simp)
        intro mapped
        rw [openFile_eq bounded long, footer, Result.error_bind]
        intro panics
        cases panics
        exact parsed footer
    | ok metadata =>
        simp only [openFile_ne_panic_iff bounded long footer, addressable_iff bounded]
        constructor
        · rintro safe _ same
          cases same
          exact safe
        · exact fun safe => safe metadata rfl
  · have short := not_le.mp long
    refine iff_of_true ?_ (fun longer => absurd longer long)
    constructor
    · intro mapped
      rw [openFile_of_short short]
      simp
    · rw [openFile_of_short short, openFile_of_short short]

end Opening

/-- A table file without entries and without a bloom filter. -/
def bareTable : Bytes :=
  [0, 0, 0, 0] ++ paddedFooter (footerData 0 0 4 0 0 0 .none)

theorem opensSafely_iff_bareTable : OpensSafely [] bareTable := by
  apply (opensSafely_iff [] bareTable (by decide +kernel)).mpr
  intro _ metadata footer
  have held : footerOf bareTable = .ok
      { entryCount := 0, dataSize := 0, indexSize := 4, bloomOffset := 0, bloomSize := 0,
        minKey := [], maxKey := [], compression := .none, createdAt := 0, version := 1 } := by
    decide +kernel
  rw [held] at footer
  cases footer
  exact ⟨by decide, fun _ => by decide⟩

/-- A footer alone, whose bloom filter section ends one byte past the last offset. -/
def overflowingFooter : Bytes :=
  paddedFooter (footerData 0 0 0 (wordSize - 1) 1 0 .none)

/-- The footer passes every check, and its sizes overflow in `load_index`. -/
theorem overflowing_footer_panics :
    ¬ ∀ contents : Bytes, contents.length ≤ maxFileSize → OpensSafely [] contents := by
  intro safe
  have bounded : overflowingFooter.length ≤ maxFileSize := by decide +kernel
  have footer : footerOf overflowingFooter = .ok
      { entryCount := 0, dataSize := 0, indexSize := 0, bloomOffset := wordSize - 1,
        bloomSize := 1, minKey := [], maxKey := [], compression := .none, createdAt := 0,
        version := 1 } := by
    decide +kernel
  have never := (safe overflowingFooter bounded).1
  simp only [openFile_ne_panic_iff bounded (by decide +kernel) footer,
    addressable_iff bounded] at never
  exact absurd never.1 (by decide)

end SSTableReader

end JustDb

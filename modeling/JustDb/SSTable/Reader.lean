import JustDb.Bloom
import JustDb.SSTable.Writer
import JustDb.Library.BinarySearch
import Mathlib.Data.List.AList

/-!
# Reading a table file

`SSTableReader` and `SSTableIterator`.  A reader holds the bytes of its file; its
block cache is the only part that a read changes.
-/

namespace JustDb

open Stateful Deserializer

/-! ## Records of a block -/

def readKey : Decode Key := do
  let keyLen ← readU32
  readBytes keyLen.toNat

/-- The flag of a record and the value that follows when it is set. -/
def readValue : Decode (Option Value) := do
  let hasValue ← readU8
  if hasValue ≠ 0 then do
    let valueLen ← readU32
    let value ← readBytes valueLen.toNat
    pure (some value)
  else
    pure none

/-- The rest of a record, after its key. -/
def readVersion (key : Key) : Decode Entry := do
  let value ← readValue
  let timestamp ← readU64
  let sequence ← readU64
  pure { key, value, timestamp, sequence }

def skipValue : Decode Unit := do
  let hasValue ← readU8
  if hasValue ≠ 0 then do
    let valueLen ← readU32
    skip valueLen.toNat
  else
    pure ()

/-- Skip the rest of a record, after its key. -/
def skipVersion : Decode Unit := do
  skipValue
  skip 16

def readEntry : Decode Entry := do
  let key ← readKey
  readVersion key

/-- The records of a block, as `load_current_block` parses them. -/
def parseBlock (blockData : Bytes) : Result (List Entry) :=
  decodeFrom blockData do
    let entryCount ← readU32
    Parsing.repeated readEntry entryCount.toNat

/-- The loop of `search_in_block`. -/
def searchRecords (targetKey : Key) : (entryCount : Nat) → Decode (Option Entry)
  | 0 => pure none
  | entryCount + 1 => do
      let key ← readKey
      if key = targetKey then do
        let entry ← readVersion key
        pure (some entry)
      else do
        skipVersion
        searchRecords targetKey entryCount

/-- search for a key -/
def searchInBlock (blockData : Bytes) (targetKey : Key) : Result (Option Entry) :=
  decodeFrom blockData do
    let entryCount ← readU32
    searchRecords targetKey entryCount.toNat

/-- The loop of `get_entries_in_range_from_block`. -/
def rangeRecords (start stop : Key) : (entryCount : Nat) → Decode (List Entry)
  | 0 => pure []
  | entryCount + 1 => do
      let key ← readKey
      if start ≤ key ∧ key < stop then do
        let entry ← readVersion key
        let entries ← rangeRecords start stop entryCount
        pure (entry :: entries)
      else do
        skipVersion
        rangeRecords start stop entryCount

def getEntriesInRangeFromBlock (blockData : Bytes) (start stop : Key) :
    Result (List Entry) :=
  decodeFrom blockData do
    let entryCount ← readU32
    rangeRecords start stop entryCount.toNat

def decompressBlock (external : External) (compression : CompressionType) (data : Bytes) :
    Result Bytes :=
  match compression with
  | .none => .ok data
  | .lz4 =>
      match external.lz4Decompress data with
      | .ok decompressed => .ok decompressed
      | .error reason =>
          .error (.error (.decompression ("LZ4 decompression failed: " ++ reason)))
  | .zstd =>
      match external.zstdDecompress data (blockSize * 4) with
      | .ok decompressed => .ok decompressed
      | .error reason =>
          .error (.error (.decompression ("Zstd decompression failed: " ++ reason)))

/-- Check a stored block against its checksum, then decompress it. -/
def unpackBlock (external : External) (compression : CompressionType) (stored : Bytes) :
    Result Bytes :=
  if stored.length < 4 then
    .error (.error (.corruption
      "\n                    block too small to contain checksum\n                "))
  else
    let storedChecksum := (LittleEndian.decode (stored.take 4)).toUInt32
    let compressed := stored.drop 4
    if storedChecksum ≠ external.crc32 compressed then
      .error (.error (.checksumMismatch storedChecksum (external.crc32 compressed)))
    else
      decompressBlock external compression compressed

/-! ## The footer and the index -/

def readCompression : Decode CompressionType := do
  let byte ← readU8
  if byte = 0 then pure .none
  else if byte = 1 then pure .lz4
  else if byte = 2 then pure .zstd
  else throw (.error (.corruption "invalid compression type"))

/-- The fields of the footer, with the checks of the magic number and the version. -/
def readFooter : Decode SStableMeta := do
  let entryCount ← readU64
  let dataSize ← readU64
  let indexSize ← readU64
  let bloomOffset ← readU64
  let bloomSize ← readU64
  let createdAt ← readU64
  let compression ← readCompression
  let version ← readU32
  let magic ← readU32
  if magic ≠ sstableMagic then
    throw (.error (.corruption "invalid sstable magic number"))
  else if version ≠ sstableVersion then
    throw (.error (.corruption "unsupported sstable version"))
  else
    pure
      { entryCount := entryCount.toNat, dataSize := dataSize.toNat,
        indexSize := indexSize.toNat, bloomOffset := bloomOffset.toNat,
        bloomSize := bloomSize.toNat, minKey := [], maxKey := [], compression,
        createdAt, version }

def readIndexEntry : Decode IndexEntry := do
  let key ← readKey
  let offset ← readU64
  let size ← readU64
  pure { key, offset := offset.toNat, size := size.toNat }

def readIndex : Decode (List IndexEntry) := do
  let entryCount ← readU32
  Parsing.repeated readIndexEntry entryCount.toNat

/-! ## The reader -/

/-- `mapped` tells whether the file is memory-mapped or read with `seek` and
`read_exact`. -/
structure SSTableReader where
  path : FileName
  contents : Bytes
  mapped : Bool
  metadata : SStableMeta
  index : List IndexEntry
  bloomFilter : Option BloomFilter
  blockCache : AList fun _ : Nat => Bytes

namespace SSTableReader

variable (external : External)

/-- A reader before anything has been read. -/
def fresh (path : FileName) (contents : Bytes) (mapped : Bool) : SSTableReader where
  path
  contents
  mapped
  metadata :=
    { entryCount := 0, dataSize := 0, indexSize := 0, bloomOffset := 0, bloomSize := 0,
      minKey := [], maxKey := [], compression := .none, createdAt := 0, version := 0 }
  index := []
  bloomFilter := none
  blockCache := ∅

/-- A mapped file is sliced.  Otherwise the file is sought, which refuses offsets past
`i64::MAX`, a buffer is allocated, which panics past `isize::MAX`, and read in full. -/
def readAt (self : SSTableReader) (offset size : Nat) : Result Bytes :=
  if self.mapped then do
    let stop ← checkedAdd offset size
    if stop > self.contents.length then
      .error (.error (.corruption "read beyond file bounds"))
    else
      .ok ((self.contents.drop offset).take size)
  else if offset > maxFileSize then
    .error (.error .io)
  else if size > maxFileSize then
    .error .panic
  else if size ≠ 0 ∧ offset + size > self.contents.length then
    .error (.error .io)
  else
    .ok ((self.contents.drop offset).take size)

def loadMetadata (self : SSTableReader) : Result SSTableReader :=
  if self.contents.length < footerSize then
    .error (.error (.corruption
      "\n                File too small to contain footer\n                "))
  else do
    let footer ← self.readAt (self.contents.length - footerSize) footerSize
    let metadata ← decodeFrom footer readFooter
    .ok { self with
      metadata := { metadata with
        minKey := self.metadata.minKey
        maxKey := self.metadata.maxKey } }

/-- The key range is set from the first and the last index entry. -/
def loadIndex (self : SSTableReader) : Result SSTableReader := do
  let indexOffset ← checkedAdd self.metadata.bloomOffset self.metadata.bloomSize
  let indexData ← self.readAt indexOffset self.metadata.indexSize
  let index ← decodeFrom indexData readIndex
  .ok { self with
    index
    metadata := { self.metadata with
      minKey := (index.head?.map IndexEntry.key).getD self.metadata.minKey
      maxKey := (index.getLast?.map IndexEntry.key).getD self.metadata.maxKey } }

def loadBloomFilter (self : SSTableReader) : Result SSTableReader :=
  if self.metadata.bloomSize = 0 then
    .ok self
  else do
    let bloomData ← self.readAt self.metadata.bloomOffset self.metadata.bloomSize
    let bloomFilter ← BloomFilter.fromBytes bloomData
    .ok { self with bloomFilter := some bloomFilter }

/-- The part of `open` that recovers the metadata and the index. -/
def recover (path : FileName) (contents : Bytes) (mapped : Bool) : Result SSTableReader := do
  let described ← (fresh path contents mapped).loadMetadata
  described.loadIndex

/-- open an sstable file for reading -/
def openFile (path : FileName) (contents : Bytes) (mapped : Bool) : Result SSTableReader := do
  let reader ← recover path contents mapped
  reader.loadBloomFilter

/-- A read on a table: it may change the block cache. -/
abbrev Read (α : Type) := EStateM Fault SSTableReader α

/-- `key < index[position].key` -/
def keyBelow (self : SSTableReader) (key : Key) (position : Nat) : Bool :=
  match self.index[position]? with
  | some entry => decide (key < entry.key)
  | none => false

def findBlockForKey (self : SSTableReader) (key : Key) : Option Nat :=
  let left := BinarySearch.cut (self.keyBelow key) self.index.length 0 self.index.length
  if left > 0 then
    some (left - 1)
  else
    match self.index.head? with
    | some first => if first.key ≤ key then some 0 else none
    | none => none

/-- Cache a block; past a hundred blocks the cache is cleared. -/
def cacheBlock (self : SSTableReader) (offset : Nat) (data : Bytes) : SSTableReader :=
  let cache := self.blockCache.insert offset data
  { self with blockCache := if cache.entries.length > 100 then ∅ else cache }

def readBlock (indexEntry : IndexEntry) : Read Bytes := do
  let self ← get
  match self.blockCache.lookup indexEntry.offset with
  | some cached => pure cached
  | none => do
      let stored ← lift (self.readAt indexEntry.offset indexEntry.size)
      let data ← lift (unpackBlock external self.metadata.compression stored)
      modify fun self => self.cacheBlock indexEntry.offset data
      pure data

/-- The steps of `get` after the bloom check. -/
def lookup (key : Key) : Read (Option Entry) := do
  let self ← get
  match self.findBlockForKey key with
  | none => pure none
  | some position =>
      match self.index[position]? with
      | none => throw .panic
      | some indexEntry => do
          let data ← readBlock external indexEntry
          lift (searchInBlock data key)

/-- check if a key might exist -/
def mightContain (self : SSTableReader) (key : Key) : Result Bool :=
  match self.bloomFilter with
  | some bloom => bloom.mightContain external key
  | none => .ok true

/-- get an entry by key -/
def get (key : Key) : Read (Option Entry) := do
  let self ← MonadState.get
  let maybe ← lift (self.mightContain external key)
  if maybe then lookup external key else pure none

/-- The loop of `range`, over the positions still to come. -/
def rangeBlocks (start stop : Key) : (positions : List Nat) → Read (List Entry)
  | [] => pure []
  | position :: positions => do
      let self ← MonadState.get
      match self.index[position]? with
      | none => throw .panic
      | some indexEntry =>
          if stop ≤ indexEntry.key then
            pure []
          else do
            let data ← readBlock external indexEntry
            let entries ← lift (getEntriesInRangeFromBlock data start stop)
            let results ← rangeBlocks start stop positions
            pure (entries ++ results)

/-- The positions run up to `end.len()`, the length of the end key. -/
def range (start stop : Key) : Read (List Entry) := do
  let self ← MonadState.get
  let startBlock := (self.findBlockForKey start).getD 0
  rangeBlocks external start stop (List.range' startBlock (stop.length - startBlock))

end SSTableReader

/-! ## The iterator -/

/-- `current_block` counts on past the last block, one for each further call. -/
structure SSTableIterator where
  reader : SSTableReader
  currentBlock : Nat
  currentEntry : Nat
  currentBlockData : Option Bytes
  currentBlockEntries : List Entry

namespace SSTableIterator

variable (external : External)

def new (reader : SSTableReader) : SSTableIterator where
  reader
  currentBlock := 0
  currentEntry := 0
  currentBlockData := none
  currentBlockEntries := []

/-- A read on the table under the iterator. -/
def onReader {α : Type} (read : SSTableReader.Read α) : EStateM Fault SSTableIterator α :=
  fun self =>
    match read self.reader with
    | .ok value reader => .ok value { self with reader }
    | .error fault reader => .error fault { self with reader }

def loadCurrentBlock : EStateM Fault SSTableIterator Unit := do
  let self ← get
  match self.reader.index[self.currentBlock]? with
  | none => pure ()
  | some indexEntry => do
      let data ← onReader (SSTableReader.readBlock external indexEntry)
      let entries ← lift (parseBlock data)
      modify fun self => { self with
        currentBlockData := some data
        currentBlockEntries := entries
        currentEntry := 0 }

/-- Load the current block unless it is loaded. -/
def ensureBlock : EStateM Fault SSTableIterator Unit := do
  let self ← get
  if self.currentBlockData.isNone then loadCurrentBlock external else pure ()

/-- Leave the current block for the next one. -/
def advance (self : SSTableIterator) : SSTableIterator :=
  { self with
    currentBlock := self.currentBlock + 1
    currentBlockData := none
    currentBlockEntries := [] }

/-- The loop of `next`; each turn leaves a block, so the number of blocks still to
come bounds the turns. -/
def nextLoop : (fuel : Nat) → EStateM Fault SSTableIterator (Option Entry)
  | 0 => pure none
  | fuel + 1 => do
      ensureBlock external
      let self ← get
      match self.currentBlockEntries[self.currentEntry]? with
      | some entry => do
          set { self with currentEntry := self.currentEntry + 1 }
          pure (some entry)
      | none => do
          set self.advance
          if self.reader.index.length ≤ self.currentBlock + 1 then
            pure none
          else
            nextLoop fuel

/-- One call of `next`: an error is an item, and a panic is kept apart in it. -/
def next (self : SSTableIterator) : Option (Result Entry) × SSTableIterator :=
  match nextLoop external (self.reader.index.length + 1) self with
  | .ok none reached => (none, reached)
  | .ok (some entry) reached => (some (.ok entry), reached)
  | .error fault reached => (some (.error fault), reached)

/-- The iterator after some calls of `next`. -/
def advanced (self : SSTableIterator) : (calls : Nat) → SSTableIterator
  | 0 => self
  | calls + 1 => ((self.next external).2).advanced calls

/-- What the call of `next` with a given number returns, counting from zero. -/
def item (self : SSTableIterator) (call : Nat) : Option (Result Entry) :=
  ((self.advanced external call).next external).1

/-- What a loop over the iterator sees, up to the first error; `fuel` bounds the calls
of `next`. -/
def items (self : SSTableIterator) : (fuel : Nat) → List (Result Entry)
  | 0 => []
  | fuel + 1 =>
      match self.next external with
      | (none, _) => []
      | (some (.ok entry), reached) => .ok entry :: reached.items fuel
      | (some (.error fault), _) => [.error fault]

end SSTableIterator

end JustDb

import JustDb.Bloom
import JustDb.SSTable.Format

/-!
# Writing a table file

`SSTableWriter` and `SSTableBuilder`.  What the file system does with the file
being written is a parameter, `Output`; the bytes that reached the file are kept
in a `Sink`, whether or not the build returns `Ok`.
-/

namespace JustDb

open Stateful

/-! ## The file being written -/

/-- How the file system treats one new file: whether it can be created, whether the
`call`-th write may grow it to a given length, and whether it can be synced. -/
structure Output where
  opens : Bool
  accepts : (call length : Nat) → Bool
  syncs : Bool

/-- `i64::MAX`, the largest file offset; `isize::MAX` is the same number. -/
def maxFileSize : Nat := 9223372036854775807

/-- No file system grows a file past the largest file offset. -/
def Output.Bounded (output : Output) : Prop :=
  ∀ call length, output.accepts call length = true → length ≤ maxFileSize

/-- The file system refuses to create the file, to sync it, or to let it grow to some
length up to a limit. -/
def Output.Refuses (output : Output) (limit : Nat) : Prop :=
  output.opens = false ∨ output.syncs = false ∨
    ∃ call length, length ≤ limit ∧ output.accepts call length = false

/-- A file system that refuses nothing. -/
def Output.reliable : Output where
  opens := true
  accepts _ _ := true
  syncs := true

/-- A file system that refuses nothing but files past the largest offset. -/
def Output.spacious : Output where
  opens := true
  accepts _ length := decide (length ≤ maxFileSize)
  syncs := true

theorem Output.spacious_bounded : Output.spacious.Bounded :=
  fun _ _ accepted => of_decide_eq_true accepted

theorem Output.not_refuses_spacious {limit : Nat} (fits : limit ≤ maxFileSize) :
    ¬ Output.spacious.Refuses limit := by
  rintro (closed | unsynced | ⟨call, length, small, full⟩)
  · cases closed
  · cases unsynced
  · exact of_decide_eq_false full (le_trans small fits)

/-- A file and the bytes written to it.  `refused` records a failed I/O call. -/
structure Sink where
  output : Output
  written : Bytes := []
  calls : Nat := 0
  refused : Bool := false

namespace Sink

/-- `OpenOptions::new().create(true).write(true).truncate(true).open(&path)` -/
def create : EStateM Fault Sink Unit := fun sink =>
  if sink.output.opens then .ok () sink
  else .error (.error .io) { sink with refused := true }

/-- The file after a write that went through. -/
def grown (sink : Sink) (data : Bytes) : Sink :=
  { sink with written := sink.written ++ data, calls := sink.calls + 1 }

/-- The file after a write that did not: a refused write counts as a call, so a write
that is tried again is another call. -/
def turnedAway (sink : Sink) : Sink :=
  { sink with refused := true, calls := sink.calls + 1 }

def writeAll (data : Bytes) : EStateM Fault Sink Unit := fun sink =>
  if sink.output.accepts sink.calls (sink.grown data).written.length then
    .ok () (sink.grown data)
  else .error (.error .io) sink.turnedAway

/-- The final `flush`, `into_inner` and `sync_all`. -/
def sync : EStateM Fault Sink Unit := fun sink =>
  if sink.output.syncs then .ok () sink
  else .error (.error .io) { sink with refused := true }

end Sink

/-! ## The bytes of a table -/

/-- Write one entry: sizes are narrowed to 32 bits. -/
def serializerEntry (serializer : Serializer) (entry : Entry) : Serializer :=
  let keyed := (serializer.writeU32 entry.key.length.toUInt32).writeBytes entry.key
  let valued :=
    match entry.value with
    | some value => ((keyed.writeU8 1).writeU32 value.length.toUInt32).writeBytes value
    | none => keyed.writeU8 0
  (valued.writeU64 entry.timestamp).writeU64 entry.sequence

/-- The bytes of one entry in a block. -/
def entryBytes (entry : Entry) : Bytes :=
  (serializerEntry {} entry).finish

/-- An uncompressed block: the number of its entries before their bytes. -/
def blockData (count : Nat) (body : Bytes) : Bytes :=
  (({} : Serializer).writeU32 count.toUInt32).finish ++ body

def compressBlock (external : External) (compression : CompressionType) (level : Int)
    (data : Bytes) : Result Bytes :=
  match compression with
  | .none => .ok data
  | .lz4 => .ok (external.lz4Compress data)
  | .zstd =>
      match external.zstdCompress data level with
      | .ok compressed => .ok compressed
      | .error reason =>
          .error (.error (.compression ("Zstd compression failed: " ++ reason)))

def serializeIndexEntry (serializer : Serializer) (entry : IndexEntry) : Serializer :=
  (((serializer.writeU32 entry.key.length.toUInt32).writeBytes entry.key).writeU64
    entry.offset.toUInt64).writeU64 entry.size.toUInt64

def serializeIndex (index : List IndexEntry) : Bytes :=
  (index.foldl serializeIndexEntry
    (({} : Serializer).writeU32 index.length.toUInt32)).finish

def compressionByte : CompressionType → UInt8
  | .none => 0
  | .lz4 => 1
  | .zstd => 2

/-- The fields of the footer, without its padding. -/
def footerData (entryCount dataSize indexSize bloomOffset bloomSize : Nat)
    (createdAt : Timestamp) (compression : CompressionType) : Bytes :=
  let sizes := ((({} : Serializer).writeU64 entryCount.toUInt64).writeU64
    dataSize.toUInt64).writeU64 indexSize.toUInt64
  let located := (sizes.writeU64 bloomOffset.toUInt64).writeU64 bloomSize.toUInt64
  let dated := (located.writeU64 createdAt).writeU8 (compressionByte compression)
  ((dated.writeU32 sstableVersion).writeU32 sstableMagic).finish

/-! ## The writer -/

structure SSTableWriter where
  writer : Sink
  position : Nat
  currentBlock : Bytes
  currentBlockEntries : Nat
  index : List IndexEntry
  bloomFilter : BloomFilter
  compression : CompressionType
  compressionLevel : Int
  entryCount : Nat
  minKey : Option Key
  maxKey : Option Key
  createdAt : Timestamp

namespace SSTableWriter

/-- A call on a writer. -/
abbrev Writing (α : Type) := EStateM Fault SSTableWriter α

variable (external : External)

/-- Create the file, then the filter. -/
def new (expectedEntries : Nat) (compression : CompressionType) (compressionLevel : Int)
    (bloomFalsePositiveRate : Float64) (createdAt : Timestamp) :
    EStateM Fault Sink SSTableWriter := do
  Sink.create
  let sink ← get
  let bloomFilter ← lift (BloomFilter.new external expectedEntries bloomFalsePositiveRate)
  pure
    { writer := sink, position := 0, currentBlock := [], currentBlockEntries := 0,
      index := [], bloomFilter, compression, compressionLevel, entryCount := 0,
      minKey := none, maxKey := none, createdAt }

/-- Act on the file and leave the rest of the writer alone. -/
def onWriter (action : EStateM Fault Sink Unit) : Writing Unit := fun self =>
  match action self.writer with
  | .ok () writer => .ok () { self with writer }
  | .error fault writer => .error fault { self with writer }

/-- `self.writer.write_all(data)?; self.position += data.len()` -/
def emit (data : Bytes) : Writing Unit := do
  onWriter (Sink.writeAll data)
  let self ← get
  let position ← lift (checkedAdd self.position data.length)
  set { self with position }

/-- `last_mut().size = size` -/
def setLastSize (size : Nat) : List IndexEntry → List IndexEntry
  | [] => []
  | [last] => [{ last with size }]
  | entry :: entries => entry :: setLastSize size entries

/-- The writer after the current block has gone to the file. -/
def blockFlushed (self : SSTableWriter) (size : Nat) : SSTableWriter :=
  { self with
    index := setLastSize size self.index
    currentBlock := []
    currentBlockEntries := 0 }

def flushCurrentBlock : Writing Unit := do
  let self ← get
  if self.currentBlock.isEmpty then
    pure ()
  else do
    let compressed ← lift (compressBlock external self.compression self.compressionLevel
      (blockData self.currentBlockEntries self.currentBlock))
    emit (LittleEndian.encode 4 (external.crc32 compressed).toNat)
    emit compressed
    let size ← lift (checkedAdd compressed.length 4)
    modify fun self => self.blockFlushed size

/-- Keys come in strictly ascending order. -/
def checkOrder (key : Key) : Writing Unit := do
  let self ← get
  match self.maxKey with
  | some maxKey =>
      if key ≤ maxKey then
        throw (.error (.invalidOperation "keys must be added in sorted order"))
      else
        pure ()
  | none => pure ()

/-- Update the key range and the bloom filter. -/
def noteKey (key : Key) : Writing Unit := do
  let self ← get
  let bloomFilter ← lift (self.bloomFilter.add external key)
  set { self with
    minKey := if self.minKey.isNone then some key else self.minKey
    maxKey := some key
    bloomFilter }

/-- A block that has entries and no room for one more goes to the file. -/
def makeRoom (entryData : Bytes) : Writing Unit := do
  let self ← get
  let needed ← lift (checkedAdd self.currentBlock.length entryData.length)
  if needed > blockSize ∧ self.currentBlockEntries > 0 then
    flushCurrentBlock external
  else
    pure ()

/-- The first entry of a block is recorded in the index; its size comes later. -/
def noteBlock (self : SSTableWriter) (key : Key) : SSTableWriter :=
  if self.currentBlockEntries = 0 then
    { self with index := self.index ++ [{ key, offset := self.position, size := 0 }] }
  else
    self

def appendEntry (key : Key) (entryData : Bytes) : Writing Unit := do
  modify fun self => self.noteBlock key
  let self ← get
  let currentBlockEntries ← lift (checkedAdd self.currentBlockEntries 1)
  let entryCount ← lift (checkedAdd self.entryCount 1)
  set { self with
    currentBlock := self.currentBlock ++ entryData
    currentBlockEntries
    entryCount }

def add (entry : Entry) : Writing Unit := do
  checkOrder entry.key
  noteKey external entry.key
  makeRoom external (entryBytes entry)
  appendEntry entry.key (entryBytes entry)

/-- write the file footer, padded to its fixed size -/
def writeFooter (dataSize indexSize bloomOffset bloomSize : Nat) : Writing Unit := do
  let self ← get
  let footer := footerData self.entryCount dataSize indexSize bloomOffset bloomSize
    self.createdAt self.compression
  if footer.length > footerSize then
    throw (.error (.corruption ("Footer too large: " ++ toString footer.length ++
      " bytes (max: " ++ toString footerSize ++ ")")))
  else
    onWriter (Sink.writeAll (footer ++ List.replicate (footerSize - footer.length) 0))

/-- finalize the SStable and write metadata -/
def finish : Writing SStableMeta := do
  flushCurrentBlock external
  let flushed ← get
  let bloomData := flushed.bloomFilter.toBytes
  emit bloomData
  let indexData := serializeIndex flushed.index
  emit indexData
  writeFooter flushed.position indexData.length flushed.position bloomData.length
  onWriter Sink.sync
  pure
    { entryCount := flushed.entryCount, dataSize := flushed.position,
      indexSize := indexData.length, bloomOffset := flushed.position,
      bloomSize := bloomData.length, minKey := flushed.minKey.getD [],
      maxKey := flushed.maxKey.getD [], compression := flushed.compression,
      createdAt := flushed.createdAt, version := sstableVersion }

/-- `for entry in entries { writer.add(&entry)?; } writer.finish()` -/
def addAll (entries : List Entry) : Writing SStableMeta := do
  entries.forM (add external)
  finish external

/-- Use up a writer: what remains is its file. -/
def consume {α : Type} (self : SSTableWriter) (action : Writing α) : EStateM Fault Sink α :=
  fun _ =>
    match action self with
    | .ok value reached => .ok value reached.writer
    | .error fault reached => .error fault reached.writer

end SSTableWriter

/-- builder for creating sstable from iterator -/
structure SSTableBuilder where
  compression : CompressionType := .lz4
  compressionLevel : Int := 1
  bloomFalsePositiveRate : Float64 := .finite (1 / 100)
  deriving DecidableEq, Repr

namespace SSTableBuilder

variable (external : External)

/-- build an sstable from an iterator of entries; `createdAt` is the time at which
the writer is created -/
def build (self : SSTableBuilder) (createdAt : Timestamp) (entries : List Entry) :
    EStateM Fault Sink SStableMeta := do
  let writer ← SSTableWriter.new external entries.length self.compression
    self.compressionLevel self.bloomFalsePositiveRate createdAt
  writer.consume (SSTableWriter.addAll external entries)

/-- Sort by key; the sort is stable. -/
def sortedByKey (entries : List Entry) : List Entry :=
  entries.insertionSort fun left right => left.key ≤ right.key

/-- build an sstable from a vector of entries -/
def buildFromVec (self : SSTableBuilder) (createdAt : Timestamp) (entries : List Entry) :
    EStateM Fault Sink SStableMeta :=
  self.build external createdAt (sortedByKey entries)

end SSTableBuilder

end JustDb

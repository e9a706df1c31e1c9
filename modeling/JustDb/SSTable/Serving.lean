import JustDb.SSTable.Recovery

/-!
# Reading blocks back

A reader serves a list of blocks when its index locates them in its file, each can
be unpacked and parsed, and its cache holds nothing but such blocks.  Reading a
block keeps this, so what was read before never shows in what is read next.
-/

namespace JustDb

open Stateful

/-! ## Where a block stands -/

/-- The offset of the block at a position. -/
def offsetOf (stored : List Entry → Bytes) (groups : List (List Entry)) (position : Nat) : Nat :=
  ((groups.take position).flatMap stored).length

/-- The index entry of the block at a position. -/
def locate (stored : List Entry → Bytes) (groups : List (List Entry)) (position : Nat)
    (group : List Entry) : IndexEntry where
  key := firstKey group
  offset := offsetOf stored groups position
  size := (stored group).length

theorem indexFrom_getElem? (stored : List Entry → Bytes) (offset : Nat)
    (groups : List (List Entry)) (position : Nat) :
    (indexFrom stored offset groups)[position]? =
      groups[position]?.map fun group =>
        { key := firstKey group, offset := offset + offsetOf stored groups position,
          size := (stored group).length } := by
  induction groups generalizing offset position with
  | nil => rfl
  | cons group groups ih =>
      cases position with
      | zero => rfl
      | succ position =>
          rw [indexFrom, List.getElem?_cons_succ, List.getElem?_cons_succ, ih]
          simp only [offsetOf, List.take_succ_cons, List.flatMap_cons, List.length_append,
            Nat.add_assoc]

/-- The index locates each block. -/
theorem indexFrom_zero_getElem? (stored : List Entry → Bytes) (groups : List (List Entry))
    (position : Nat) :
    (indexFrom stored 0 groups)[position]? =
      groups[position]?.map (locate stored groups position) := by
  rw [indexFrom_getElem?]
  simp only [Nat.zero_add]
  rfl

theorem indexFrom_take (stored : List Entry → Bytes) (offset : Nat) (groups : List (List Entry))
    (count : Nat) :
    (indexFrom stored offset groups).take count = indexFrom stored offset (groups.take count) := by
  induction groups generalizing offset count with
  | nil => simp [indexFrom]
  | cons group groups ih =>
      cases count with
      | zero => rfl
      | succ count => rw [indexFrom, List.take_succ_cons, List.take_succ_cons, ih, indexFrom]

/-- A block stands at its offset, in front of the blocks behind it. -/
theorem flatMap_split {stored : List Entry → Bytes} {groups : List (List Entry)} {position : Nat}
    {group : List Entry} (at_ : groups[position]? = some group) :
    groups.flatMap stored = (groups.take position).flatMap stored ++
      (stored group ++ (groups.drop (position + 1)).flatMap stored) := by
  obtain ⟨inside, rfl⟩ := List.getElem?_eq_some_iff.mp at_
  rw [← List.flatMap_cons, ← List.drop_eq_getElem_cons inside, ← List.flatMap_append,
    List.take_append_drop]

/-- Offsets grow from block to block. -/
theorem offsetOf_lt {stored : List Entry → Bytes} {groups : List (List Entry)}
    (nonempty : ∀ group ∈ groups, stored group ≠ []) {left right : Nat} (below : left < right)
    (inside : right ≤ groups.length) :
    offsetOf stored groups left < offsetOf stored groups right := by
  induction right with
  | zero => exact absurd below (Nat.not_lt_zero _)
  | succ right ih =>
      have here : right < groups.length := inside
      have grown : offsetOf stored groups (right + 1) =
          offsetOf stored groups right + (stored groups[right]).length := by
        rw [offsetOf, List.take_succ_eq_append_getElem here, List.flatMap_append,
          List.length_append]
        simp [offsetOf]
      have positive : 0 < (stored groups[right]).length :=
        List.length_pos_iff.mpr (nonempty _ (List.getElem_mem here))
      rcases Nat.lt_or_ge left right with earlier | same
      · have lower := ih earlier (Nat.le_of_lt here)
        omega
      · have equal : left = right := by omega
        rw [equal]
        omega

theorem offsetOf_injective {stored : List Entry → Bytes} {groups : List (List Entry)}
    (nonempty : ∀ group ∈ groups, stored group ≠ []) {left right : Nat}
    (leftInside : left ≤ groups.length) (rightInside : right ≤ groups.length)
    (same : offsetOf stored groups left = offsetOf stored groups right) : left = right := by
  rcases Nat.lt_trichotomy left right with below | equal | above
  · exact absurd same (offsetOf_lt nonempty below rightInside).ne
  · exact equal
  · exact absurd same (offsetOf_lt nonempty above leftInside).ne'

/-! ## The blocks of an index -/

/-- The blocks that the 32-bit count of a table's index covers. -/
def indexedBlocks (entries : List Entry) : List (List Entry) :=
  (splitBlocks entries).take ((splitBlocks entries).length % u32Size)

theorem indexedBlocks_prefix_splitBlocks (entries : List Entry) :
    indexedBlocks entries <+: splitBlocks entries :=
  List.take_prefix _ _

theorem indexedBlocks_of_lt {entries : List Entry} (few : (splitBlocks entries).length < u32Size) :
    indexedBlocks entries = splitBlocks entries := by
  rw [indexedBlocks, Nat.mod_eq_of_lt few, List.take_length]

theorem ne_nil_of_mem_indexedBlocks {entries group : List Entry}
    (member : group ∈ indexedBlocks entries) : group ≠ [] :=
  ne_nil_of_mem_splitBlocks ((indexedBlocks_prefix_splitBlocks entries).subset member)

/-- The indexed blocks hold a front part of the entries. -/
theorem flatten_indexedBlocks_prefix_entries (entries : List Entry) :
    (indexedBlocks entries).flatten <+: entries := by
  obtain ⟨rest, whole⟩ := indexedBlocks_prefix_splitBlocks entries
  refine ⟨rest.flatten, ?_⟩
  rw [← List.flatten_append, whole, flatten_splitBlocks]

theorem ascending_indexedBlocks {entries : List Entry} (ascending : Ascending entries) :
    Ascending (indexedBlocks entries).flatten :=
  ascending.sublist (flatten_indexedBlocks_prefix_entries entries).sublist

/-- The blocks of entries within the engine's limits can be taken apart. -/
theorem parsable_of_mem_indexedBlocks {entries group : List Entry}
    (limits : ∀ entry ∈ entries, entry.WithinLimits) (member : group ∈ indexedBlocks entries) :
    Parsable group := by
  have held := (indexedBlocks_prefix_splitBlocks entries).subset member
  apply (fits_of_mem_splitBlocks held).parsable
  intro entry inside
  exact limits entry (mem_of_mem_splitBlocks held inside)

namespace SSTableReader

variable {external : External}

/-- The reader serves the blocks `groups`, stored one after another from the start of
its file. -/
structure Serves (external : External) (reader : SSTableReader) (stored : List Entry → Bytes)
    (groups : List (List Entry)) : Prop where
  index : reader.index = indexFrom stored 0 groups
  contents : groups.flatMap stored <+: reader.contents
  bounded : reader.contents.length ≤ maxFileSize
  unpack : ∀ group ∈ groups, unpackBlock external reader.metadata.compression (stored group) =
    .ok (blockBytes group)
  parsable : ∀ group ∈ groups, Parsable group
  cached : ∀ offset data, reader.blockCache.lookup offset = some data →
    ∃ position group, groups[position]? = some group ∧
      offset = offsetOf stored groups position ∧ data = blockBytes group
  small : reader.blockCache.entries.length ≤ 100

variable {reader : SSTableReader} {stored : List Entry → Bytes} {groups : List (List Entry)}

/-- A block that can be unpacked has its checksum. -/
theorem Serves.stored_ne_nil (serves : Serves external reader stored groups) :
    ∀ group ∈ groups, stored group ≠ [] := by
  intro group member empty
  have unpacked := serves.unpack group member
  rw [empty, unpackBlock, if_pos (by decide)] at unpacked
  cases unpacked

theorem Serves.index_getElem? (serves : Serves external reader stored groups) (position : Nat) :
    reader.index[position]? = groups[position]?.map (locate stored groups position) := by
  rw [serves.index, indexFrom_zero_getElem?]

/-- The bytes of a block are read from its place. -/
theorem readAt_offsetOf (contents : groups.flatMap stored <+: reader.contents)
    (bounded : reader.contents.length ≤ maxFileSize) {position : Nat} {group : List Entry}
    (at_ : groups[position]? = some group) :
    reader.readAt (offsetOf stored groups position) (stored group).length =
      .ok (stored group) := by
  obtain ⟨rest, contents⟩ := contents
  rw [flatMap_split at_, List.append_assoc, List.append_assoc] at contents
  exact readAt_section contents.symm bounded

theorem Serves.readAt (serves : Serves external reader stored groups) {position : Nat}
    {group : List Entry} (at_ : groups[position]? = some group) :
    reader.readAt (offsetOf stored groups position) (stored group).length =
      .ok (stored group) :=
  readAt_offsetOf serves.contents serves.bounded at_

/-- Caching a block that was read keeps the reader serving. -/
theorem Serves.cacheBlock (serves : Serves external reader stored groups) {position : Nat}
    {group : List Entry} (at_ : groups[position]? = some group) :
    Serves external (reader.cacheBlock (offsetOf stored groups position) (blockBytes group))
      stored groups := by
  refine ⟨serves.index, serves.contents, serves.bounded, serves.unpack, serves.parsable, ?_, ?_⟩
  · intro offset data found
    simp only [SSTableReader.cacheBlock] at found
    split at found
    · cases found
    · by_cases same : offset = offsetOf stored groups position
      · rw [same, AList.lookup_insert] at found
        cases found
        exact ⟨position, group, at_, same, rfl⟩
      · rw [AList.lookup_insert_ne same] at found
        exact serves.cached offset data found
  · simp only [SSTableReader.cacheBlock]
    split
    · exact Nat.zero_le _
    next room => exact not_lt.mp room

/-- Reading an indexed block returns its bytes, cached or not. -/
theorem Serves.readBlock (serves : Serves external reader stored groups) {position : Nat}
    {group : List Entry} (at_ : groups[position]? = some group) :
    ∃ after, SSTableReader.readBlock external (locate stored groups position group) reader =
        .ok (blockBytes group) after ∧ Serves external after stored groups := by
  rw [SSTableReader.readBlock, bind_of_ok (get_apply reader)]
  cases held : reader.blockCache.lookup (locate stored groups position group).offset with
  | some cached =>
      obtain ⟨other, found, otherAt, same, rfl⟩ := serves.cached _ _ held
      have inside := (List.getElem?_eq_some_iff.mp at_).1
      have otherInside := (List.getElem?_eq_some_iff.mp otherAt).1
      have equal := offsetOf_injective serves.stored_ne_nil inside.le otherInside.le same
      rw [← equal, at_] at otherAt
      cases otherAt
      exact ⟨reader, rfl, serves⟩
  | none =>
      have member := List.mem_of_getElem? at_
      refine ⟨_, ?_, serves.cacheBlock at_⟩
      simp only [locate, serves.readAt at_, serves.unpack group member, bind_eq, lift_ok,
        modify_apply, pure_apply]

/-! ## Serving a finished table -/

/-- Bytes behind their own checksum are handed to the decompressor. -/
theorem unpackBlock_checked (compression : CompressionType) (compressed : Bytes) :
    unpackBlock external compression
        (LittleEndian.encode 4 (external.crc32 compressed).toNat ++ compressed) =
      decompressBlock external compression compressed := by
  have checksum : (LittleEndian.decode (LittleEndian.encode 4
      (external.crc32 compressed).toNat)).toUInt32 = external.crc32 compressed := by
    have small : (external.crc32 compressed).toNat < 256 ^ 4 := UInt32.toNat_lt _
    rw [LittleEndian.decode_encode, Nat.mod_eq_of_lt small]
    exact UInt32.ofNat_toNat
  have taken : (LittleEndian.encode 4 (external.crc32 compressed).toNat ++ compressed).take 4 =
      LittleEndian.encode 4 (external.crc32 compressed).toNat :=
    List.take_left' (LittleEndian.encode_length _ _)
  have dropped : (LittleEndian.encode 4 (external.crc32 compressed).toNat ++ compressed).drop 4 =
      compressed := List.drop_left' (LittleEndian.encode_length _ _)
  have long : ¬ (LittleEndian.encode 4 (external.crc32 compressed).toNat ++ compressed).length <
      4 := by
    rw [List.length_append, LittleEndian.encode_length]
    omega
  rw [unpackBlock, if_neg long, taken, dropped, checksum, if_neg (not_not.mpr rfl)]

/-- Without Zstandard, decompression undoes compression. -/
theorem decompressBlock_compressBlock {compression : CompressionType} {level : Int}
    {data compressed : Bytes} (plain : compression ≠ .zstd)
    (roundTrips : external.Lz4RoundTrips)
    (made : compressBlock external compression level data = .ok compressed) :
    decompressBlock external compression compressed = .ok data := by
  cases compression with
  | none =>
      cases made
      rfl
  | lz4 =>
      cases made
      rw [decompressBlock, roundTrips]
  | zstd => exact absurd rfl plain

/-- A block that was stored unpacks to what it was made from. -/
theorem unpackBlock_storedBlock {compression : CompressionType} (plain : compression ≠ .zstd)
    (roundTrips : external.Lz4RoundTrips) (level : Int) (group : List Entry) :
    unpackBlock external compression (storedBlock external compression level group) =
      .ok (blockBytes group) := by
  obtain ⟨compressed, made⟩ : ∃ compressed,
      compressBlock external compression level (blockBytes group) = .ok compressed :=
    SSTableWriter.compressible plain level _
  rw [storedBlock, made, unpackBlock_checked]
  exact decompressBlock_compressBlock plain roundTrips made

/-- The numbers and keys of an index fit their fields. -/
theorem encodable_of_keys {entry : IndexEntry}
    (keys : ∀ group ∈ groups, ∀ entry ∈ group, entry.key.length < u32Size)
    (addressable : (groups.flatMap stored).length < wordSize)
    (member : entry ∈ indexFrom stored 0 groups) : entry.Encodable := by
  obtain ⟨position, found⟩ := List.getElem?_of_mem member
  rw [indexFrom_zero_getElem?] at found
  obtain ⟨group, at_, rfl⟩ := Option.map_eq_some_iff.mp found
  have total : (groups.flatMap stored).length = _ := congrArg List.length (flatMap_split at_)
  rw [List.length_append, List.length_append] at total
  have keyLimit : (firstKey group).length < u32Size := by
    cases inside : group with
    | nil => exact (by decide : 0 < u32Size)
    | cons first rest => exact keys group (List.mem_of_getElem? at_) first (by rw [inside]; simp)
  constructor
  · exact keyLimit
  · change ((groups.take position).flatMap stored).length < wordSize
    omega
  · change (stored group).length < wordSize
    omega

theorem encodable_of_mem_indexFrom {entry : IndexEntry}
    (limits : ∀ group ∈ groups, ∀ entry ∈ group, entry.WithinLimits)
    (addressable : (groups.flatMap stored).length < wordSize)
    (member : entry ∈ indexFrom stored 0 groups) : entry.Encodable :=
  encodable_of_keys (fun group held entry inside => (limits group held entry inside).encodable.key)
    addressable member

/-- A reader that has just been recovered from a file that starts with the blocks
`groups`. -/
structure Recovered (reader : SSTableReader) (stored : List Entry → Bytes)
    (groups : List (List Entry)) : Prop where
  index : reader.index = indexFrom stored 0 groups
  contents : groups.flatMap stored <+: reader.contents
  bounded : reader.contents.length ≤ maxFileSize
  fresh : reader.blockCache = ∅

/-- A recovered reader serves blocks that it can unpack and parse. -/
theorem Recovered.serves (recovered : Recovered reader stored groups)
    (unpack : ∀ group ∈ groups, unpackBlock external reader.metadata.compression (stored group) =
      .ok (blockBytes group))
    (parsable : ∀ group ∈ groups, Parsable group) : Serves external reader stored groups := by
  refine ⟨recovered.index, recovered.contents, recovered.bounded, unpack, parsable, ?_, ?_⟩
  · intro offset data found
    rw [recovered.fresh] at found
    cases found
  · rw [recovered.fresh]
    exact Nat.zero_le _

/-- The reader of a finished file has the blocks that its index counts. -/
theorem recovered_of_fileBytes {entries : List Entry} {file bloom : Bytes} {entryCount : Nat}
    {createdAt : Timestamp} {compression : CompressionType} (path : FileName) (mapped : Bool)
    (written : file = fileBytes ((splitBlocks entries).flatMap stored) bloom
      (serializeIndex (indexFrom stored 0 (splitBlocks entries))) entryCount createdAt compression)
    (bounded : file.length ≤ maxFileSize)
    (addressable : ((splitBlocks entries).flatMap stored).length + bloom.length +
      (serializeIndex (indexFrom stored 0 (splitBlocks entries))).length < wordSize)
    (keys : ∀ entry ∈ entries, entry.key.length < u32Size) :
    ∃ reader, recover path file mapped = .ok reader ∧
      reader.metadata.compression = compression ∧
        Recovered reader stored (indexedBlocks entries) := by
  have grouped : ∀ group ∈ splitBlocks entries, ∀ entry ∈ group, entry.key.length < u32Size :=
    fun group member entry inside => keys entry (mem_of_mem_splitBlocks member inside)
  obtain ⟨reader, recovered, contents, compressed, index, cache⟩ :=
    recover_fileBytes path mapped written bounded addressable
      fun entry member => encodable_of_keys grouped (by omega) member
  refine ⟨reader, recovered, compressed, ?_, ?_, ?_, cache⟩
  · rw [index, indexFrom_length, indexFrom_take, indexedBlocks]
  · obtain ⟨rest, whole⟩ := indexedBlocks_prefix_splitBlocks entries
    rw [contents, written, fileBytes, ← whole, List.flatMap_append, List.append_assoc]
    exact List.prefix_append _ _
  · rw [contents]
    exact bounded

/-- A reader recovered from a finished table serves its blocks, as many of them as the
32-bit count of the index says. -/
theorem serves_of_built {builder : SSTableBuilder} {createdAt : Timestamp}
    {entries : List Entry} {sink : Sink} {bloomFilter : BloomFilter}
    (built : SSTableBuilder.Built external builder createdAt entries sink bloomFilter)
    (bounded : sink.written.length ≤ maxFileSize) (plain : builder.compression ≠ .zstd)
    (roundTrips : external.Lz4RoundTrips) (limits : ∀ entry ∈ entries, entry.WithinLimits)
    (path : FileName) (mapped : Bool) :
    ∃ reader, recover path sink.written mapped = .ok reader ∧
      Serves external reader (builder.stored external) (indexedBlocks entries) := by
  obtain ⟨reader, opened, compression, recovered⟩ := recovered_of_fileBytes path mapped
    built.written bounded built.addressable fun entry member => (limits entry member).encodable.key
  refine ⟨reader, opened, recovered.serves ?_ fun group member => parsable_of_mem_indexedBlocks
    limits member⟩
  intro group member
  rw [compression]
  exact unpackBlock_storedBlock plain roundTrips _ group

end SSTableReader

end JustDb

import JustDb.SSTable.Reader

/-!
# Entries and blocks as bytes

The byte layout of an entry and of a block, the greedy split of a list of entries
into blocks, and what the reader's parsers make of a block that was written.
-/

namespace JustDb

open Stateful Parsing Deserializer

/-- Number of values of a `u32`. -/
def u32Size : Nat := UInt32.size

/-! ## One entry -/

/-- A key with its length in front. -/
def keyBytes (key : Key) : Bytes :=
  LittleEndian.encode 4 key.length.toUInt32.toNat ++ key

def valueBytes : Option Value → Bytes
  | some value => 1 :: (LittleEndian.encode 4 value.length.toUInt32.toNat ++ value)
  | none => [0]

/-- The bytes of an entry behind its key. -/
def versionBytes (entry : Entry) : Bytes :=
  valueBytes entry.value ++
    (LittleEndian.encode 8 entry.timestamp.toNat ++ LittleEndian.encode 8 entry.sequence.toNat)

theorem entryBytes_eq (entry : Entry) :
    entryBytes entry = keyBytes entry.key ++ versionBytes entry := by
  obtain ⟨key, value, timestamp, sequence⟩ := entry
  cases value <;>
    simp [entryBytes, serializerEntry, keyBytes, versionBytes, valueBytes, Serializer.writeU8,
      Serializer.writeU32, Serializer.writeU64, Serializer.writeBytes, Serializer.finish]

theorem entryBytes_length (entry : Entry) :
    (entryBytes entry).length =
      21 + entry.key.length + (entry.value.map fun value => 4 + value.length).getD 0 := by
  rw [entryBytes_eq, keyBytes, versionBytes]
  cases entry.value with
  | none =>
      simp only [valueBytes, List.length_append, LittleEndian.encode_length, List.length_cons,
        List.length_nil, Option.map_none, Option.getD_none]
      omega
  | some value =>
      simp only [valueBytes, List.length_append, LittleEndian.encode_length, List.length_cons,
        Option.map_some, Option.getD_some]
      omega

theorem entryBytes_ne_nil (entry : Entry) : entryBytes entry ≠ [] := by
  intro empty
  have length := entryBytes_length entry
  rw [empty, List.length_nil] at length
  omega

/-- The sizes of key and value that the engine lets in. -/
def Entry.WithinLimits (entry : Entry) : Prop :=
  entry.key.length ≤ maxKeySize ∧ ∀ value, entry.value = some value → value.length ≤ maxValueSize

theorem entryBytes_length_le {entry : Entry} (limits : entry.WithinLimits) :
    (entryBytes entry).length ≤ 25 + maxKeySize + maxValueSize := by
  rw [entryBytes_length]
  have keyLimit := limits.1
  cases stored : entry.value with
  | none =>
      simp only [Option.map_none, Option.getD_none]
      omega
  | some value =>
      have valueLimit := limits.2 value stored
      simp only [Option.map_some, Option.getD_some]
      omega

/-- A length that fits 32 bits is not changed by narrowing it. -/
theorem toUInt32_toNat {length : Nat} (small : length < u32Size) :
    length.toUInt32.toNat = length :=
  Nat.mod_eq_of_lt small

/-- A length in front of a byte string tells the decoder how much to read. -/
theorem decodes_readKey {key : Key} (small : key.length < u32Size) :
    Decodes cursor readKey (keyBytes key) key := by
  refine (decodes_readU32 key.length.toUInt32).bind ?_
  rw [toUInt32_toNat small]
  exact decodes_readBytes key

theorem decodes_readValue {value : Option Value}
    (small : ∀ stored, value = some stored → stored.length < u32Size) :
    Decodes cursor readValue (valueBytes value) value := by
  cases value with
  | none => exact (decodes_readU8 0).map (.pure none)
  | some value =>
      refine (decodes_readU8 1).bind ((decodes_readU32 value.length.toUInt32).bind ?_)
      rw [toUInt32_toNat (small value rfl)]
      exact (decodes_readBytes value).map (.pure _)

theorem decodes_skipValue {value : Option Value}
    (small : ∀ stored, value = some stored → stored.length < u32Size) :
    Decodes cursor skipValue (valueBytes value) () := by
  cases value with
  | none => exact (decodes_readU8 0).map (.pure ())
  | some value =>
      refine (decodes_readU8 1).bind ((decodes_readU32 value.length.toUInt32).bind ?_)
      rw [toUInt32_toNat (small value rfl)]
      exact decodes_skip value

theorem decodes_readVersion {entry : Entry}
    (small : ∀ value, entry.value = some value → value.length < u32Size) :
    Decodes cursor (readVersion entry.key) (versionBytes entry) entry :=
  (decodes_readValue small).bind
    ((decodes_readU64 entry.timestamp).bind ((decodes_readU64 entry.sequence).map (.pure _)))

theorem decodes_skipVersion {entry : Entry}
    (small : ∀ value, entry.value = some value → value.length < u32Size) :
    Decodes cursor skipVersion (versionBytes entry) () := by
  refine (decodes_skipValue small).bind ?_
  have stamps := decodes_skip
    (LittleEndian.encode 8 entry.timestamp.toNat ++ LittleEndian.encode 8 entry.sequence.toNat)
  rwa [List.length_append, LittleEndian.encode_length, LittleEndian.encode_length] at stamps

/-- An entry whose sizes fit the 32-bit fields of a record. -/
structure Entry.Encodable (entry : Entry) : Prop where
  key : entry.key.length < u32Size
  value : ∀ value, entry.value = some value → value.length < u32Size

theorem Entry.WithinLimits.encodable {entry : Entry} (limits : entry.WithinLimits) :
    entry.Encodable where
  key := lt_of_le_of_lt limits.1 (by decide)
  value := fun value stored => lt_of_le_of_lt (limits.2 value stored) (by decide)

theorem decodes_readEntry {entry : Entry} (encodable : entry.Encodable) :
    Decodes cursor readEntry (entryBytes entry) entry := by
  rw [entryBytes_eq]
  exact (decodes_readKey encodable.key).bind (decodes_readVersion encodable.value)

/-! ## One block -/

/-- The records of a block, one after another. -/
def bodyBytes (group : List Entry) : Bytes :=
  group.flatMap entryBytes

/-- A block before compression. -/
def blockBytes (group : List Entry) : Bytes :=
  blockData group.length (bodyBytes group)

theorem blockBytes_eq (group : List Entry) :
    blockBytes group =
      LittleEndian.encode 4 group.length.toUInt32.toNat ++ bodyBytes group := rfl

/-- A block that the parsers can take apart: its count and its sizes fit their fields. -/
structure Parsable (group : List Entry) : Prop where
  count : group.length < u32Size
  encodable : ∀ entry ∈ group, entry.Encodable
  addressable : (blockBytes group).length < wordSize

theorem parseBlock_blockBytes {group : List Entry} (parsable : Parsable group) :
    parseBlock (blockBytes group) = .ok group := by
  have records : Decodes cursor (repeated readEntry group.length) (bodyBytes group) group :=
    Decodes.repeated fun entry member => decodes_readEntry (parsable.encodable entry member)
  have whole : Decodes cursor
      (do let entryCount ← readU32; repeated readEntry entryCount.toNat)
      (blockBytes group) group := by
    refine (decodes_readU32 group.length.toUInt32).bind ?_
    rw [toUInt32_toNat parsable.count]
    exact records
  exact decodeFrom_of_returns_whole whole.returns parsable.addressable

/-- The scan returns the first record with the key; records before it are skipped. -/
theorem returns_searchRecords (key : Key) {group : List Entry}
    (encodable : ∀ entry ∈ group, entry.Encodable) :
    Returns cursor (searchRecords key group.length) (bodyBytes group) (entryFor group key) := by
  induction group with
  | nil => exact (Decodes.pure none).returns
  | cons entry group ih =>
      have fits := encodable entry List.mem_cons_self
      have rest := ih fun other member => encodable other (List.mem_cons_of_mem _ member)
      rw [bodyBytes, List.flatMap_cons, entryBytes_eq, List.append_assoc]
      refine (decodes_readKey fits.key).bindReturns ?_
      by_cases same : entry.key = key
      · rw [if_pos same, entryFor, List.find?_cons_of_pos (by simpa using same)]
        have record : Decodes cursor
            (do let found ← readVersion entry.key; pure (some found))
            (versionBytes entry) (some entry) := (decodes_readVersion fits.value).map (.pure _)
        exact record.returns.append _
      · rw [if_neg same, entryFor, List.find?_cons_of_neg (by simpa using same)]
        exact (decodes_skipVersion fits.value).bindReturns rest

/-- Searching a block finds the entry of the key among its records. -/
theorem searchInBlock_blockBytes {group : List Entry} (parsable : Parsable group) (key : Key) :
    searchInBlock (blockBytes group) key = .ok (entryFor group key) := by
  have whole : Returns cursor
      (do let entryCount ← readU32; searchRecords key entryCount.toNat)
      (blockBytes group) (entryFor group key) := by
    refine (decodes_readU32 group.length.toUInt32).bindReturns ?_
    rw [toUInt32_toNat parsable.count]
    exact returns_searchRecords key parsable.encodable
  exact decodeFrom_of_returns_whole whole parsable.addressable

/-! ## The split into blocks -/

/-- The blocks that are full, and the entries of the block in hand. -/
structure Split where
  flushed : List (List Entry) := []
  current : List Entry := []

namespace Split

/-- A block in hand that has entries and no room for the next one is full. -/
def add (split : Split) (entry : Entry) : Split :=
  if (bodyBytes split.current).length + (entryBytes entry).length > blockSize ∧
      split.current ≠ [] then
    { flushed := split.flushed ++ [split.current], current := [entry] }
  else
    { split with current := split.current ++ [entry] }

/-- The blocks once the last one is flushed too. -/
def blocks (split : Split) : List (List Entry) :=
  if split.current = [] then split.flushed else split.flushed ++ [split.current]

/-- The split after a list of entries. -/
def ofEntries (entries : List Entry) : Split :=
  entries.foldl add {}

/-- More than one entry share a block only where they fit its size. -/
def Fits (group : List Entry) : Prop :=
  group.length ≤ 1 ∨ (bodyBytes group).length ≤ blockSize

/-- What a split of a list is: its blocks in order are the list, no full block is
empty, and no block is overfull. -/
structure Of (entries : List Entry) (split : Split) : Prop where
  flatten : split.flushed.flatten ++ split.current = entries
  nonempty : ∀ group ∈ split.flushed, group ≠ []
  fits : ∀ group ∈ split.flushed, Fits group
  currentFits : Fits split.current

theorem Of.add {entries : List Entry} {split : Split} (of : Of entries split) (entry : Entry) :
    Of (entries ++ [entry]) (split.add entry) := by
  unfold Split.add
  split
  next full =>
    constructor
    · simp [← of.flatten]
    · intro group member
      rcases List.mem_append.mp member with earlier | last
      · exact of.nonempty group earlier
      · rw [List.mem_singleton.mp last]
        exact full.2
    · intro group member
      rcases List.mem_append.mp member with earlier | last
      · exact of.fits group earlier
      · rw [List.mem_singleton.mp last]
        exact of.currentFits
    · exact .inl (by simp)
  next room =>
    refine ⟨by simp [← of.flatten], of.nonempty, of.fits, ?_⟩
    by_cases empty : split.current = []
    · exact .inl (by simp [empty])
    · refine .inr ?_
      have fits := not_lt.mp fun full => room ⟨full, empty⟩
      simpa [bodyBytes, List.flatMap_append] using fits

theorem of_foldl {done : List Entry} {split : Split} (of : Of done split)
    (entries : List Entry) : Of (done ++ entries) (entries.foldl Split.add split) := by
  induction entries generalizing done split with
  | nil => simpa using of
  | cons entry entries ih => simpa using ih (of.add entry)

theorem of_ofEntries (entries : List Entry) : Of entries (ofEntries entries) := by
  have start : Of [] {} := ⟨rfl, by simp, by simp, .inl (by simp)⟩
  exact of_foldl start entries

theorem ofEntries_append_singleton (entries : List Entry) (entry : Entry) :
    ofEntries (entries ++ [entry]) = (ofEntries entries).add entry := by
  rw [ofEntries, List.foldl_append]
  rfl

/-- Full blocks stay as they are. -/
theorem flushed_prefix_foldl (split : Split) (entries : List Entry) :
    split.flushed <+: (entries.foldl add split).flushed := by
  induction entries generalizing split with
  | nil => exact List.prefix_rfl
  | cons entry entries ih =>
      have step : split.flushed <+: (split.add entry).flushed := by
        unfold add
        split
        · exact List.prefix_append _ _
        · exact List.prefix_rfl
      exact step.trans (ih _)

theorem flushed_prefix_blocks (split : Split) : split.flushed <+: split.blocks := by
  unfold blocks
  split
  · exact List.prefix_rfl
  · exact List.prefix_append _ _

/-- An entry larger than a block gets a block of its own. -/
theorem blocks_add_of_large (split : Split) {entry : Entry}
    (large : blockSize < (entryBytes entry).length) :
    (split.add entry).blocks = split.blocks ++ [[entry]] := by
  have full : (bodyBytes split.current).length + (entryBytes entry).length > blockSize :=
    lt_of_lt_of_le large (Nat.le_add_left _ _)
  unfold add blocks
  by_cases empty : split.current = []
  · simp [empty]
  · simp [empty, full]

end Split

/-- Every record takes room, so a block of several has few of them. -/
theorem length_le_bodyBytes (group : List Entry) :
    21 * group.length ≤ (bodyBytes group).length := by
  induction group with
  | nil => simp
  | cons entry group ih =>
      have size := entryBytes_length entry
      rw [bodyBytes, List.flatMap_cons, List.length_append, ← bodyBytes, List.length_cons]
      omega

/-- A block takes at most its size limit or the room of one entry. -/
theorem Split.Fits.bodyBytes_le {group : List Entry} (fits : Split.Fits group)
    (limits : ∀ entry ∈ group, entry.WithinLimits) :
    (bodyBytes group).length ≤ blockSize + (25 + maxKeySize + maxValueSize) := by
  rcases fits with single | small
  · match group, single with
    | [], _ => exact Nat.zero_le _
    | [entry], _ =>
        have size := entryBytes_length_le (limits entry (List.mem_singleton_self entry))
        simp only [bodyBytes, List.flatMap_cons, List.flatMap_nil, List.append_nil]
        omega
  · omega

theorem Split.Fits.length_le {group : List Entry} (fits : Split.Fits group) :
    group.length ≤ blockSize := by
  have records := length_le_bodyBytes group
  rcases fits with single | small
  · exact single.trans (by decide)
  · omega

/-- A block of entries within the engine's limits can be taken apart. -/
theorem Split.Fits.parsable {group : List Entry} (fits : Split.Fits group)
    (limits : ∀ entry ∈ group, entry.WithinLimits) : Parsable group where
  count := lt_of_le_of_lt fits.length_le (by decide)
  encodable := fun entry member => (limits entry member).encodable
  addressable := by
    have size := fits.bodyBytes_le limits
    rw [blockBytes_eq, List.length_append, LittleEndian.encode_length]
    unfold blockSize maxKeySize maxValueSize at size
    unfold wordSize UInt64.size
    omega

/-- The blocks of a table with given entries. -/
def splitBlocks (entries : List Entry) : List (List Entry) :=
  (Split.ofEntries entries).blocks

/-- The full blocks of a prefix are blocks of the whole. -/
theorem flushed_prefix_splitBlocks (done rest : List Entry) :
    (Split.ofEntries done).flushed <+: splitBlocks (done ++ rest) := by
  have whole : Split.ofEntries (done ++ rest) = rest.foldl Split.add (Split.ofEntries done) :=
    List.foldl_append
  rw [splitBlocks, whole]
  exact (Split.flushed_prefix_foldl _ rest).trans (Split.flushed_prefix_blocks _)

theorem flatten_splitBlocks (entries : List Entry) : (splitBlocks entries).flatten = entries := by
  have of := Split.of_ofEntries entries
  unfold splitBlocks Split.blocks
  split
  next empty => simpa [empty] using of.flatten
  next => simpa using of.flatten

theorem mem_of_mem_splitBlocks {entries group : List Entry} {entry : Entry}
    (block : group ∈ splitBlocks entries) (inside : entry ∈ group) : entry ∈ entries := by
  rw [← flatten_splitBlocks entries]
  exact List.mem_flatten_of_mem block inside

/-- Entries larger than a block get one block each. -/
theorem splitBlocks_of_large {entries : List Entry}
    (large : ∀ entry ∈ entries, blockSize < (entryBytes entry).length) :
    splitBlocks entries = entries.map fun entry => [entry] := by
  have general : ∀ (split : Split) (entries : List Entry),
      (∀ entry ∈ entries, blockSize < (entryBytes entry).length) →
      (entries.foldl Split.add split).blocks =
        split.blocks ++ entries.map fun entry => [entry] := by
    intro split entries large
    induction entries generalizing split with
    | nil => simp
    | cons entry entries ih =>
        rw [List.foldl_cons, ih _ fun other member => large other (List.mem_cons_of_mem _ member),
          Split.blocks_add_of_large _ (large entry List.mem_cons_self), List.append_assoc]
        rfl
  exact general {} entries large

theorem ne_nil_of_mem_splitBlocks {entries group : List Entry}
    (member : group ∈ splitBlocks entries) : group ≠ [] := by
  have of := Split.of_ofEntries entries
  unfold splitBlocks Split.blocks at member
  split at member
  next => exact of.nonempty group member
  next nonempty =>
    rcases List.mem_append.mp member with earlier | last
    · exact of.nonempty group earlier
    · rw [List.mem_singleton.mp last]
      exact nonempty

theorem fits_of_mem_splitBlocks {entries group : List Entry}
    (member : group ∈ splitBlocks entries) : Split.Fits group := by
  have of := Split.of_ofEntries entries
  unfold splitBlocks Split.blocks at member
  split at member
  next => exact of.fits group member
  next =>
    rcases List.mem_append.mp member with earlier | last
    · exact of.fits group earlier
    · rw [List.mem_singleton.mp last]
      exact of.currentFits

/-- A table has at most `blockSize` entries for each of its blocks. -/
theorem length_le_splitBlocks (entries : List Entry) :
    entries.length ≤ (splitBlocks entries).length * blockSize := by
  have counted : ∀ groups : List (List Entry), (∀ group ∈ groups, Split.Fits group) →
      groups.flatten.length ≤ groups.length * blockSize := by
    intro groups fits
    induction groups with
    | nil => simp
    | cons group groups ih =>
        have first := (fits group List.mem_cons_self).length_le
        have rest := ih fun other member => fits other (List.mem_cons_of_mem _ member)
        rw [List.flatten_cons, List.length_append, List.length_cons, Nat.add_mul, Nat.one_mul]
        omega
  have total := counted (splitBlocks entries) fun group member => fits_of_mem_splitBlocks member
  rwa [flatten_splitBlocks] at total

end JustDb

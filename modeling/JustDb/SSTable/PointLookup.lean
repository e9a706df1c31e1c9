import JustDb.SSTable.Serving

/-!
# Point lookups in a table

A lookup finds the last block whose first key is not above the key, by binary
search, and searches it.  On a reader that serves the blocks of a table this is
the entry of the key, whatever blocks were read before.  A table has at most as
many blocks as its index can count in 32 bits, or lookups miss the others.
-/

namespace JustDb

open Stateful

/-! ## The block of a key -/

/-- The first entry has the least key. -/
theorem Ascending.firstKey_le {group : List Entry} (ascending : Ascending group) {entry : Entry}
    (member : entry ∈ group) : firstKey group ≤ entry.key := by
  cases group with
  | nil => cases member
  | cons first rest =>
      rcases List.mem_cons.mp member with same | later
      · rw [same]
        exact le_refl _
      · exact ((List.pairwise_cons.mp ascending).1 entry later).le

theorem exists_firstKey {group : List Entry} (nonempty : group ≠ []) :
    ∃ entry ∈ group, entry.key = firstKey group := by
  obtain ⟨first, rest, rfl⟩ := List.exists_cons_of_ne_nil nonempty
  exact ⟨first, List.mem_cons_self, rfl⟩

/-- Blocks one after another begin with the first key of the first. -/
theorem firstKey_flatten {first : List Entry} {rest : List (List Entry)} (nonempty : first ≠ []) :
    firstKey (first :: rest).flatten = firstKey first := by
  obtain ⟨head, tail, rfl⟩ := List.exists_cons_of_ne_nil nonempty
  rfl

/-- A key below the first block is in no block. -/
theorem entryFor_flatten_of_below {groups : List (List Entry)}
    (nonempty : ∀ group ∈ groups, group ≠ []) (ascending : Ascending groups.flatten) {key : Key}
    (below : ∀ first, groups.head? = some first → key < firstKey first) :
    entryFor groups.flatten key = none := by
  cases groups with
  | nil => rfl
  | cons first rest =>
      rw [entryFor_eq_none]
      intro entry member same
      have lower := below first rfl
      have above := ascending.firstKey_le member
      rw [firstKey_flatten (nonempty first List.mem_cons_self), same] at above
      exact absurd lower (not_lt.mpr above)

/-- A key between the first key of a block and that of the next is in this block or in
none. -/
theorem entryFor_flatten_of_block {groups : List (List Entry)}
    (nonempty : ∀ group ∈ groups, group ≠ []) (ascending : Ascending groups.flatten) {key : Key}
    {position : Nat} {group : List Entry} (at_ : groups[position]? = some group)
    (lower : firstKey group ≤ key)
    (upper : ∀ next, groups[position + 1]? = some next → key < firstKey next) :
    entryFor groups.flatten key = entryFor group key := by
  obtain ⟨inside, here⟩ := List.getElem?_eq_some_iff.mp at_
  have split : groups.flatten =
      (groups.take position).flatten ++ (group ++ (groups.drop (position + 1)).flatten) := by
    rw [← here, ← List.flatten_cons, ← List.drop_eq_getElem_cons inside, ← List.flatten_append,
      List.take_append_drop]
  rw [split] at ascending ⊢
  obtain ⟨_, rest, across⟩ := List.pairwise_append.mp ascending
  have before : entryFor (groups.take position).flatten key = none := by
    rw [entryFor_eq_none]
    intro entry member same
    obtain ⟨first, held, keyed⟩ := exists_firstKey (nonempty group (List.mem_of_getElem? at_))
    have strict := across entry member first (List.mem_append_left _ held)
    rw [same, keyed] at strict
    exact absurd lower (not_le.mpr strict)
  have after : entryFor (groups.drop (position + 1)).flatten key = none := by
    apply entryFor_flatten_of_below
    · exact fun later member => nonempty later (List.mem_of_mem_drop member)
    · exact (List.pairwise_append.mp rest).2.1
    · intro next first
      rw [List.head?_drop] at first
      exact upper next first
  unfold entryFor at before after ⊢
  rw [List.find?_append, before, Option.none_or, List.find?_append, after, Option.or_none]

/-- First keys grow from block to block. -/
theorem firstKey_lt {groups : List (List Entry)} (nonempty : ∀ group ∈ groups, group ≠ [])
    (ascending : Ascending groups.flatten) {left right : Nat} (below : left < right)
    {first second : List Entry} (firstAt : groups[left]? = some first)
    (secondAt : groups[right]? = some second) : firstKey first < firstKey second := by
  have apart := (List.pairwise_flatten.mp ascending).2
  obtain ⟨inside, rfl⟩ := List.getElem?_eq_some_iff.mp firstAt
  obtain ⟨otherInside, rfl⟩ := List.getElem?_eq_some_iff.mp secondAt
  have across := List.pairwise_iff_getElem.mp apart left right inside otherInside below
  obtain ⟨entry, member, keyed⟩ := exists_firstKey (nonempty _ (List.getElem_mem inside))
  obtain ⟨other, otherMember, otherKeyed⟩ :=
    exists_firstKey (nonempty _ (List.getElem_mem otherInside))
  rw [← keyed, ← otherKeyed]
  exact across entry member other otherMember

namespace SSTableReader

variable {external : External} {reader : SSTableReader} {stored : List Entry → Bytes}
  {groups : List (List Entry)}

theorem Serves.keyBelow (serves : Serves external reader stored groups) {position : Nat}
    {group : List Entry} (at_ : groups[position]? = some group) (key : Key) :
    reader.keyBelow key position = decide (key < firstKey group) := by
  rw [SSTableReader.keyBelow, serves.index_getElem?, at_]
  rfl

/-- The binary search of `find_block_for_key` cuts the blocks at the key. -/
theorem Serves.isCut (serves : Serves external reader stored groups)
    (nonempty : ∀ group ∈ groups, group ≠ []) (ascending : Ascending groups.flatten) (key : Key) :
    BinarySearch.IsCut (reader.keyBelow key) 0 groups.length
      (BinarySearch.cut (reader.keyBelow key) reader.index.length 0 reader.index.length) := by
  have length : reader.index.length = groups.length := by
    rw [serves.index, indexFrom_length]
  have rising : BinarySearch.Rising (reader.keyBelow key) groups.length := by
    intro left right ordered inside held
    have leftAt := List.getElem?_eq_getElem (lt_of_le_of_lt ordered inside)
    have rightAt := List.getElem?_eq_getElem inside
    rw [serves.keyBelow leftAt, decide_eq_true_eq] at held
    rw [serves.keyBelow rightAt, decide_eq_true_eq]
    rcases Nat.lt_or_eq_of_le ordered with strict | same
    · exact held.trans (firstKey_lt nonempty ascending strict leftAt rightAt)
    · subst same
      exact held
  rw [length]
  exact BinarySearch.isCut_cut rising (Nat.le_refl _) (Nat.zero_le _) (Nat.le_refl _)

/-- `find_block_for_key` returns the last block whose first key is not above the key. -/
theorem Serves.findBlockForKey (serves : Serves external reader stored groups)
    (nonempty : ∀ group ∈ groups, group ≠ []) (ascending : Ascending groups.flatten) (key : Key) :
    match reader.findBlockForKey key with
    | none => ∀ first, groups.head? = some first → key < firstKey first
    | some position => ∃ group, groups[position]? = some group ∧ firstKey group ≤ key ∧
        ∀ next, groups[position + 1]? = some next → key < firstKey next := by
  have found := serves.isCut nonempty ascending key
  rw [SSTableReader.findBlockForKey]
  generalize BinarySearch.cut (reader.keyBelow key) reader.index.length 0 reader.index.length =
    left at found ⊢
  cases left with
  | zero =>
      rw [if_neg (Nat.lt_irrefl 0)]
      have below : ∀ first, groups.head? = some first → key < firstKey first := by
        intro first at_
        rw [List.head?_eq_getElem?] at at_
        have inside := (List.getElem?_eq_some_iff.mp at_).1
        have holds := found.after 0 (Nat.le_refl 0) inside
        rwa [serves.keyBelow at_, decide_eq_true_eq] at holds
      cases first : reader.index.head? with
      | none => exact below
      | some entry =>
          rw [List.head?_eq_getElem?, serves.index_getElem?, ← List.head?_eq_getElem?] at first
          obtain ⟨group, at_, rfl⟩ := Option.map_eq_some_iff.mp first
          have above : ¬ (locate stored groups 0 group).key ≤ key := not_le.mpr (below group at_)
          simp only [if_neg above]
          exact below
  | succ left =>
      rw [if_pos (Nat.succ_pos left), Nat.add_sub_cancel]
      have inside : left < groups.length := found.upper
      have at_ := List.getElem?_eq_getElem inside
      have fails := found.before left (Nat.zero_le _) (Nat.lt_succ_self _)
      rw [serves.keyBelow at_, decide_eq_false_iff_not] at fails
      refine ⟨groups[left], at_, not_lt.mp fails, fun next nextAt => ?_⟩
      have holds := found.after (left + 1) (Nat.le_refl _) (List.getElem?_eq_some_iff.mp nextAt).1
      rwa [serves.keyBelow nextAt, decide_eq_true_eq] at holds

/-- A lookup on a reader that serves the blocks of a table returns the entry of the key. -/
theorem Serves.lookup (serves : Serves external reader stored groups)
    (nonempty : ∀ group ∈ groups, group ≠ []) (ascending : Ascending groups.flatten) (key : Key) :
    ∃ after, SSTableReader.lookup external key reader =
        .ok (entryFor groups.flatten key) after ∧ Serves external after stored groups := by
  have found := serves.findBlockForKey nonempty ascending key
  rw [SSTableReader.lookup, bind_of_ok (get_apply reader)]
  cases search : reader.findBlockForKey key with
  | none =>
      rw [search] at found
      rw [entryFor_flatten_of_below nonempty ascending found]
      exact ⟨reader, rfl, serves⟩
  | some position =>
      rw [search] at found
      obtain ⟨group, at_, lower, upper⟩ := found
      obtain ⟨after, read, served⟩ := serves.readBlock at_
      refine ⟨after, ?_, served⟩
      rw [entryFor_flatten_of_block nonempty ascending at_ lower upper]
      simp only [serves.index_getElem?, at_, Option.map_some]
      rw [bind_of_ok read,
        searchInBlock_blockBytes (serves.parsable group (List.mem_of_getElem? at_)), lift_ok]

/-! ## Histories of reads -/

/-- The reader after some index entries have been read, whatever each read returned. -/
def afterReads (external : External) (reader : SSTableReader) (history : List IndexEntry) :
    SSTableReader :=
  history.foldl (fun reader indexEntry => final (readBlock external indexEntry reader)) reader

/-- Lookups agree with a list of entries after every history of block reads, and the
cache never holds more than a hundred blocks. -/
def AgreesWith (external : External) (entries : List Entry) (reader : SSTableReader) : Prop :=
  ∀ history : List IndexEntry, (∀ indexEntry ∈ history, indexEntry ∈ reader.index) →
    (reader.afterReads external history).blockCache.entries.length ≤ 100 ∧
      ∀ key, ∃ after, SSTableReader.lookup external key (reader.afterReads external history) =
        .ok (entryFor entries key) after ∧ after.blockCache.entries.length ≤ 100

theorem Serves.afterReads (serves : Serves external reader stored groups)
    {history : List IndexEntry} (indexed : ∀ indexEntry ∈ history, indexEntry ∈ reader.index) :
    Serves external (reader.afterReads external history) stored groups := by
  induction history generalizing reader with
  | nil => exact serves
  | cons indexEntry history ih =>
      obtain ⟨position, found⟩ := List.getElem?_of_mem (indexed indexEntry List.mem_cons_self)
      rw [serves.index_getElem?] at found
      obtain ⟨group, at_, rfl⟩ := Option.map_eq_some_iff.mp found
      obtain ⟨after, read, served⟩ := serves.readBlock at_
      have later : ∀ other ∈ history, other ∈ after.index := by
        intro other member
        rw [served.index, ← serves.index]
        exact indexed other (List.mem_cons_of_mem _ member)
      rw [SSTableReader.afterReads, List.foldl_cons, read]
      exact ih served later

theorem Serves.agreesWith (serves : Serves external reader stored groups)
    (nonempty : ∀ group ∈ groups, group ≠ []) (ascending : Ascending groups.flatten) :
    AgreesWith external groups.flatten reader := by
  intro history indexed
  have served := serves.afterReads indexed
  refine ⟨served.small, fun key => ?_⟩
  obtain ⟨after, found, kept⟩ := served.lookup nonempty ascending key
  exact ⟨after, found, kept.small⟩

end SSTableReader

/-! ## Tables from a builder -/

namespace SSTableBuilder

variable {external : External}

/-- A recovered reader agrees with the blocks that the 32-bit count of its index covers. -/
theorem Built.agreesWith {builder : SSTableBuilder} {createdAt : Timestamp}
    {entries : List Entry} {sink : Sink} {bloomFilter : BloomFilter}
    (built : Built external builder createdAt entries sink bloomFilter)
    (bounded : sink.written.length ≤ maxFileSize) (plain : builder.compression ≠ .zstd)
    (roundTrips : external.Lz4RoundTrips) (limits : ∀ entry ∈ entries, entry.WithinLimits)
    (path : FileName) (mapped : Bool) :
    ∃ reader, SSTableReader.recover path sink.written mapped = .ok reader ∧
      reader.AgreesWith external (indexedBlocks entries).flatten := by
  obtain ⟨reader, recovered, serves⟩ :=
    SSTableReader.serves_of_built built bounded plain roundTrips limits path mapped
  exact ⟨reader, recovered, serves.agreesWith
    (fun group member => ne_nil_of_mem_indexedBlocks member)
    (ascending_indexedBlocks built.ascending)⟩

/-- A reader that agrees with the first blocks only does not agree with all entries. -/
theorem length_le_of_agreesWith {reader : SSTableReader} {entries : List Entry} {count : Nat}
    (ascending : Ascending entries)
    (first : reader.AgreesWith external ((splitBlocks entries).take count).flatten)
    (all : reader.AgreesWith external entries) : (splitBlocks entries).length ≤ count := by
  by_contra many
  have inside : count < (splitBlocks entries).length := not_le.mp many
  have split : ((splitBlocks entries).take count).flatten ++
      ((splitBlocks entries).drop count).flatten = entries := by
    rw [← List.flatten_append, List.take_append_drop, flatten_splitBlocks]
  -- the first entry of the first block past the counted ones is not found
  obtain ⟨entry, member, _⟩ := exists_firstKey
    (ne_nil_of_mem_splitBlocks (List.getElem_mem inside))
  have behind : entry ∈ ((splitBlocks entries).drop count).flatten := by
    rw [List.drop_eq_getElem_cons inside, List.flatten_cons]
    exact List.mem_append_left _ member
  have stored : entryFor entries entry.key = some entry := by
    rw [ascending.entryFor_eq_some, ← split]
    exact ⟨List.mem_append_right _ behind, rfl⟩
  have missed : entryFor ((splitBlocks entries).take count).flatten entry.key = none := by
    rw [← split] at ascending
    rw [entryFor_eq_none]
    exact fun earlier held =>
      ((List.pairwise_append.mp ascending).2.2 earlier held entry behind).ne
  obtain ⟨_, hit, _⟩ := (all [] (by simp)).2 entry.key
  obtain ⟨_, miss, _⟩ := (first [] (by simp)).2 entry.key
  rw [stored, miss, missed] at hit
  cases hit

/-- On a reader recovered from a table, lookups agree with the table's entries after
every history of block reads exactly when the table has fewer than `2 ^ 32` blocks. -/
theorem lookups_agree_iff {builder : SSTableBuilder} {output : Output} {createdAt : Timestamp}
    {entries : List Entry} {metadata : SStableMeta} {sink : Sink}
    (roundTrips : external.Lz4RoundTrips) (bounded : output.Bounded)
    (plain : builder.compression ≠ .zstd) (limits : ∀ entry ∈ entries, entry.WithinLimits)
    (ran : builder.build external createdAt entries { output } = .ok metadata sink)
    (path : FileName) (mapped : Bool) :
    (∃ reader, SSTableReader.recover path sink.written mapped = .ok reader ∧
        reader.AgreesWith external entries) ↔
      (splitBlocks entries).length < u32Size := by
  obtain ⟨bloomFilter, built, fits⟩ := build_eq_ok ran
  obtain ⟨reader, recovered, agrees⟩ :=
    built.agreesWith (fits bounded) plain roundTrips limits path mapped
  constructor
  · rintro ⟨other, otherRecovered, found⟩
    cases recovered.symm.trans otherRecovered
    have counted := length_le_of_agreesWith built.ascending agrees found
    exact lt_of_le_of_lt counted (Nat.mod_lt _ (by decide))
  · intro few
    rw [indexedBlocks_of_lt few, flatten_splitBlocks] at agrees
    exact ⟨reader, recovered, agrees⟩

/-- Uncompressed tables. -/
def uncompressed : SSTableBuilder :=
  { compression := .none }

/-- A value and a delete marker, in key order. -/
private def pair : List Entry :=
  [{ key := [1], value := some [10], timestamp := 5, sequence := 1 },
   { key := [2], value := none, timestamp := 6, sequence := 2 }]

theorem lookups_agree_iff_pair :
    ∃ reader, SSTableReader.recover [] (final (uncompressed.build External.plain 0 pair
        { output := .spacious })).written true = .ok reader ∧
      reader.AgreesWith External.plain pair := by
  have returned : succeeded (uncompressed.build External.plain 0 pair
      { output := .spacious }) = true := by decide +kernel
  obtain ⟨metadata, ran⟩ := exists_ok_of_succeeded returned
  have limits : ∀ entry ∈ pair, entry.WithinLimits := by
    intro entry member
    rcases List.mem_pair.mp member with rfl | rfl
    · exact ⟨by decide, fun value stored => by cases stored; decide⟩
    · exact ⟨by decide, fun value stored => by cases stored⟩
  exact (lookups_agree_iff External.plain_lz4RoundTrips Output.spacious_bounded (by decide)
    limits ran [] true).mpr (by decide)

/-! ## More blocks than the index can count -/

/-- An entry larger than a block, under a key of its own. -/
def bulkyEntry (number : Nat) : Entry where
  key := LittleEndian.encode 4 number
  value := some (List.replicate blockSize 0)
  timestamp := 0
  sequence := 0

/-- As many entries as an index count has values, each larger than a block. -/
def crowd : List Entry :=
  sortedByKey ((List.range u32Size).map bulkyEntry)

theorem mem_crowd {entry : Entry} (member : entry ∈ crowd) :
    ∃ number, entry = bulkyEntry number := by
  obtain ⟨number, _, rfl⟩ := List.mem_map.mp ((sortedByKey_perm _).mem_iff.mp member)
  exact ⟨number, rfl⟩

theorem crowd_length : crowd.length = u32Size := by
  rw [crowd, (sortedByKey_perm _).length_eq, List.length_map, List.length_range]

theorem crowd_ascending : Ascending crowd := by
  rw [crowd, ascending_sortedByKey_iff, List.pairwise_map]
  refine List.pairwise_lt_range.imp_of_mem fun leftMem rightMem below same => ?_
  have spelled := congrArg LittleEndian.decode same
  simp only [bulkyEntry, LittleEndian.decode_encode] at spelled
  have leftSmall := List.mem_range.mp leftMem
  have rightSmall := List.mem_range.mp rightMem
  unfold u32Size UInt32.size at leftSmall rightSmall
  omega

theorem bulkyEntry_length (number : Nat) :
    (entryBytes (bulkyEntry number)).length = 29 + blockSize := by
  rw [entryBytes_length]
  simp only [bulkyEntry, LittleEndian.encode_length, Option.map_some, Option.getD_some,
    List.length_replicate]
  omega

theorem bulkyEntry_withinLimits (number : Nat) : (bulkyEntry number).WithinLimits := by
  constructor
  · rw [bulkyEntry, LittleEndian.encode_length]
    decide
  · intro value stored
    cases stored
    rw [List.length_replicate]
    decide

theorem splitBlocks_crowd : splitBlocks crowd = crowd.map fun entry => [entry] := by
  apply splitBlocks_of_large
  intro entry member
  obtain ⟨number, rfl⟩ := mem_crowd member
  rw [bulkyEntry_length]
  omega

/-- A concatenation is no longer than its parts allow. -/
private theorem length_flatMap_le {α : Type} {items : List α} {bytes : α → Bytes} {bound : Nat}
    (each : ∀ item ∈ items, (bytes item).length ≤ bound) :
    (items.flatMap bytes).length ≤ items.length * bound := by
  induction items with
  | nil => simp
  | cons item items ih =>
      have first := each item List.mem_cons_self
      have rest := ih fun other member => each other (List.mem_cons_of_mem _ member)
      rw [List.flatMap_cons, List.length_append, List.length_cons, Nat.add_mul, Nat.one_mul]
      omega

theorem crowd_data_length :
    ((splitBlocks crowd).flatMap (uncompressed.stored External.plain)).length ≤
      u32Size * (37 + blockSize) := by
  have count : (splitBlocks crowd).length = u32Size := by
    rw [splitBlocks_crowd, List.length_map, crowd_length]
  rw [← count]
  apply length_flatMap_le
  intro group member
  rw [splitBlocks_crowd] at member
  obtain ⟨entry, held, rfl⟩ := List.mem_map.mp member
  obtain ⟨number, rfl⟩ := mem_crowd held
  have body : (bodyBytes [bulkyEntry number]).length = 29 + blockSize := by
    rw [bodyBytes, List.flatMap_cons, List.flatMap_nil, List.append_nil, bulkyEntry_length]
  have stored_eq : uncompressed.stored External.plain [bulkyEntry number] =
      LittleEndian.encode 4 (External.plain.crc32 (blockBytes [bulkyEntry number])).toNat ++
        blockBytes [bulkyEntry number] := rfl
  rw [stored_eq, blockBytes_eq, List.length_append, List.length_append,
    LittleEndian.encode_length, LittleEndian.encode_length, body]
  omega

theorem crowd_index_length :
    (serializeIndex (uncompressed.indexOf External.plain crowd)).length ≤ 4 + u32Size * 24 := by
  have count : (uncompressed.indexOf External.plain crowd).length = u32Size := by
    rw [indexOf, indexFrom_length, splitBlocks_crowd, List.length_map, crowd_length]
  rw [serializeIndex_eq, List.length_append, LittleEndian.encode_length, ← count]
  refine Nat.add_le_add_left (length_flatMap_le fun entry member => ?_) 4
  obtain ⟨position, found⟩ := List.getElem?_of_mem member
  rw [indexOf, indexFrom_zero_getElem?, splitBlocks_crowd, List.getElem?_map] at found
  obtain ⟨group, at_, rfl⟩ := Option.map_eq_some_iff.mp found
  obtain ⟨first, held, rfl⟩ := Option.map_eq_some_iff.mp at_
  obtain ⟨number, rfl⟩ := mem_crowd (List.mem_of_getElem? held)
  have key : (locate (uncompressed.stored External.plain)
      (crowd.map fun entry => [entry]) position [bulkyEntry number]).key =
      LittleEndian.encode 4 number := rfl
  simp only [indexEntryBytes, keyBytes, List.length_append, LittleEndian.encode_length, key]
  omega

/-- The filter of `u32Size` elements at the default rate. -/
theorem crowd_bloom : ∃ bloomFilter,
    BloomFilter.new External.plain crowd.length uncompressed.bloomFalsePositiveRate =
      .ok bloomFilter ∧ bloomFilter.bits.length ≤ 10 * u32Size := by
  have made : ∃ bloomFilter, BloomFilter.new External.plain crowd.length
      uncompressed.bloomFalsePositiveRate = .ok bloomFilter := by
    rw [BloomFilter.new_isOk_iff, crowd_length]
    exact .inr (by decide +kernel)
  obtain ⟨bloomFilter, made⟩ := made
  have shape := BloomFilter.shape_of_new External.plain made (by rw [crowd_length]; decide)
  rw [crowd_length] at shape
  refine ⟨bloomFilter, made, ?_⟩
  rw [shape.2, shape.1, show max (External.plain.bloomBits u32Size
    uncompressed.bloomFalsePositiveRate) 64 = 10 * u32Size by decide +kernel]
  omega

/-- A table with `2 ^ 32` blocks is built, but its lookups do not agree with its entries. -/
theorem lookups_disagree_crowd :
    ∃ metadata sink,
      uncompressed.build External.plain 0 crowd { output := .spacious } = .ok metadata sink ∧
      ¬ ∃ reader, SSTableReader.recover [] sink.written true = .ok reader ∧
        reader.AgreesWith External.plain crowd := by
  obtain ⟨bloomFilter, made, bits⟩ := crowd_bloom
  have limits : ∀ entry ∈ crowd, entry.WithinLimits := by
    intro entry member
    obtain ⟨number, rfl⟩ := mem_crowd member
    exact bulkyEntry_withinLimits number
  have sum : ∀ data index bits : Nat, data ≤ u32Size * (37 + blockSize) →
      index ≤ 4 + u32Size * 24 → bits ≤ 10 * u32Size →
      data + (12 + bits + (index + footerSize)) ≤ maxFileSize := by
    unfold u32Size UInt32.size blockSize footerSize maxFileSize
    omega
  have small : (uncompressed.fileOf External.plain bloomFilter 0 crowd).length ≤ maxFileSize := by
    rw [fileOf, fileBytes, List.length_append, List.length_append, List.length_append,
      paddedFooter_length, BloomFilter.toBytes_length]
    exact sum _ _ _ crowd_data_length crowd_index_length bits
  have room : crowd.length < wordSize := by
    rw [crowd_length]
    decide
  obtain ⟨metadata, sink, ran⟩ := build_succeeds Output.spacious_bounded (by decide) made limits
    room crowd_ascending (Output.not_refuses_spacious small)
  refine ⟨metadata, sink, ran, ?_⟩
  rintro ⟨other, otherRecovered, found⟩
  obtain ⟨_, built, fits⟩ := build_eq_ok ran
  obtain ⟨reader, recovered, agrees⟩ := built.agreesWith (fits Output.spacious_bounded)
    (by decide) External.plain_lz4RoundTrips limits [] true
  cases recovered.symm.trans otherRecovered
  have counted := length_le_of_agreesWith built.ascending agrees found
  rw [splitBlocks_crowd, List.length_map, crowd_length, Nat.mod_self] at counted
  exact absurd counted (by decide)

end SSTableBuilder

end JustDb

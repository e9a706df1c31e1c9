import JustDb.SSTable.PointLookup

/-!
# Range reads of a table

`range` walks block positions from the block of the start key, up to the length of
the end key in bytes, which has nothing to do with the number of blocks.  The walk
leaves the index when the end key is longer than that and no block starts at or
behind it, and it misses blocks when the end key is shorter.
-/

namespace JustDb

open Stateful Parsing Deserializer

/-- `start <= key && key < end` -/
def InRange (start stop : Key) (entry : Entry) : Prop :=
  start ≤ entry.key ∧ entry.key < stop

instance instDecidablePredInRange (start stop : Key) : DecidablePred (InRange start stop) :=
  fun _ => inferInstanceAs (Decidable (_ ∧ _))

/-- The entries of a list in a range. -/
def rangeOf (start stop : Key) (entries : List Entry) : List Entry :=
  entries.filter fun entry => InRange start stop entry

theorem mem_rangeOf {start stop : Key} {entries : List Entry} {entry : Entry} :
    entry ∈ rangeOf start stop entries ↔ entry ∈ entries ∧ InRange start stop entry := by
  rw [rangeOf, List.mem_filter, decide_eq_true_eq]

theorem rangeOf_append (start stop : Key) (front back : List Entry) :
    rangeOf start stop (front ++ back) = rangeOf start stop front ++ rangeOf start stop back :=
  List.filter_append ..

theorem rangeOf_eq_nil {start stop : Key} {entries : List Entry} :
    rangeOf start stop entries = [] ↔ ∀ entry ∈ entries, ¬ InRange start stop entry := by
  rw [List.eq_nil_iff_forall_not_mem]
  constructor
  · intro none entry member inside
    exact none entry (mem_rangeOf.mpr ⟨member, inside⟩)
  · intro none entry member
    exact none entry (mem_rangeOf.mp member).1 (mem_rangeOf.mp member).2

/-! ## One block -/

/-- The scan returns the records in range; the others are skipped. -/
theorem decodes_rangeRecords (start stop : Key) {group : List Entry}
    (encodable : ∀ entry ∈ group, entry.Encodable) :
    Decodes cursor (rangeRecords start stop group.length) (bodyBytes group)
      (rangeOf start stop group) := by
  induction group with
  | nil => exact .pure []
  | cons entry group ih =>
      have fits := encodable entry List.mem_cons_self
      have rest := ih fun other member => encodable other (List.mem_cons_of_mem _ member)
      rw [bodyBytes, List.flatMap_cons, entryBytes_eq, List.append_assoc]
      refine (decodes_readKey fits.key).bind ?_
      by_cases inside : InRange start stop entry
      · have taken : rangeOf start stop (entry :: group) =
            entry :: rangeOf start stop group :=
          List.filter_cons_of_pos (decide_eq_true inside)
        rw [if_pos (show start ≤ entry.key ∧ entry.key < stop from inside), taken]
        exact (decodes_readVersion fits.value).bind (rest.map (.pure _))
      · have skipped : rangeOf start stop (entry :: group) = rangeOf start stop group :=
          List.filter_cons_of_neg (by simpa using inside)
        rw [if_neg (show ¬ (start ≤ entry.key ∧ entry.key < stop) from inside), skipped]
        exact (decodes_skipVersion fits.value).bind rest

/-- Reading a range from a block finds its entries in range. -/
theorem getEntriesInRangeFromBlock_blockBytes {group : List Entry} (parsable : Parsable group)
    (start stop : Key) :
    getEntriesInRangeFromBlock (blockBytes group) start stop =
      .ok (rangeOf start stop group) := by
  have whole : Decodes cursor
      (do let entryCount ← readU32; rangeRecords start stop entryCount.toNat)
      (blockBytes group) (rangeOf start stop group) := by
    refine (decodes_readU32 group.length.toUInt32).bind ?_
    rw [toUInt32_toNat parsable.count]
    exact decodes_rangeRecords start stop parsable.encodable
  exact decodeFrom_of_returns_whole whole.returns parsable.addressable

/-! ## The walk over the blocks -/

/-- What the walk over `count` positions collects of the blocks from its first position
on; nothing when it leaves the index. -/
def walk (start stop : Key) : (groups : List (List Entry)) → (count : Nat) → Option (List Entry)
  | _, 0 => some []
  | [], _ + 1 => none
  | group :: groups, count + 1 =>
      if stop ≤ firstKey group then some []
      else (walk start stop groups count).map fun entries => rangeOf start stop group ++ entries

/-- The walk stays in the index when it has no more positions than there are blocks, or a
block to stop at; it collects what is in range of the blocks at its positions. -/
theorem walk_eq (start stop : Key) {groups : List (List Entry)}
    (nonempty : ∀ group ∈ groups, group ≠ []) (ascending : Ascending groups.flatten)
    (count : Nat) :
    walk start stop groups count =
      if count ≤ groups.length ∨ ∃ group ∈ groups, stop ≤ firstKey group then
        some (rangeOf start stop (groups.take count).flatten)
      else none := by
  induction groups generalizing count with
  | nil =>
      cases count with
      | zero => rfl
      | succ count => simp [walk]
  | cons group groups ih =>
      cases count with
      | zero => simp [walk, rangeOf]
      | succ count =>
          rw [walk]
          by_cases beyond : stop ≤ firstKey group
          · have none : rangeOf start stop ((group :: groups).take (count + 1)).flatten = [] := by
              rw [rangeOf_eq_nil]
              intro entry member inside
              have held : entry ∈ (group :: groups).flatten := by
                obtain ⟨block, taken, within⟩ := List.mem_flatten.mp member
                exact List.mem_flatten_of_mem (List.mem_of_mem_take taken) within
              have above := ascending.firstKey_le held
              rw [firstKey_flatten (nonempty group List.mem_cons_self)] at above
              exact absurd inside.2 (not_lt.mpr (beyond.trans above))
            rw [if_pos beyond, if_pos (.inr ⟨group, List.mem_cons_self, beyond⟩), none]
          · have tail := ih (fun other member => nonempty other (List.mem_cons_of_mem _ member))
              (List.pairwise_append.mp ascending).2.1 count
            have blocks : (count + 1 ≤ (group :: groups).length ∨
                ∃ other ∈ group :: groups, stop ≤ firstKey other) ↔
                (count ≤ groups.length ∨ ∃ other ∈ groups, stop ≤ firstKey other) := by
              simp [beyond]
            rw [if_neg beyond, tail, List.take_succ_cons, List.flatten_cons, rangeOf_append]
            by_cases stays : count ≤ groups.length ∨ ∃ other ∈ groups, stop ≤ firstKey other
            · rw [if_pos stays, if_pos (blocks.mpr stays)]
              rfl
            · rw [if_neg stays, if_neg fun whole => stays (blocks.mp whole)]
              rfl

/-- Blocks in front of one that starts no higher than the start key hold nothing in
range. -/
theorem rangeOf_take_eq_nil {groups : List (List Entry)} (start stop : Key)
    (nonempty : ∀ group ∈ groups, group ≠ []) (ascending : Ascending groups.flatten)
    {position : Nat} {group : List Entry} (at_ : groups[position]? = some group)
    (lower : firstKey group ≤ start) :
    rangeOf start stop (groups.take position).flatten = [] := by
  obtain ⟨inside, here⟩ := List.getElem?_eq_some_iff.mp at_
  obtain ⟨first, held, keyed⟩ := exists_firstKey (nonempty group (List.mem_of_getElem? at_))
  rw [← List.take_append_drop position groups, List.flatten_append] at ascending
  rw [rangeOf_eq_nil]
  intro entry member within
  have behind : first ∈ (groups.drop position).flatten := by
    rw [List.drop_eq_getElem_cons inside, here]
    exact List.mem_append_left _ held
  have below := (List.pairwise_append.mp ascending).2.2 entry member first behind
  rw [keyed] at below
  exact absurd (below.trans_le lower) (not_lt.mpr within.1)

/-- Where a walk may start: at the first block, or at one that starts no higher than the
start key. -/
def StartsAt (groups : List (List Entry)) (start : Key) (position : Nat) : Prop :=
  position = 0 ∨ ∃ group, groups[position]? = some group ∧ firstKey group ≤ start

section StartsAt

variable {groups : List (List Entry)} {start stop : Key} {position : Nat}

theorem StartsAt.le_length (starts : StartsAt groups start position) :
    position ≤ groups.length := by
  rcases starts with zero | ⟨group, at_, _⟩
  · rw [zero]
    exact Nat.zero_le _
  · exact (List.getElem?_eq_some_iff.mp at_).1.le

/-- A block to stop at lies at the start of the walk or behind it. -/
theorem StartsAt.exists_drop_iff (starts : StartsAt groups start position) (stop : Key)
    (nonempty : ∀ group ∈ groups, group ≠ []) (ascending : Ascending groups.flatten) :
    (∃ group ∈ groups.drop position, stop ≤ firstKey group) ↔
      ∃ group ∈ groups, stop ≤ firstKey group := by
  constructor
  · intro ⟨group, member, beyond⟩
    exact ⟨group, List.mem_of_mem_drop member, beyond⟩
  · intro ⟨group, member, beyond⟩
    rcases starts with zero | ⟨first, at_, _⟩
    · rw [zero]
      exact ⟨group, member, beyond⟩
    · obtain ⟨index, inside, rfl⟩ := List.mem_iff_getElem.mp member
      rcases Nat.lt_or_ge index position with before | behind
      · have above := firstKey_lt nonempty ascending before (List.getElem?_eq_getElem inside) at_
        have kept : first ∈ groups.drop position := by
          obtain ⟨room, rfl⟩ := List.getElem?_eq_some_iff.mp at_
          rw [List.drop_eq_getElem_cons room]
          exact List.mem_cons_self
        exact ⟨first, kept, beyond.trans above.le⟩
      · have kept : groups[index] ∈ groups.drop position := by
          rw [List.mem_drop_iff_getElem]
          refine ⟨index - position, by omega, ?_⟩
          simp only [Nat.add_sub_cancel' behind]
        exact ⟨_, kept, beyond⟩

/-- Blocks in front of the start hold nothing in range, so the walk might as well have
begun at the first block. -/
theorem StartsAt.rangeOf_take (starts : StartsAt groups start position)
    (nonempty : ∀ group ∈ groups, group ≠ []) (ascending : Ascending groups.flatten)
    (count : Nat) :
    rangeOf start stop ((groups.drop position).take (count - position)).flatten =
      rangeOf start stop (groups.take count).flatten := by
  have front : rangeOf start stop (groups.take position).flatten = [] := by
    rcases starts with zero | ⟨group, at_, lower⟩
    · rw [zero]
      rfl
    · exact rangeOf_take_eq_nil start stop nonempty ascending at_ lower
  rcases Nat.le_total position count with short | long
  · have split : groups.take count =
        groups.take position ++ (groups.drop position).take (count - position) := by
      rw [← List.take_add, Nat.add_sub_cancel' short]
    rw [split, List.flatten_append, rangeOf_append, front, List.nil_append]
  · have none : rangeOf start stop (groups.take count).flatten = [] := by
      rw [rangeOf_eq_nil] at front ⊢
      intro entry member
      obtain ⟨block, taken, within⟩ := List.mem_flatten.mp member
      have earlier : block ∈ groups.take position :=
        (List.take_prefix_take_left long).subset taken
      exact front entry (List.mem_flatten_of_mem earlier within)
    rw [none, Nat.sub_eq_zero_of_le long, List.take_zero]
    rfl

end StartsAt

namespace SSTableReader

variable {external : External} {reader : SSTableReader} {stored : List Entry → Bytes}
  {groups : List (List Entry)}

/-- On a reader that serves its blocks the loop of `range` is the walk. -/
theorem Serves.rangeBlocks (serves : Serves external reader stored groups) (start stop : Key)
    (first count : Nat) :
    ∃ after, Serves external after stored groups ∧
      SSTableReader.rangeBlocks external start stop (List.range' first count) reader =
        match walk start stop (groups.drop first) count with
        | some entries => .ok entries after
        | none => .error .panic after := by
  induction count generalizing first reader with
  | zero =>
      rw [walk]
      exact ⟨reader, serves, rfl⟩
  | succ count ih =>
      rw [List.range'_succ, SSTableReader.rangeBlocks, bind_of_ok (get_apply reader)]
      cases at_ : groups[first]? with
      | none =>
          rw [List.drop_eq_nil_of_le (List.getElem?_eq_none_iff.mp at_), walk]
          refine ⟨reader, serves, ?_⟩
          simp only [serves.index_getElem?, at_, Option.map_none]
          rfl
      | some group =>
          obtain ⟨inside, rfl⟩ := List.getElem?_eq_some_iff.mp at_
          rw [List.drop_eq_getElem_cons inside, walk]
          simp only [serves.index_getElem?, at_, Option.map_some, locate]
          by_cases beyond : stop ≤ firstKey groups[first]
          · rw [if_pos beyond, if_pos beyond]
            exact ⟨reader, serves, rfl⟩
          · obtain ⟨after, read, served⟩ := serves.readBlock at_
            obtain ⟨last, kept, rest⟩ := ih served (first + 1)
            refine ⟨last, kept, ?_⟩
            have parsable := serves.parsable _ (List.mem_of_getElem? at_)
            rw [if_neg beyond, if_neg beyond]
            change (SSTableReader.readBlock external (locate stored groups first groups[first]) >>=
              _) reader = _
            rw [bind_of_ok read, getEntriesInRangeFromBlock_blockBytes parsable start stop,
              bind_of_ok (lift_ok _ _)]
            cases walked : walk start stop (groups.drop (first + 1)) count with
            | none =>
                rw [walked] at rest
                rw [bind_of_error rest]
                rfl
            | some entries =>
                rw [walked] at rest
                rw [bind_of_ok rest]
                rfl

theorem Serves.startsAt (serves : Serves external reader stored groups)
    (nonempty : ∀ group ∈ groups, group ≠ []) (ascending : Ascending groups.flatten)
    (start : Key) : StartsAt groups start ((reader.findBlockForKey start).getD 0) := by
  have found := serves.findBlockForKey nonempty ascending start
  cases search : reader.findBlockForKey start with
  | none => exact .inl rfl
  | some position =>
      rw [search] at found
      obtain ⟨group, at_, lower, _⟩ := found
      exact .inr ⟨group, at_, lower⟩

/-- A range read collects the entries in range of the first blocks, as many as the end
key has bytes, and panics where it leaves the index. -/
theorem Serves.range (serves : Serves external reader stored groups)
    (nonempty : ∀ group ∈ groups, group ≠ []) (ascending : Ascending groups.flatten)
    (start stop : Key) :
    ∃ after, Serves external after stored groups ∧
      SSTableReader.range external start stop reader =
        if stop.length ≤ groups.length ∨ ∃ group ∈ groups, stop ≤ firstKey group then
          .ok (rangeOf start stop (groups.take stop.length).flatten) after
        else .error .panic after := by
  have starts := serves.startsAt nonempty ascending start
  rw [SSTableReader.range, bind_of_ok (get_apply reader)]
  generalize (reader.findBlockForKey start).getD 0 = position at starts ⊢
  obtain ⟨after, served, walked⟩ := serves.rangeBlocks start stop position
    (stop.length - position)
  refine ⟨after, served, ?_⟩
  have behind : ∀ group ∈ groups.drop position, group ≠ [] :=
    fun group member => nonempty group (List.mem_of_mem_drop member)
  have sorted : Ascending (groups.drop position).flatten := by
    rw [← List.take_append_drop position groups, List.flatten_append] at ascending
    exact (List.pairwise_append.mp ascending).2.1
  have enough : stop.length - position ≤ (groups.drop position).length ↔
      stop.length ≤ groups.length := by
    have inside := starts.le_length
    rw [List.length_drop]
    omega
  have same := or_congr enough (starts.exists_drop_iff stop nonempty ascending)
  rw [walked, walk_eq start stop behind sorted, starts.rangeOf_take nonempty ascending]
  by_cases stays : stop.length ≤ groups.length ∨ ∃ group ∈ groups, stop ≤ firstKey group
  · rw [if_pos (same.mpr stays), if_pos stays]
  · rw [if_neg fun behind => stays (same.mp behind), if_neg stays]

/-- A range read returns the entries of a list in range, in their order, after every
history of block reads. -/
def RangeExact (external : External) (entries : List Entry) (start stop : Key)
    (reader : SSTableReader) : Prop :=
  ∀ history : List IndexEntry, (∀ indexEntry ∈ history, indexEntry ∈ reader.index) →
    ∃ after, SSTableReader.range external start stop (reader.afterReads external history) =
      .ok (rangeOf start stop entries) after

theorem Serves.rangeExact_iff (serves : Serves external reader stored groups)
    (nonempty : ∀ group ∈ groups, group ≠ []) (ascending : Ascending groups.flatten)
    (entries : List Entry) (start stop : Key) :
    reader.RangeExact external entries start stop ↔
      (stop.length ≤ groups.length ∨ ∃ group ∈ groups, stop ≤ firstKey group) ∧
        rangeOf start stop (groups.take stop.length).flatten = rangeOf start stop entries := by
  constructor
  · intro exact
    obtain ⟨after, ran⟩ := exact [] (by simp)
    obtain ⟨_, _, returned⟩ := serves.range nonempty ascending start stop
    change SSTableReader.range external start stop reader = _ at ran
    rw [returned] at ran
    split at ran
    next stays =>
      exact ⟨stays, (EStateM.Result.ok.inj ran).1⟩
    next => cases ran
  · intro ⟨stays, same⟩ history indexed
    obtain ⟨after, _, returned⟩ := (serves.afterReads indexed).range nonempty ascending start stop
    rw [if_pos stays, same] at returned
    exact ⟨after, returned⟩

end SSTableReader

/-! ## Tables from a builder -/

/-- The walk of a range read over a table of some entries stays in the index and meets
every entry in range. -/
structure RangeReaches (entries : List Entry) (start stop : Key) : Prop where
  indexed : stop.length ≤ (indexedBlocks entries).length ∨
    ∃ group ∈ indexedBlocks entries, stop ≤ firstKey group
  reached : ∀ entry ∈ entries, InRange start stop entry →
    entry ∈ ((indexedBlocks entries).take stop.length).flatten

/-- The first indexed blocks hold a front part of the entries. -/
theorem exists_append_eq_of_take (entries : List Entry) (count : Nat) :
    ∃ back, ((indexedBlocks entries).take count).flatten ++ back = entries := by
  have front : (indexedBlocks entries).take count <+: splitBlocks entries :=
    (List.take_prefix _ _).trans (List.take_prefix _ _)
  obtain ⟨rest, whole⟩ := front
  refine ⟨rest.flatten, ?_⟩
  rw [← List.flatten_append, whole, flatten_splitBlocks]

/-- In ascending entries, a front part has all entries in range exactly when each of
them lies in it. -/
theorem Ascending.rangeOf_front_iff {front back : List Entry}
    (ascending : Ascending (front ++ back)) (start stop : Key) :
    rangeOf start stop front = rangeOf start stop (front ++ back) ↔
      ∀ entry ∈ front ++ back, InRange start stop entry → entry ∈ front := by
  rw [rangeOf_append, List.self_eq_append_right, rangeOf_eq_nil]
  constructor
  · intro none entry member inside
    rcases List.mem_append.mp member with kept | later
    · exact kept
    · exact absurd inside (none entry later)
  · intro kept entry later inside
    have earlier := kept entry (List.mem_append_right _ later) inside
    exact lt_irrefl _ ((List.pairwise_append.mp ascending).2.2 entry earlier entry later)

namespace SSTableBuilder

variable {external : External}

/-- A recovered reader reads a range exactly when the walk of the read stays in the
index and meets every entry in range. -/
theorem Built.rangeExact_iff {builder : SSTableBuilder} {createdAt : Timestamp}
    {entries : List Entry} {sink : Sink} {bloomFilter : BloomFilter}
    (built : Built external builder createdAt entries sink bloomFilter)
    (bounded : sink.written.length ≤ maxFileSize) (plain : builder.compression ≠ .zstd)
    (roundTrips : external.Lz4RoundTrips) (limits : ∀ entry ∈ entries, entry.WithinLimits)
    (path : FileName) (mapped : Bool) (start stop : Key) :
    (∃ reader, SSTableReader.recover path sink.written mapped = .ok reader ∧
        reader.RangeExact external entries start stop) ↔
      RangeReaches entries start stop := by
  obtain ⟨reader, recovered, serves⟩ :=
    SSTableReader.serves_of_built built bounded plain roundTrips limits path mapped
  have nonempty : ∀ group ∈ indexedBlocks entries, group ≠ [] :=
    fun group member => ne_nil_of_mem_indexedBlocks member
  have ascending := ascending_indexedBlocks built.ascending
  have exact : reader.RangeExact external entries start stop ↔
      (stop.length ≤ (indexedBlocks entries).length ∨
          ∃ group ∈ indexedBlocks entries, stop ≤ firstKey group) ∧
        rangeOf start stop ((indexedBlocks entries).take stop.length).flatten =
          rangeOf start stop entries :=
    serves.rangeExact_iff nonempty ascending entries start stop
  have front : rangeOf start stop ((indexedBlocks entries).take stop.length).flatten =
        rangeOf start stop entries ↔
      ∀ entry ∈ entries, InRange start stop entry →
        entry ∈ ((indexedBlocks entries).take stop.length).flatten := by
    obtain ⟨back, whole⟩ := exists_append_eq_of_take entries stop.length
    have sorted := built.ascending
    rw [← whole] at sorted
    have split := sorted.rangeOf_front_iff start stop
    rwa [whole] at split
  rw [front] at exact
  constructor
  · intro ⟨other, otherRecovered, reads⟩
    cases recovered.symm.trans otherRecovered
    obtain ⟨indexed, reached⟩ := exact.mp reads
    exact ⟨indexed, reached⟩
  · intro reaches
    exact ⟨reader, recovered, exact.mpr ⟨reaches.indexed, reaches.reached⟩⟩

/-- On a reader recovered from a table, a range read is exact after every history of
block reads exactly when its walk stays in the index and meets every entry in range. -/
theorem range_exact_iff {builder : SSTableBuilder} {output : Output} {createdAt : Timestamp}
    {entries : List Entry} {metadata : SStableMeta} {sink : Sink}
    (roundTrips : external.Lz4RoundTrips) (bounded : output.Bounded)
    (plain : builder.compression ≠ .zstd) (limits : ∀ entry ∈ entries, entry.WithinLimits)
    (ran : builder.build external createdAt entries { output } = .ok metadata sink)
    (path : FileName) (mapped : Bool) (start stop : Key) :
    (∃ reader, SSTableReader.recover path sink.written mapped = .ok reader ∧
        reader.RangeExact external entries start stop) ↔
      RangeReaches entries start stop := by
  obtain ⟨bloomFilter, built, fits⟩ := build_eq_ok ran
  exact built.rangeExact_iff (fits bounded) plain roundTrips limits path mapped start stop

/-- An entry larger than a block. -/
private def wideEntry (key : UInt8) : Entry where
  key := [key]
  value := some (List.replicate blockSize key)
  timestamp := 5
  sequence := 1

private def threeBlocks : List Entry :=
  [wideEntry 1, wideEntry 2, wideEntry 3]

private theorem mem_threeBlocks {entry : Entry} (member : entry ∈ threeBlocks) :
    ∃ key, entry = wideEntry key := by
  rw [threeBlocks] at member
  simp only [List.mem_cons, List.not_mem_nil, or_false] at member
  rcases member with rfl | rfl | rfl
  all_goals exact ⟨_, rfl⟩

private theorem threeBlocks_withinLimits : ∀ entry ∈ threeBlocks, entry.WithinLimits := by
  intro entry member
  obtain ⟨key, rfl⟩ := mem_threeBlocks member
  refine ⟨(by decide : 1 ≤ maxKeySize), fun value stored => ?_⟩
  cases stored
  rw [List.length_replicate]
  decide

private theorem splitBlocks_threeBlocks :
    splitBlocks threeBlocks = [[wideEntry 1], [wideEntry 2], [wideEntry 3]] := by
  apply splitBlocks_of_large
  intro entry member
  obtain ⟨key, rfl⟩ := mem_threeBlocks member
  have value : (wideEntry key).value.map (fun value => 4 + value.length) =
      some (4 + blockSize) := by
    simp only [wideEntry, Option.map_some, List.length_replicate]
  rw [entryBytes_length, value, Option.getD_some]
  omega

/-- An end key of two bytes, the second block in range and the third not. -/
theorem range_exact_iff_threeBlocks :
    (splitBlocks threeBlocks).length = 3 ∧
      ∃ reader, SSTableReader.recover [] (final (uncompressed.build External.plain 0 threeBlocks
          { output := .spacious })).written true = .ok reader ∧
        reader.RangeExact External.plain threeBlocks [1] [2, 9] := by
  have returned : succeeded (uncompressed.build External.plain 0 threeBlocks
      { output := .spacious }) = true := by decide +kernel
  obtain ⟨metadata, ran⟩ := exists_ok_of_succeeded returned
  have indexed : indexedBlocks threeBlocks = [[wideEntry 1], [wideEntry 2], [wideEntry 3]] := by
    rw [indexedBlocks, splitBlocks_threeBlocks]
    rfl
  have reaches : RangeReaches threeBlocks [1] [2, 9] := by
    constructor
    · rw [indexed]
      exact .inl (by decide)
    · rw [indexed]
      intro entry member inside
      rw [threeBlocks] at member
      simp only [List.mem_cons, List.not_mem_nil, or_false] at member
      rcases member with rfl | rfl | rfl
      · simp
      · simp
      · exact absurd inside.2 (by decide)
  exact ⟨by rw [splitBlocks_threeBlocks]; rfl,
    (range_exact_iff External.plain_lz4RoundTrips Output.spacious_bounded
      (by decide) threeBlocks_withinLimits ran [] true [1] [2, 9]).mpr reaches⟩

/-- A table of one entry. -/
private def single : List Entry :=
  [{ key := [2], value := some [20], timestamp := 5, sequence := 1 }]

private theorem single_withinLimits : ∀ entry ∈ single, entry.WithinLimits := by
  intro entry member
  rw [List.mem_singleton.mp member]
  exact ⟨by decide, fun value stored => by cases stored; decide⟩

private theorem single_built :
    ∃ metadata sink, uncompressed.build External.plain 0 single { output := .spacious } =
      .ok metadata sink := by
  have returned : succeeded (uncompressed.build External.plain 0 single
      { output := .spacious }) = true := by decide +kernel
  obtain ⟨metadata, ran⟩ := exists_ok_of_succeeded returned
  exact ⟨metadata, _, ran⟩

/-- An end key of two bytes takes the walk out of the index of a table of one block. -/
theorem range_leaves_index :
    ¬ ∀ (entries : List Entry) (metadata : SStableMeta) (sink : Sink) (start stop : Key),
      (∀ entry ∈ entries, entry.WithinLimits) →
      uncompressed.build External.plain 0 entries { output := .spacious } = .ok metadata sink →
      ∃ reader, SSTableReader.recover [] sink.written true = .ok reader ∧
        reader.RangeExact External.plain entries start stop := by
  intro exact
  obtain ⟨metadata, sink, ran⟩ := single_built
  obtain ⟨bloomFilter, built, fits⟩ := build_eq_ok ran
  have reads := exact single metadata sink [1] [3, 0] single_withinLimits ran
  have reaches := (built.rangeExact_iff (fits Output.spacious_bounded) (by decide)
    External.plain_lz4RoundTrips single_withinLimits [] true [1] [3, 0]).mp reads
  have indexed := reaches.indexed
  revert indexed
  decide

end SSTableBuilder

end JustDb

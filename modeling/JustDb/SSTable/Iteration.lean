import JustDb.SSTable.Serving

/-!
# Iterating over a table

The iterator is a cursor between two entries of a list of blocks.  `Pending` ties
its state to the entries that are still to come; each call of `next` returns the
first of them and leaves the rest.
-/

namespace JustDb

open Stateful

namespace SSTableIterator

variable {external : External} {stored : List Entry → Bytes} {groups : List (List Entry)}

/-- The entries still to come: the iterator is in front of a block, or inside one that
it has loaded. -/
inductive Pending (external : External) (stored : List Entry → Bytes)
    (groups : List (List Entry)) : SSTableIterator → List Entry → Prop
  | before {iterator : SSTableIterator} (serves : iterator.reader.Serves external stored groups)
      (unloaded : iterator.currentBlockData = none) (empty : iterator.currentBlockEntries = []) :
      Pending external stored groups iterator (groups.drop iterator.currentBlock).flatten
  | inside {iterator : SSTableIterator} (serves : iterator.reader.Serves external stored groups)
      (loaded : iterator.currentBlockData ≠ none)
      (current : groups[iterator.currentBlock]? = some iterator.currentBlockEntries) :
      Pending external stored groups iterator
        (iterator.currentBlockEntries.drop iterator.currentEntry ++
          (groups.drop (iterator.currentBlock + 1)).flatten)

theorem pending_new {reader : SSTableReader} (serves : reader.Serves external stored groups) :
    Pending external stored groups (new reader) groups.flatten :=
  .before serves rfl rfl

/-- Leaving a block stops in front of the next one. -/
theorem pending_advance {iterator : SSTableIterator}
    (serves : iterator.reader.Serves external stored groups) :
    Pending external stored groups iterator.advance
      (groups.drop (iterator.currentBlock + 1)).flatten :=
  .before serves rfl rfl

theorem index_length {reader : SSTableReader} (serves : reader.Serves external stored groups) :
    reader.index.length = groups.length := by
  rw [serves.index, indexFrom_length]

/-! ## Loading a block -/

theorem ensureBlock_of_loaded {iterator : SSTableIterator}
    (loaded : iterator.currentBlockData ≠ none) :
    ensureBlock external iterator = .ok () iterator := by
  rw [ensureBlock, bind_of_ok (get_apply iterator), if_neg (by simpa using loaded), pure_apply]

/-- Past the last block there is nothing to load. -/
theorem ensureBlock_of_past {iterator : SSTableIterator}
    (serves : iterator.reader.Serves external stored groups)
    (past : groups.length ≤ iterator.currentBlock) :
    ensureBlock external iterator = .ok () iterator := by
  rw [ensureBlock, bind_of_ok (get_apply iterator)]
  split
  · have missing : iterator.reader.index[iterator.currentBlock]? = none := by
      rw [List.getElem?_eq_none_iff, index_length serves]
      exact past
    rw [loadCurrentBlock, bind_of_ok (get_apply iterator), missing]
    rfl
  · rfl

/-- In front of a block, the block is loaded. -/
theorem ensureBlock_of_unloaded {iterator : SSTableIterator}
    (serves : iterator.reader.Serves external stored groups)
    (unloaded : iterator.currentBlockData = none) {group : List Entry}
    (at_ : groups[iterator.currentBlock]? = some group) :
    ∃ reader data, reader.Serves external stored groups ∧
      ensureBlock external iterator = .ok ()
        { iterator with
          reader
          currentBlockData := some data
          currentBlockEntries := group
          currentEntry := 0 } := by
  obtain ⟨reader, read, served⟩ := serves.readBlock at_
  refine ⟨reader, blockBytes group, served, ?_⟩
  have located : iterator.reader.index[iterator.currentBlock]? =
      some (locate stored groups iterator.currentBlock group) := by
    rw [serves.index_getElem?, at_]
    rfl
  have loading : onReader (SSTableReader.readBlock external
      (locate stored groups iterator.currentBlock group)) iterator =
      .ok (blockBytes group) { iterator with reader } := by
    rw [onReader, read]
  rw [ensureBlock, bind_of_ok (get_apply iterator), if_pos (by simp [unloaded]), loadCurrentBlock,
    bind_of_ok (get_apply iterator), located]
  refine (bind_of_ok loading).trans ?_
  rw [parseBlock_blockBytes (serves.parsable group (List.mem_of_getElem? at_)),
    bind_of_ok (lift_ok _ _), modify_apply]

/-! ## One call of `next` -/

/-- A turn that finds an entry in the loaded block returns it. -/
theorem nextLoop_of_entry {iterator loaded : SSTableIterator} {entry : Entry} (fuel : Nat)
    (ensured : ensureBlock external iterator = .ok () loaded)
    (found : loaded.currentBlockEntries[loaded.currentEntry]? = some entry) :
    nextLoop external (fuel + 1) iterator =
      .ok (some entry) { loaded with currentEntry := loaded.currentEntry + 1 } := by
  rw [nextLoop, bind_of_ok ensured, bind_of_ok (get_apply loaded)]
  simp only [found, bind_eq, set_apply, pure_apply]

/-- A turn that finds none leaves the block. -/
theorem nextLoop_of_exhausted {iterator loaded : SSTableIterator} (fuel : Nat)
    (ensured : ensureBlock external iterator = .ok () loaded)
    (exhausted : loaded.currentBlockEntries[loaded.currentEntry]? = none) :
    nextLoop external (fuel + 1) iterator =
      if loaded.reader.index.length ≤ loaded.currentBlock + 1 then
        .ok none loaded.advance
      else
        nextLoop external fuel loaded.advance := by
  rw [nextLoop, bind_of_ok ensured, bind_of_ok (get_apply loaded)]
  simp only [exhausted, bind_eq, set_apply]
  split <;> rfl

/-- In front of a block, a turn returns the first entry of the block, or none past the
last block. -/
theorem nextLoop_of_before {iterator : SSTableIterator} (fuel : Nat)
    (nonempty : ∀ group ∈ groups, group ≠ [])
    (serves : iterator.reader.Serves external stored groups)
    (unloaded : iterator.currentBlockData = none) (empty : iterator.currentBlockEntries = []) :
    ∃ after, nextLoop external (fuel + 1) iterator =
        .ok (groups.drop iterator.currentBlock).flatten.head? after ∧
      Pending external stored groups after (groups.drop iterator.currentBlock).flatten.tail := by
  rcases Nat.lt_or_ge iterator.currentBlock groups.length with here | past
  · have at_ := List.getElem?_eq_getElem here
    obtain ⟨first, rest, group⟩ := List.exists_cons_of_ne_nil (nonempty _ (List.getElem_mem here))
    rw [group] at at_
    obtain ⟨reader, data, served, ensured⟩ := ensureBlock_of_unloaded serves unloaded at_
    rw [List.drop_eq_getElem_cons here, group]
    refine ⟨_, nextLoop_of_entry fuel ensured rfl, ?_⟩
    exact .inside served (by simp) at_
  · have ensured := ensureBlock_of_past serves past
    have none_ : iterator.currentBlockEntries[iterator.currentEntry]? = none := by
      rw [empty]
      rfl
    have last : iterator.reader.index.length ≤ iterator.currentBlock + 1 := by
      rw [index_length serves]
      omega
    rw [nextLoop_of_exhausted fuel ensured none_, if_pos last,
      List.drop_eq_nil_of_le past]
    refine ⟨_, rfl, ?_⟩
    have pending := pending_advance serves
    rwa [List.drop_eq_nil_of_le (by omega)] at pending

/-- A call of `next` returns the first entry still to come and leaves the others. -/
theorem Pending.next {iterator : SSTableIterator} {pending : List Entry}
    (nonempty : ∀ group ∈ groups, group ≠ [])
    (position : Pending external stored groups iterator pending) :
    (iterator.next external).1 = pending.head?.map .ok ∧
      Pending external stored groups (iterator.next external).2 pending.tail := by
  have turn : ∃ after, nextLoop external (iterator.reader.index.length + 1) iterator =
      .ok pending.head? after ∧ Pending external stored groups after pending.tail := by
    cases position with
    | before serves unloaded empty =>
        exact nextLoop_of_before _ nonempty serves unloaded empty
    | inside serves loaded current =>
        have ensured : ensureBlock external iterator = .ok () iterator :=
          ensureBlock_of_loaded loaded
        cases found : iterator.currentBlockEntries[iterator.currentEntry]? with
        | some entry =>
            obtain ⟨within, rfl⟩ := List.getElem?_eq_some_iff.mp found
            rw [List.drop_eq_getElem_cons within]
            exact ⟨_, nextLoop_of_entry _ ensured found, .inside serves loaded current⟩
        | none =>
            have passed := List.getElem?_eq_none_iff.mp found
            rw [nextLoop_of_exhausted _ ensured found, List.drop_eq_nil_of_le passed,
              List.nil_append]
            split
            next last =>
              rw [index_length serves] at last
              have pending := pending_advance serves
              rw [List.drop_eq_nil_of_le last] at pending ⊢
              exact ⟨_, rfl, pending⟩
            next more =>
              obtain ⟨fuel, length⟩ := Nat.exists_eq_succ_of_ne_zero (by omega :
                iterator.reader.index.length ≠ 0)
              rw [length]
              have served : iterator.advance.reader.Serves external stored groups := serves
              exact nextLoop_of_before fuel nonempty served rfl rfl
  obtain ⟨after, ran, left⟩ := turn
  rw [SSTableIterator.next, ran]
  cases pending with
  | nil => exact ⟨rfl, left⟩
  | cons entry rest => exact ⟨rfl, left⟩

/-! ## All calls of `next` -/

theorem Pending.advanced {iterator : SSTableIterator} {pending : List Entry}
    (nonempty : ∀ group ∈ groups, group ≠ [])
    (position : Pending external stored groups iterator pending) (calls : Nat) :
    Pending external stored groups (iterator.advanced external calls) (pending.drop calls) := by
  induction calls generalizing iterator pending with
  | zero => exact position
  | succ calls ih =>
      have rest := ih (position.next nonempty).2
      rwa [List.drop_tail] at rest

/-- The calls of `next` on a new iterator return the entries of the blocks in order, and
nothing after them. -/
theorem item_eq {reader : SSTableReader} (nonempty : ∀ group ∈ groups, group ≠ [])
    (serves : reader.Serves external stored groups) (call : Nat) :
    (new reader).item external call = groups.flatten[call]?.map .ok := by
  have position := (pending_new serves).advanced nonempty call
  rw [item, (position.next nonempty).1, List.head?_drop]

/-- With fuel for one more call than there are entries, a loop sees all of them. -/
theorem Pending.items {iterator : SSTableIterator} {pending : List Entry}
    (nonempty : ∀ group ∈ groups, group ≠ [])
    (position : Pending external stored groups iterator pending) {fuel : Nat}
    (enough : pending.length < fuel) : iterator.items external fuel = pending.map .ok := by
  induction fuel generalizing iterator pending with
  | zero => cases enough
  | succ fuel ih =>
      obtain ⟨first, rest⟩ := position.next nonempty
      have called : iterator.next external =
          (pending.head?.map .ok, (iterator.next external).2) := Prod.ext first rfl
      rw [SSTableIterator.items, called]
      cases pending with
      | nil => rfl
      | cons entry pending => exact congrArg _ (ih rest (Nat.lt_of_succ_lt_succ enough))

end SSTableIterator

/-! ## Tables from a builder -/

/-- No two entries of a list share a key. -/
def DistinctKeys (entries : List Entry) : Prop :=
  entries.Pairwise fun left right => left.key ≠ right.key

/-- The iterator over the index recovered from a file yields given entries, each once
and in ascending key order, and after them only `None`. -/
def IteratesBack (external : External) (contents : Bytes) (entries : List Entry) : Prop :=
  ∀ path mapped, ∃ reader sorted, SSTableReader.recover path contents mapped = .ok reader ∧
    sorted.Perm entries ∧ Ascending sorted ∧
    ∀ call, (SSTableIterator.new reader).item external call = sorted[call]?.map .ok

namespace SSTableBuilder

variable {external : External}

/-- Writing entries and iterating over the file gives them back: on every file system, a
build from distinct keys returns `Ok` unless an I/O call fails, and its file iterates
back; a build from keys that are not distinct returns `Err`. -/
def KeepsEntries (external : External) (builder : SSTableBuilder) (entries : List Entry) : Prop :=
  ∀ (output : Output) (createdAt : Timestamp), output.Bounded →
    (DistinctKeys entries →
      match builder.buildFromVec external createdAt entries { output } with
      | .ok _ sink => IteratesBack external sink.written entries
      | .error fault sink => fault = .error .io ∧ sink.refused = true) ∧
    (¬ DistinctKeys entries → ∃ error sink,
      builder.buildFromVec external createdAt entries { output } = .error (.error error) sink)

/-- A filter that cannot be made makes the build panic. -/
theorem buildFromVec_of_panic {builder : SSTableBuilder} {output : Output} {entries : List Entry}
    {fault : Fault} (opens : output.opens = true)
    (failed : BloomFilter.new external entries.length builder.bloomFalsePositiveRate =
      .error fault) (createdAt : Timestamp) :
    builder.buildFromVec external createdAt entries { output } = .error .panic { output } := by
  have created : Sink.create { output } = .ok () { output } := by
    rw [Sink.create, if_pos opens]
  have panicked := BloomFilter.panic_of_new external failed
  rw [← (sortedByKey_perm entries).length_eq, panicked] at failed
  rw [buildFromVec, build, SSTableWriter.new]
  refine bind_of_error ((bind_of_ok created).trans ?_)
  rw [bind_of_ok (get_apply _), failed]
  rfl

/-- Entries are kept only where the filter can be made. -/
theorem bloom_of_keepsEntries {builder : SSTableBuilder} {entries : List Entry}
    (keeps : KeepsEntries external builder entries) :
    ∃ bloomFilter, BloomFilter.new external entries.length builder.bloomFalsePositiveRate =
      .ok bloomFilter := by
  cases made : BloomFilter.new external entries.length builder.bloomFalsePositiveRate with
  | ok bloomFilter => exact ⟨bloomFilter, rfl⟩
  | error fault =>
      have opens : Output.spacious.opens = true := rfl
      have panics := buildFromVec_of_panic opens made 0
      obtain ⟨distinct, shared⟩ := keeps .spacious 0 Output.spacious_bounded
      rw [panics] at distinct shared
      by_cases keys : DistinctKeys entries
      · exact absurd (distinct keys).1 (by decide)
      · obtain ⟨error, sink, same⟩ := shared keys
        cases same

/-- Within the limits of the engine and of the index, writing entries and iterating over
the file gives them back exactly when there are none or the byte count of the bloom
filter does not overflow. -/
theorem keepsEntries_iff {builder : SSTableBuilder} {entries : List Entry}
    (roundTrips : external.Lz4RoundTrips) (plain : builder.compression ≠ .zstd)
    (limits : ∀ entry ∈ entries, entry.WithinLimits)
    (few : (splitBlocks (sortedByKey entries)).length < u32Size) :
    KeepsEntries external builder entries ↔
      entries = [] ∨
        max (external.bloomBits entries.length builder.bloomFalsePositiveRate) 64 * 7 <
          wordSize := by
  rw [← List.length_eq_zero_iff, ← BloomFilter.new_isOk_iff]
  refine ⟨bloom_of_keepsEntries, ?_⟩
  rintro ⟨bloomFilter, made⟩ output createdAt bounded
  have count := (sortedByKey_perm entries).length_eq
  rw [← count] at made
  have within : ∀ entry ∈ sortedByKey entries, entry.WithinLimits :=
    fun entry member => limits entry ((sortedByKey_perm entries).mem_iff.mp member)
  have room : (sortedByKey entries).length < wordSize := by
    have total := length_le_splitBlocks (sortedByKey entries)
    unfold u32Size UInt32.size at few
    unfold blockSize at total
    unfold wordSize UInt64.size
    omega
  have sorted : Ascending (sortedByKey entries) ↔ DistinctKeys entries :=
    ascending_sortedByKey_iff
  rw [buildFromVec]
  cases ran : builder.build external createdAt (sortedByKey entries) { output } with
  | ok metadata sink =>
      obtain ⟨filter, built, fits⟩ := build_eq_ok ran
      refine ⟨fun _ path mapped => ?_, fun shared => absurd (sorted.mp built.ascending) shared⟩
      obtain ⟨reader, recovered, serves⟩ := SSTableReader.serves_of_built built (fits bounded)
        plain roundTrips within path mapped
      rw [indexedBlocks_of_lt few] at serves
      refine ⟨reader, sortedByKey entries, recovered, sortedByKey_perm entries,
        built.ascending, fun call => ?_⟩
      rw [SSTableIterator.item_eq (fun group member => ne_nil_of_mem_splitBlocks member) serves,
        flatten_splitBlocks]
  | error fault sink =>
      rcases build_eq_error bounded plain made within room ran with refused | disordered
      · exact ⟨fun _ => ⟨refused.1, refused.2.1⟩, fun _ => ⟨_, _, by rw [refused.1]⟩⟩
      · refine ⟨fun distinct => absurd (sorted.mpr distinct) disordered.2, fun _ => ?_⟩
        exact ⟨_, _, by rw [disordered.1]; rfl⟩

/-- Two entries out of key order: a delete marker and an empty value. -/
private def unorderedPair : List Entry :=
  [{ key := [2], value := none, timestamp := 6, sequence := 2 },
   { key := [1], value := some [], timestamp := 5, sequence := 1 }]

theorem keepsEntries_iff_unorderedPair : KeepsEntries External.plain {} unorderedPair := by
  have limits : ∀ entry ∈ unorderedPair, entry.WithinLimits := by
    intro entry member
    rcases List.mem_pair.mp member with rfl | rfl
    · exact ⟨by decide, fun value stored => by cases stored⟩
    · exact ⟨by decide, fun value stored => by cases stored; decide⟩
  exact (keepsEntries_iff External.plain_lz4RoundTrips (by decide) limits
    (by decide +kernel)).mpr (.inr (by decide +kernel))

/-- With the false-positive rate `0`, which `validate` accepts, building a table of one
entry panics. -/
theorem not_keepsEntries_rate_zero :
    ¬ KeepsEntries External.plain { bloomFalsePositiveRate := .finite 0 }
      [{ key := [1], value := some [10], timestamp := 5, sequence := 1 }] := by
  intro keeps
  have made := bloom_of_keepsEntries keeps
  rw [BloomFilter.new_isOk_iff] at made
  revert made
  decide +kernel

end SSTableBuilder

end JustDb

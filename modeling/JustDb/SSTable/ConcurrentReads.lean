import JustDb.Library.Memo
import JustDb.SSTable.Serving

/-!
# Reads on one table at the same time

Readers share a table and its block cache, and `read_block` takes the lock of the cache
twice: to look a block up, and to put it there after it was read from the file.  Other
readers run in between, and one of them may clear the cache.

A read is a query for blocks, so the rules of shared caches apply where blocks of one
offset are read alike.
-/

namespace JustDb

open Stateful Memo

namespace SSTableReader

variable (external : External)

/-- The blocks that are kept, by offset; past a hundred of them all are dropped. -/
def cachePolicy : Policy (AList fun _ : Nat => Bytes) Nat Bytes where
  lookup cache offset := cache.lookup offset
  insert cache offset data :=
    if (cache.insert offset data).entries.length > 100 then ∅ else cache.insert offset data
  size cache := cache.entries.length
  limit := 100
  lookup_insert {cache key answer other found} held := by
    split at held
    · cases held
    · by_cases same : other = key
      · subst same
        rw [AList.lookup_insert] at held
        exact .inl ⟨rfl, (Option.some.inj held).symm⟩
      · rw [AList.lookup_insert_ne same] at held
        exact .inr held
  size_insert cache key answer := by
    split
    · exact Nat.zero_le _
    next room => exact not_lt.mp room

@[simp] theorem cachePolicy_lookup (cache : AList fun _ : Nat => Bytes) (offset : Nat) :
    cachePolicy.lookup cache offset = cache.lookup offset := rfl

/-- The steps of `read_block` on the file. -/
def fetchBlock (reader : SSTableReader) (indexEntry : IndexEntry) : Result Bytes := do
  let stored ← reader.readAt indexEntry.offset indexEntry.size
  unpackBlock external reader.metadata.compression stored

/-- `read_block`, as a query. -/
def blockQuery (indexEntry : IndexEntry) : Query IndexEntry Bytes (Result Bytes) :=
  .ask indexEntry fun data => .done (.ok data)

/-- `get`, as a query. -/
def getQuery (reader : SSTableReader) (key : Key) :
    Query IndexEntry Bytes (Result (Option Entry)) :=
  (Query.done (reader.mightContain external key)).andThen fun maybe =>
    if maybe then
      match reader.findBlockForKey key with
      | none => .done (.ok none)
      | some position =>
          match reader.index[position]? with
          | none => .done (.error .panic)
          | some indexEntry =>
              (blockQuery indexEntry).andThen fun data => .done (searchInBlock data key)
    else
      .done (.ok none)

/-- The loop of `range`, as a query. -/
def rangeBlocksQuery (reader : SSTableReader) (start stop : Key) :
    (positions : List Nat) → Query IndexEntry Bytes (Result (List Entry))
  | [] => .done (.ok [])
  | position :: positions =>
      match reader.index[position]? with
      | none => .done (.error .panic)
      | some indexEntry =>
          if stop ≤ indexEntry.key then
            .done (.ok [])
          else
            (blockQuery indexEntry).andThen fun data =>
              (Query.done (getEntriesInRangeFromBlock data start stop)).andThen fun entries =>
                (rangeBlocksQuery reader start stop positions).andThen fun results =>
                  .done (.ok (entries ++ results))

/-- `range`, as a query. -/
def rangeQuery (reader : SSTableReader) (start stop : Key) :
    Query IndexEntry Bytes (Result (List Entry)) :=
  let startBlock := (reader.findBlockForKey start).getD 0
  reader.rangeBlocksQuery start stop (List.range' startBlock (stop.length - startBlock))

/-! ## The queries are the reads -/

/-- A table with another cache. -/
def withCache (reader : SSTableReader) (cache : AList fun _ : Nat => Bytes) : SSTableReader :=
  { reader with blockCache := cache }

@[simp] theorem withCache_blockCache (reader : SSTableReader)
    (cache : AList fun _ : Nat => Bytes) : (reader.withCache cache).blockCache = cache := rfl

@[simp] theorem withCache_metadata (reader : SSTableReader)
    (cache : AList fun _ : Nat => Bytes) :
    (reader.withCache cache).metadata = reader.metadata := rfl

@[simp] theorem withCache_readAt (reader : SSTableReader)
    (cache : AList fun _ : Nat => Bytes) (offset size : Nat) :
    (reader.withCache cache).readAt offset size = reader.readAt offset size := rfl

@[simp] theorem withCache_index (reader : SSTableReader)
    (cache : AList fun _ : Nat => Bytes) : (reader.withCache cache).index = reader.index := rfl

@[simp] theorem withCache_findBlockForKey (reader : SSTableReader)
    (cache : AList fun _ : Nat => Bytes) (key : Key) :
    (reader.withCache cache).findBlockForKey key = reader.findBlockForKey key := rfl

@[simp] theorem withCache_mightContain (external : External) (reader : SSTableReader)
    (cache : AList fun _ : Nat => Bytes) (key : Key) :
    (reader.withCache cache).mightContain external key = reader.mightContain external key := rfl

/-- How a query ends, as the end of a read. -/
def ended {α : Type} (reader : SSTableReader) :
    Result α × (AList fun _ : Nat => Bytes) → EStateM.Result Fault SSTableReader α
  | (.ok value, cache) => .ok value (reader.withCache cache)
  | (.error fault, cache) => .error fault (reader.withCache cache)

/-- The read does what the query does, on any cache. -/
def Performs {α : Type} (reader : SSTableReader) (read : Read α)
    (query : Query IndexEntry Bytes (Result α)) : Prop :=
  ∀ cache, read (reader.withCache cache) =
    reader.ended (exec cachePolicy IndexEntry.offset (reader.fetchBlock external) query cache)

variable {external : External} {reader : SSTableReader} {α β : Type}

theorem performs_lift (result : Result α) :
    reader.Performs external (lift result) (.done result) := by
  intro cache
  cases result <;> rfl

theorem Performs.bind {read : Read α} {query : Query IndexEntry Bytes (Result α)}
    (performs : reader.Performs external read query) {next : α → Read β}
    {use : α → Query IndexEntry Bytes (Result β)}
    (rest : ∀ value, reader.Performs external (next value) (use value)) :
    reader.Performs external (read >>= next) (query.andThen use) := by
  intro cache
  rw [bind_eq, performs cache, exec_andThen]
  cases exec cachePolicy IndexEntry.offset (reader.fetchBlock external) query cache with
  | mk outcome reached =>
      cases outcome with
      | ok value => exact rest value reached
      | error fault => rfl

theorem performs_readBlock (indexEntry : IndexEntry) :
    reader.Performs external (readBlock external indexEntry) (blockQuery indexEntry) := by
  intro cache
  rw [readBlock, bind_of_ok (get_apply _), blockQuery, exec, withCache_blockCache,
    cachePolicy_lookup]
  cases cache.lookup indexEntry.offset with
  | some cached => rfl
  | none =>
      simp only [withCache_readAt, withCache_metadata, bind_eq]
      cases stored : reader.readAt indexEntry.offset indexEntry.size with
      | error fault =>
          have fetched : reader.fetchBlock external indexEntry = .error fault := by
            rw [fetchBlock, stored]
            rfl
          rw [fetched]
          rfl
      | ok bytes =>
          have fetched : reader.fetchBlock external indexEntry =
              unpackBlock external reader.metadata.compression bytes := by
            rw [fetchBlock, stored]
            rfl
          simp only [fetched, lift_ok]
          cases unpackBlock external reader.metadata.compression bytes <;> rfl

theorem performs_get (key : Key) :
    reader.Performs external (get external key) (reader.getQuery external key) := by
  intro cache
  rw [get, bind_of_ok (get_apply _), withCache_mightContain]
  refine (performs_lift _).bind (fun maybe reached => ?_) cache
  cases maybe with
  | false => rfl
  | true =>
      rw [if_pos rfl, if_pos rfl, lookup, bind_of_ok (get_apply _), withCache_findBlockForKey,
        withCache_index]
      cases reader.findBlockForKey key with
      | none => rfl
      | some position =>
          simp only
          cases reader.index[position]? with
          | none => rfl
          | some indexEntry =>
              exact (performs_readBlock indexEntry).bind (fun data => performs_lift _) reached

theorem performs_rangeBlocks (start stop : Key) (positions : List Nat) :
    reader.Performs external (rangeBlocks external start stop positions)
      (reader.rangeBlocksQuery start stop positions) := by
  induction positions with
  | nil => exact fun cache => rfl
  | cons position positions ih =>
      intro cache
      rw [rangeBlocks, rangeBlocksQuery, bind_of_ok (get_apply _), withCache_index]
      cases reader.index[position]? with
      | none => rfl
      | some indexEntry =>
          by_cases past : stop ≤ indexEntry.key
          · simp only [if_pos past]
            rfl
          · simp only [if_neg past]
            refine (performs_readBlock indexEntry).bind (fun data => ?_) cache
            refine (performs_lift _).bind fun entries => ?_
            exact ih.bind fun results => performs_lift (.ok (entries ++ results))

theorem performs_range (start stop : Key) :
    reader.Performs external (range external start stop) (reader.rangeQuery start stop) :=
  fun cache => performs_rangeBlocks start stop _ cache

/-! ## What the queries ask for -/

/-- Index entries of one offset have one size. -/
def Unambiguous (reader : SSTableReader) : Prop :=
  ∀ first ∈ reader.index, ∀ second ∈ reader.index,
    first.offset = second.offset → first.size = second.size

/-- A table that was written block after block has an unambiguous index. -/
theorem Serves.unambiguous {stored : List Entry → Bytes} {groups : List (List Entry)}
    (serves : Serves external reader stored groups) : reader.Unambiguous := by
  intro first firstMember second secondMember same
  obtain ⟨left, leftFound⟩ := List.getElem?_of_mem firstMember
  obtain ⟨right, rightFound⟩ := List.getElem?_of_mem secondMember
  rw [serves.index_getElem?] at leftFound rightFound
  obtain ⟨leftGroup, leftAt, rfl⟩ := Option.map_eq_some_iff.mp leftFound
  obtain ⟨rightGroup, rightAt, rfl⟩ := Option.map_eq_some_iff.mp rightFound
  have equal : left = right := offsetOf_injective serves.stored_ne_nil
    (List.getElem?_eq_some_iff.mp leftAt).1.le (List.getElem?_eq_some_iff.mp rightAt).1.le same
  rw [equal, rightAt] at leftAt
  cases leftAt
  rfl

theorem Unambiguous.agrees (unambiguous : reader.Unambiguous) :
    Agrees IndexEntry.offset (reader.fetchBlock external) (· ∈ reader.index) := by
  intro first second firstMember secondMember same
  rw [fetchBlock, fetchBlock, unambiguous first firstMember second secondMember same, same]

/-- Nothing is wrong about an empty cache. -/
theorem coherent_empty (allowed : IndexEntry → Prop) :
    Coherent cachePolicy IndexEntry.offset (reader.fetchBlock external) allowed ∅ := by
  intro indexEntry _ data held
  cases held

theorem asks_blockQuery {indexEntry : IndexEntry} (member : indexEntry ∈ reader.index) :
    (blockQuery indexEntry).Asks (· ∈ reader.index) :=
  ⟨member, fun _ => trivial⟩

theorem asks_done {Outcome : Type} (outcome : Outcome) :
    (Query.done outcome : Query IndexEntry Bytes Outcome).Asks (· ∈ reader.index) :=
  trivial

theorem asks_getQuery (key : Key) :
    (reader.getQuery external key).Asks (· ∈ reader.index) := by
  refine (asks_done _).andThen fun maybe => ?_
  split
  · split
    · trivial
    · split
      · trivial
      next indexEntry at_ =>
        exact (asks_blockQuery (List.mem_of_getElem? at_)).andThen fun data => trivial
  · trivial

theorem asks_rangeBlocksQuery (start stop : Key) (positions : List Nat) :
    (reader.rangeBlocksQuery start stop positions).Asks (· ∈ reader.index) := by
  induction positions with
  | nil => trivial
  | cons position positions ih =>
      rw [rangeBlocksQuery]
      split
      · trivial
      next indexEntry at_ =>
        split
        · trivial
        · refine (asks_blockQuery (List.mem_of_getElem? at_)).andThen fun data => ?_
          refine (asks_done _).andThen fun entries => ?_
          exact ih.andThen fun results => trivial

theorem cost_done {α : Type} (outcome : Result α) :
    (Query.done outcome : Query IndexEntry Bytes (Result α)).cost
      (reader.fetchBlock external) ≤ 0 :=
  Nat.le_refl _

theorem cost_blockQuery (indexEntry : IndexEntry) :
    (blockQuery indexEntry).cost (reader.fetchBlock external) ≤ 1 := by
  rw [blockQuery, Query.cost]
  split <;> simp [Query.cost]

/-- A lookup reads one block at most. -/
theorem cost_getQuery (key : Key) :
    (reader.getQuery external key).cost (reader.fetchBlock external) ≤ 1 := by
  change _ ≤ 0 + 1
  refine Query.cost_andThen_le _ (cost_done _) fun maybe => ?_
  split
  · split
    · exact Nat.zero_le _
    · split
      · exact Nat.zero_le _
      · exact Query.cost_andThen_le _ (cost_blockQuery _) fun data => cost_done _
  · exact Nat.zero_le _

/-- A range query reads a block for each position at most. -/
theorem cost_rangeBlocksQuery (start stop : Key) (positions : List Nat) :
    (reader.rangeBlocksQuery start stop positions).cost (reader.fetchBlock external) ≤
      positions.length := by
  induction positions with
  | nil => exact Nat.le_refl _
  | cons position positions ih =>
      rw [rangeBlocksQuery, List.length_cons, Nat.add_comm]
      split
      · exact Nat.zero_le _
      · split
        · exact Nat.zero_le _
        · have parsed := fun (entries : List Entry) =>
            Query.cost_andThen_le (reader.fetchBlock external) ih
              fun results => cost_done (.ok (entries ++ results))
          refine Query.cost_andThen_le _ (cost_blockQuery _) fun data => ?_
          have further := Query.cost_andThen_le (reader.fetchBlock external)
            (cost_done (getEntriesInRangeFromBlock data start stop)) parsed
          rwa [Nat.zero_add] at further

/-! ## Reads in turn -/

/-- A call that reads the table. -/
inductive Call where
  | get (key : Key)
  | range (start stop : Key)

/-- What a call returns. -/
inductive Reply where
  | found (entry : Option Entry)
  | results (entries : List Entry)
deriving DecidableEq

/-- The call on its own. -/
def Call.perform (external : External) : Call → Read Reply
  | .get key => do
      let entry ← SSTableReader.get external key
      pure (.found entry)
  | .range start stop => do
      let entries ← SSTableReader.range external start stop
      pure (.results entries)

def Call.query (external : External) (reader : SSTableReader) :
    Call → Query IndexEntry Bytes (Result Reply)
  | .get key => (reader.getQuery external key).andThen fun entry => .done (.ok (.found entry))
  | .range start stop =>
      (reader.rangeQuery start stop).andThen fun entries => .done (.ok (.results entries))

/-- How many turns a call needs at most: three for each block. -/
def Call.turns : Call → Nat
  | .get _ => 3
  | .range _ stop => 3 * stop.length

theorem performs_call (call : Call) :
    reader.Performs external (call.perform external) (call.query external reader) := by
  cases call with
  | get key => exact (performs_get key).bind fun entry => performs_lift (.ok (Reply.found entry))
  | range start stop =>
      exact (performs_range start stop).bind fun entries =>
      performs_lift (.ok (Reply.results entries))

theorem asks_call (call : Call) : (call.query external reader).Asks (· ∈ reader.index) := by
  cases call with
  | get key => exact (asks_getQuery key).andThen fun entry => trivial
  | range start stop => exact (asks_rangeBlocksQuery start stop _).andThen fun entries => trivial

theorem cost_call (call : Call) :
    3 * (call.query external reader).cost (reader.fetchBlock external) ≤ call.turns := by
  cases call with
  | get key =>
      have cost := Query.cost_andThen_le (reader.fetchBlock external)
        (@cost_getQuery external reader key) fun entry => cost_done (.ok (Reply.found entry))
      rw [Call.turns, Call.query]
      omega
  | range start stop =>
      have cost := Query.cost_andThen_le (reader.fetchBlock external)
        (@cost_rangeBlocksQuery external reader start stop
          (List.range' ((reader.findBlockForKey start).getD 0)
            (stop.length - (reader.findBlockForKey start).getD 0)))
        fun entries => cost_done (.ok (Reply.results entries))
      rw [List.length_range'] at cost
      rw [Call.turns, Call.query, rangeQuery]
      omega

/-- The calls of the readers, before the first turn. -/
def calling (external : External) (reader : SSTableReader) (calls : Nat → Call) :
    Shared IndexEntry Bytes (Result Reply) (AList fun _ : Nat => Bytes) where
  cache := reader.blockCache
  stage task := .running ((calls task).query external reader)

/-- The cache and the calls after some turns. -/
def afterTurns (external : External) (reader : SSTableReader) (calls : Nat → Call)
    (turns : List Nat) : Shared IndexEntry Bytes (Result Reply) (AList fun _ : Nat => Bytes) :=
  Runs.run (step cachePolicy IndexEntry.offset (reader.fetchBlock external))
    (reader.calling external calls) turns

theorem sound_calling (fresh : reader.blockCache = ∅) (calls : Nat → Call) :
    Sound cachePolicy IndexEntry.offset (reader.fetchBlock external) (· ∈ reader.index)
      (reader.calling external calls) := by
  refine ⟨?_, ?_, fun task => asks_call (calls task)⟩
  · rw [calling, fresh]
    exact coherent_empty _
  · rw [calling, fresh]
    exact Nat.zero_le _

/-- On its own, a call comes to the result of its query without the cache. -/
theorem outcome_perform (unambiguous : reader.Unambiguous) (fresh : reader.blockCache = ∅)
    (call : Call) :
    outcome (call.perform external reader) =
      (call.query external reader).plain (reader.fetchBlock external) := by
  have performed := @performs_call external reader call ∅
  have same : reader.withCache ∅ = reader := by rw [withCache, ← fresh]
  obtain ⟨plain, -⟩ := @exec_spec _ _ _ _ _ _ cachePolicy _ _ _ unambiguous.agrees _
    (@asks_call external reader call) ∅ (coherent_empty _)
  rw [same] at performed
  rw [performed, ← plain]
  generalize exec cachePolicy _ _ _ _ = reached
  rcases reached with ⟨_ | _, _⟩ <;> rfl

/-- Readers of a fresh table whose index is unambiguous never see each other.  In any
order of turns, whatever the cache holds is what the file holds, in a hundred blocks at
most; a call that has returned has returned what it returns on its own; and each call
returns after three turns for each block it may read. -/
theorem concurrent_reads (unambiguous : reader.Unambiguous) (fresh : reader.blockCache = ∅)
    (calls : Nat → Call) (turns : List Nat) :
    (∀ indexEntry ∈ reader.index, ∀ data,
      (reader.afterTurns external calls turns).cache.lookup indexEntry.offset = some data →
        reader.fetchBlock external indexEntry = .ok data) ∧
    (reader.afterTurns external calls turns).cache.entries.length ≤ 100 ∧
    ∀ task,
      (∀ result, (reader.afterTurns external calls turns).stage task =
          .running (.done result) →
        result = outcome ((calls task).perform external reader)) ∧
      ((calls task).turns ≤ turns.count task →
        (reader.afterTurns external calls turns).stage task =
          .running (.done (outcome ((calls task).perform external reader)))) := by
  have sound := @sound_calling external reader fresh calls
  obtain ⟨kept, stages⟩ := run_spec unambiguous.agrees sound turns
  refine ⟨kept.coherent, kept.small, fun task => ⟨fun result returned => ?_, fun enough => ?_⟩⟩
  · have plain := (stages task).1
    rw [outcome_perform unambiguous fresh]
    change ((reader.afterTurns external calls turns).stage task).plain _ = _ at plain
    rw [returned] at plain
    exact plain
  · rw [outcome_perform unambiguous fresh]
    exact run_done unambiguous.agrees sound (Nat.le_trans (cost_call (calls task)) enough)

/-- A reader that has just been recovered has an empty cache. -/
theorem blockCache_of_recover {path : FileName} {contents : Bytes} {mapped : Bool}
    (recovered : recover path contents mapped = .ok reader) : reader.blockCache = ∅ := by
  obtain ⟨described, describing, indexing⟩ := Result.bind_eq_ok.mp recovered
  have kept : described.blockCache = ∅ := by
    rw [loadMetadata] at describing
    split at describing
    · cases describing
    · obtain ⟨footer, -, decoding⟩ := Result.bind_eq_ok.mp describing
      obtain ⟨metadata, -, made⟩ := Result.bind_eq_ok.mp decoding
      cases made
      rfl
  obtain ⟨offset, -, slicing⟩ := Result.bind_eq_ok.mp indexing
  obtain ⟨indexData, -, decoding⟩ := Result.bind_eq_ok.mp slicing
  obtain ⟨index, -, made⟩ := Result.bind_eq_ok.mp decoding
  cases made
  exact kept

/-- A value and a delete marker. -/
private def readPair : List Entry :=
  [{ key := [1], value := some [10], timestamp := 5, sequence := 1 },
   { key := [2], value := none, timestamp := 6, sequence := 2 }]

/-- Two lookups and a range query on a table. -/
private def overlappingCalls (task : Nat) : Call :=
  if task = 2 then .range [1] [3] else .get [1]

/-- Each of them has returned after three turns of its own. -/
theorem concurrent_reads_pair :
    ∃ reader, recover [] (final (({ compression := .none } : SSTableBuilder).build External.plain
        0 readPair { output := .spacious })).written true = .ok reader ∧
      ∀ task < 3, (reader.afterTurns External.plain overlappingCalls
          [0, 1, 2, 1, 0, 2, 2, 1, 0]).stage task =
        .running (.done (outcome ((overlappingCalls task).perform External.plain reader))) := by
  have returned : succeeded (({ compression := .none } : SSTableBuilder).build External.plain 0
      readPair { output := .spacious }) = true := by decide +kernel
  obtain ⟨metadata, ran⟩ := exists_ok_of_succeeded returned
  have limits : ∀ entry ∈ readPair, entry.WithinLimits := by
    intro entry member
    rcases List.mem_pair.mp member with rfl | rfl
    · exact ⟨by decide, fun value stored => by cases stored; decide⟩
    · exact ⟨by decide, fun value stored => by cases stored⟩
  obtain ⟨bloomFilter, built, fits⟩ := SSTableBuilder.build_eq_ok ran
  obtain ⟨reader, recovered, serves⟩ := serves_of_built built (fits Output.spacious_bounded)
    (by decide) External.plain_lz4RoundTrips limits [] true
  have enough : ∀ task < 3,
      (overlappingCalls task).turns ≤ [0, 1, 2, 1, 0, 2, 2, 1, 0].count task := by decide
  refine ⟨reader, recovered, fun task small => ?_⟩
  exact ((concurrent_reads serves.unambiguous (blockCache_of_recover recovered)
    overlappingCalls _).2.2 task).2 (enough task small)

end SSTableReader

end JustDb

import JustDb.MemTableSize
import JustDb.Storage.ScanReads

/-!
# Range queries on memtables

The bounds of a range query come from the caller unchecked.  `BTreeMap::range`
answers every pair of bounds in order, and every pair on an empty map; on a map
with entries it panics when the bounds are reversed, and so does the scan that
asks it.
-/

namespace JustDb

namespace MemTable

/-- The query returns exactly the stored entries in the range, in strictly ascending
key order, and none for an empty or reversed range. -/
structure RangeExact (memtable : MemTable) (start stop : Key) (found : List (Key × Entry)) :
    Prop where
  returned : memtable.rangeIter start stop = .ok found
  ascending : found.Pairwise fun left right => left.1 < right.1
  stored : ∀ key entry,
    (key, entry) ∈ found ↔ (start ≤ key ∧ key < stop) ∧ memtable.get key = some entry
  empty : stop ≤ start → found = []

theorem isEmpty_iff_count (self : MemTable) : self.data.isEmpty = true ↔ self.count = 0 := by
  rw [self.count_eq, Std.TreeMap.isEmpty_eq_size_eq_zero, beq_iff_eq]

theorem inRange_ascending (self : MemTable) (start stop : Key) :
    (self.inRange start stop).Pairwise fun left right => left.1 < right.1 :=
  (Std.TreeMap.ordered_keys_toList.imp fun below => compare_lt_iff_lt.mp below).filter _

theorem inRange_of_ge (self : MemTable) {start stop : Key} (reversed : stop ≤ start) :
    self.inRange start stop = [] := by
  rw [inRange, List.filter_eq_nil_iff]
  intro pair _
  simp only [decide_eq_true_eq]
  exact fun within => absurd (within.1.trans_lt within.2) (not_lt.mpr reversed)

/-- The query returns for bounds in order and on an empty map, and panics otherwise. -/
theorem rangeIter_eq (self : MemTable) (start stop : Key) :
    self.rangeIter start stop =
      if start ≤ stop ∨ self.count = 0 then .ok (self.inRange start stop)
      else .error .panic := by
  by_cases fine : start ≤ stop ∨ self.count = 0
  · rw [if_pos fine, rangeIter, if_neg]
    rintro ⟨reversed, nonempty⟩
    cases fine with
    | inl ordered => exact absurd reversed (not_lt.mpr ordered)
    | inr none => exact nonempty (self.isEmpty_iff_count.mpr none)
  · have both := not_or.mp fine
    rw [if_neg fine, rangeIter, if_pos]
    exact ⟨not_le.mp both.1, fun none => both.2 (self.isEmpty_iff_count.mp none)⟩

/-- What the query returns, when it returns, is exact. -/
theorem rangeExact_iff (self : MemTable) (start stop : Key) :
    (∃ found, self.RangeExact start stop found) ↔ start ≤ stop ∨ self.count = 0 := by
  constructor
  · rintro ⟨found, exact_⟩
    have returned := exact_.returned
    rw [rangeIter_eq] at returned
    split at returned
    next fine => exact fine
    next => cases returned
  · intro fine
    refine ⟨self.inRange start stop, ?_, self.inRange_ascending start stop, ?_, ?_⟩
    · rw [rangeIter_eq, if_pos fine]
    · exact fun key entry => mem_inRange
    · exact self.inRange_of_ge

/-- A table that calls have made of a new one is empty when there were none. -/
theorem Call.count_applyAll {self table : MemTable} {calls : List Call}
    (mutable : self.immutable = false) (ran : applyAll self calls = .ok table) :
    table.count = 0 ↔ self.count = 0 ∧ calls = [] := by
  induction calls generalizing self with
  | nil =>
      cases ran
      exact (and_iff_left rfl).symm
  | cons call calls ih =>
      rw [applyAll, List.foldlM_cons, call.apply_of_mutable mutable, Result.ok_bind] at ran
      have filled : (({ self with sequenceCounter := self.sequenceCounter + 1 } :
          MemTable).insertEntry (call.entry self.sequenceCounter)).count ≠ 0 := by
        intro none
        have found := get_of_count_eq_zero none call.key
        rw [get_insertEntry, if_pos (by rfl)] at found
        cases found
      refine (ih (by exact mutable) ran).trans ?_
      exact ⟨fun both => absurd both.1 filled, fun both => by cases both.2⟩

end MemTable

namespace StorageEngine

variable {Table : Type}

/-- The memtable part of `scan`: the current memtable, then the immutable ones from
the newest down. -/
def scanMemtables (engine : StorageEngine Table) (start stop : Key) : Result ScanResults := do
  let current ← engine.memtable.rangeIter start stop
  engine.immutableMemtables.reverse.foldlM (fun held memtable => do
    let entries ← memtable.rangeIter start stop
    pure (scanOlder held entries)) (scanMemtable ∅ current)

/-- A scan runs its memtable part, then goes on to the tables. -/
theorem scan_eq_scanMemtables (ops : TableOps Table) (engine : StorageEngine Table)
    (start stop : Key) (running : engine.closed = false) :
    engine.scan ops start stop = (do
      let results ← engine.scanMemtables start stop
      let results ← (List.range engine.config.maxLevels).foldlM (fun held level =>
        (engine.tables level).foldlM (fun held table => do
          let entries ← ops.range table start stop
          pure (scanOlder held (entries.map fun entry => (entry.key, entry)))) held) results
      .ok (scanFinish results)) := by
  rw [scan, running, scanMemtables, bind_assoc]
  rfl

/-- The versions in a range that the memtables store. -/
def storedVersions (engine : StorageEngine Table) (start stop : Key) :
    List (Key × (Value × SequenceNumber)) :=
  engine.memtables.flatMap fun memtable => scanVersions (memtable.inRange start stop)

/-- The memtable part returns a newest stored version of every key in the range, and
no other key. -/
def MemtablePartExact (engine : StorageEngine Table) (start stop : Key) : Prop :=
  ∃ results, engine.scanMemtables start stop = .ok results ∧
    Newest.Summarizes Prod.snd (engine.storedVersions start stop) results

/-- When every query returns, their entries are collected in turn. -/
theorem scanMemtables_of_returns {engine : StorageEngine Table} {start stop : Key}
    (fine : ∀ memtable ∈ engine.memtables, start ≤ stop ∨ memtable.count = 0) :
    engine.scanMemtables start stop =
      .ok (Newest.collect Prod.snd ∅ (engine.storedVersions start stop)) := by
  have returns : ∀ memtable ∈ engine.memtables,
      memtable.rangeIter start stop = .ok (memtable.inRange start stop) := by
    intro memtable member
    rw [memtable.rangeIter_eq, if_pos (fine memtable member)]
  have older := fun memtable member => returns memtable (List.mem_cons_of_mem _ member)
  rw [scanMemtables, returns engine.memtable List.mem_cons_self, Result.ok_bind,
    foldlM_scanOlder older,
    scanMemtable_eq (engine.memtable.inRange_distinct start stop), ← Newest.collect_append,
    storedVersions, memtables, List.flatMap_cons]

/-- A memtable part that returned has asked every memtable. -/
theorem returns_of_scanMemtables {engine : StorageEngine Table} {start stop : Key}
    {results : ScanResults} (ran : engine.scanMemtables start stop = .ok results)
    {memtable : MemTable} (member : memtable ∈ engine.memtables) :
    start ≤ stop ∨ memtable.count = 0 := by
  have fine : ∀ {asked : MemTable} {found},
      asked.rangeIter start stop = .ok found → start ≤ stop ∨ asked.count = 0 := by
    intro asked found returned
    rw [MemTable.rangeIter_eq] at returned
    split at returned
    next fine => exact fine
    next => cases returned
  obtain ⟨current, returned, ran⟩ := Result.bind_eq_ok.mp ran
  rcases List.mem_cons.mp member with rfl | older
  · exact fine returned
  · generalize engine.immutableMemtables.reverse = memtables at ran older
    generalize scanMemtable ∅ current = held at ran
    clear member returned
    induction memtables generalizing held with
    | nil => cases older
    | cons first rest ih =>
        rw [List.foldlM_cons] at ran
        obtain ⟨next, stepped, later⟩ := Result.bind_eq_ok.mp ran
        obtain ⟨found, returned, _⟩ := Result.bind_eq_ok.mp stepped
        rcases List.mem_cons.mp older with rfl | behind
        · exact fine returned
        · exact ih behind next later

theorem memtablePartExact_iff (engine : StorageEngine Table) (start stop : Key) :
    engine.MemtablePartExact start stop ↔
      start ≤ stop ∨ ∀ memtable ∈ engine.memtables, memtable.count = 0 := by
  constructor
  · rintro ⟨results, ran, _⟩
    by_cases ordered : start ≤ stop
    · exact .inl ordered
    · refine .inr fun memtable member => ?_
      exact (returns_of_scanMemtables ran member).resolve_left ordered
  · intro fine
    refine ⟨_, scanMemtables_of_returns fun memtable member => ?_, ?_⟩
    · exact fine.imp_right fun empty => empty memtable member
    · exact (Newest.summarizes_empty Prod.snd).collect (engine.storedVersions start stop)

end StorageEngine

namespace MemTable

/-- A range query is exact on every memtable that puts and deletes have made, exactly
when its bounds are in order or there were none; the memtable part of a scan, exactly
when its bounds are in order or all memtables are empty. -/
theorem rangeQueries_exact_iff (start stop : Key) :
    (∀ (maxSize : Nat) (first : SequenceNumber) (calls : List Call),
      ∃ table, Call.applyAll (withSequence maxSize first) calls = .ok table ∧
        ((∃ found, table.RangeExact start stop found) ↔ start ≤ stop ∨ calls = [])) ∧
    ∀ (Table : Type) (engine : StorageEngine Table),
      engine.MemtablePartExact start stop ↔
        start ≤ stop ∨ ∀ memtable ∈ engine.memtables, memtable.count = 0 := by
  constructor
  · intro maxSize first calls
    obtain ⟨table, ran, _⟩ := (Call.made_withSequence maxSize first).applyAll calls
    refine ⟨table, ran, ?_⟩
    rw [rangeExact_iff, Call.count_applyAll rfl ran]
    exact or_congr_right (and_iff_right rfl)
  · exact fun Table engine => engine.memtablePartExact_iff start stop

/-- One put, and a range from its key down to the empty key. -/
theorem reversed_range_panics :
    ¬ ∀ (calls : List Call) (table : MemTable) (start stop : Key),
      Call.applyAll (new 100) calls = .ok table →
        ∃ found, table.RangeExact start stop found := by
  intro exact_
  obtain ⟨table, ran, _⟩ := (Call.made_withSequence 100 0).applyAll [.put [107] [1] 5]
  have fine := (table.rangeExact_iff [107] []).mp (exact_ _ table [107] [] ran)
  rw [Call.count_applyAll rfl ran] at fine
  revert fine
  decide

end MemTable

end JustDb

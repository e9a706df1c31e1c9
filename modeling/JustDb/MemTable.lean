import JustDb.Basic
import Std.Data.TreeMap

/-!
# Memtables

The in-memory table that takes every write.  Its map, its entry count and its
byte count are updated together under the write lock; the map and the count
agree, and an entry is stored under its own key, by construction.
-/

namespace JustDb

/-- `BTreeMap<Key, Entry>` -/
abbrev EntryMap := Std.TreeMap Key Entry

/-- `size` is the `AtomicUsize` total, with its wrapping updates; `count` counts
map nodes, of which memory holds fewer than `2 ^ 64`. -/
structure MemTable where
  data : EntryMap
  size : UInt64
  count : Nat
  sequenceCounter : SequenceNumber
  maxSize : Nat
  immutable : Bool
  count_eq : count = data.size
  keyed : ∀ (key : Key) (entry : Entry), data[key]? = some entry → entry.key = key

namespace MemTable

def new (maxSize : Nat) : MemTable where
  data := ∅
  size := 0
  count := 0
  sequenceCounter := 0
  maxSize
  immutable := false
  count_eq := by simp
  keyed := by simp

/-- create starting sequence number -/
def withSequence (maxSize : Nat) (startSequence : SequenceNumber) : MemTable :=
  { new maxSize with sequenceCounter := startSequence }

/-- get the next seq number: `fetch_add` returns the old value and wraps -/
def nextSequence (self : MemTable) : SequenceNumber × MemTable :=
  (self.sequenceCounter, { self with sequenceCounter := self.sequenceCounter + 1 })

/-- The change in stored bytes, computed on `i64`. -/
def sizeChange (self : MemTable) (entry : Entry) : Int :=
  match self.data[entry.key]? with
  | some old => entry.size - old.size
  | none => entry.size

/-- The critical section of `put` and `delete`, under the data write lock.  A
change that is not positive is cast to `usize` and subtracted. -/
def insertEntry (self : MemTable) (entry : Entry) : MemTable :=
  { self with
    data := self.data.insert entry.key entry
    count := if self.data.contains entry.key then self.count else self.count + 1
    size :=
      if self.sizeChange entry > 0 then self.size + UInt64.ofInt (self.sizeChange entry)
      else self.size - UInt64.ofInt (self.sizeChange entry)
    count_eq := by
      rw [Std.TreeMap.size_insert, self.count_eq]
    keyed := by
      intro key stored found
      rw [Std.TreeMap.getElem?_insert] at found
      split at found
      next equal =>
        cases found
        exact Std.LawfulEqOrd.eq_of_compare equal
      next => exact self.keyed key stored found }

/-- `put` and `delete` differ in the value they store only. -/
def write (self : MemTable) (key : Key) (value : Option Value) (timestamp : Timestamp) :
    Result MemTable :=
  if self.immutable then
    .error (.error .readOnly)
  else
    let (sequence, numbered) := self.nextSequence
    .ok (numbered.insertEntry { key, value, timestamp, sequence })

/-- insert a key-value pair -/
def put (self : MemTable) (key : Key) (value : Value) (timestamp : Timestamp) :
    Result MemTable :=
  self.write key (some value) timestamp

/-- delete a key -/
def delete (self : MemTable) (key : Key) (timestamp : Timestamp) : Result MemTable :=
  self.write key none timestamp

/-- get value by key -/
def get (self : MemTable) (key : Key) : Option Entry :=
  self.data[key]?

/-- check if memtable should flushed -/
def shouldFlush (self : MemTable) : Bool :=
  self.maxSize ≤ self.size.toNat

/-- make this immutable -/
def makeImmutable (self : MemTable) : MemTable :=
  { self with immutable := true }

/-- get current seq number -/
def currentSequence (self : MemTable) : SequenceNumber :=
  self.sequenceCounter

/-- get all entries as a vector -/
def entries (self : MemTable) : List (Key × Entry) :=
  self.data.toList

/-- The entries whose keys lie in a range, in key order. -/
def inRange (self : MemTable) (start stop : Key) : List (Key × Entry) :=
  self.data.toList.filter fun pair => start ≤ pair.1 ∧ pair.1 < stop

/-- get entries in a key range; `BTreeMap::range` panics on a non-empty map when
the start bound exceeds the end bound -/
def rangeIter (self : MemTable) (start stop : Key) : Result (List (Key × Entry)) :=
  if stop < start ∧ ¬self.data.isEmpty then
    .error .panic
  else
    .ok (self.inRange start stop)

/-! ## What the calls do -/

@[simp] theorem get_new (maxSize : Nat) (key : Key) : (new maxSize).get key = none := by
  simp [get, new]

@[simp] theorem get_withSequence (maxSize : Nat) (start : SequenceNumber) (key : Key) :
    (withSequence maxSize start).get key = none :=
  get_new maxSize key

@[simp] theorem get_makeImmutable (self : MemTable) (key : Key) :
    self.makeImmutable.get key = self.get key := rfl

@[simp] theorem count_makeImmutable (self : MemTable) :
    self.makeImmutable.count = self.count := rfl

theorem get_insertEntry (self : MemTable) (entry : Entry) (key : Key) :
    (self.insertEntry entry).get key = if key = entry.key then some entry else self.get key := by
  change (self.data.insert entry.key entry)[key]? = _
  rw [Std.TreeMap.getElem?_insert]
  by_cases same : key = entry.key
  · simp [same]
  · have differ : compare entry.key key ≠ .eq := by
      rw [ne_eq, Std.LawfulEqOrd.compare_eq_iff_eq]
      exact fun equal => same equal.symm
    simp [same, differ, get]

/-- What a write that returned `Ok` stored. -/
theorem write_eq_ok {self written : MemTable} {key : Key} {value : Option Value}
    {timestamp : Timestamp} (ran : self.write key value timestamp = .ok written) :
    self.immutable = false ∧
      written = ({ self with sequenceCounter := self.sequenceCounter + 1 } : MemTable).insertEntry
        { key, value, timestamp, sequence := self.sequenceCounter } := by
  unfold write at ran
  split at ran
  · cases ran
  next writable =>
    cases ran
    exact ⟨by simpa using writable, rfl⟩

theorem get_write {self written : MemTable} {key : Key} {value : Option Value}
    {timestamp : Timestamp} (ran : self.write key value timestamp = .ok written)
    (other : Key) :
    written.get other =
      if other = key then
        some { key, value, timestamp, sequence := self.sequenceCounter }
      else self.get other := by
  rw [(write_eq_ok ran).2, get_insertEntry]
  rfl

/-- A write uses up one sequence number. -/
theorem sequenceCounter_write {self written : MemTable} {key : Key} {value : Option Value}
    {timestamp : Timestamp} (ran : self.write key value timestamp = .ok written) :
    written.sequenceCounter = self.sequenceCounter + 1 := by
  rw [(write_eq_ok ran).2]
  rfl

theorem key_of_get {self : MemTable} {key : Key} {entry : Entry}
    (found : self.get key = some entry) : entry.key = key :=
  self.keyed key entry found

/-- A memtable without entries holds no key. -/
theorem get_of_count_eq_zero {self : MemTable} (empty : self.count = 0) (key : Key) :
    self.get key = none := by
  rw [self.count_eq, ← beq_iff_eq, ← Std.TreeMap.isEmpty_eq_size_eq_zero] at empty
  exact Std.TreeMap.getElem?_of_isEmpty empty

theorem rangeIter_of_le (self : MemTable) {start stop : Key} (ordered : start ≤ stop) :
    self.rangeIter start stop = .ok (self.inRange start stop) :=
  if_neg fun reversed => absurd reversed.1 (not_lt.mpr ordered)

theorem mem_inRange {self : MemTable} {start stop key : Key} {entry : Entry} :
    (key, entry) ∈ self.inRange start stop ↔
      (start ≤ key ∧ key < stop) ∧ self.get key = some entry := by
  rw [inRange, List.mem_filter, Std.TreeMap.mem_toList_iff_getElem?_eq_some, get]
  simp only [decide_eq_true_eq]
  exact and_comm

theorem inRange_distinct (self : MemTable) (start stop : Key) :
    (self.inRange start stop).Pairwise fun left right => left.1 ≠ right.1 :=
  (Std.TreeMap.distinct_keys_toList.filter _).imp fun apart equal =>
    apart (Std.LawfulEqOrd.compare_eq_iff_eq.mpr equal)

/-! ## The entry list of a flush -/

/-- The entries in map order, as `flush_memtable` hands them to the builder. -/
def entryList (self : MemTable) : List Entry :=
  self.entries.map Prod.snd

theorem mem_entryList {self : MemTable} {entry : Entry} :
    entry ∈ self.entryList ↔ self.get entry.key = some entry := by
  simp only [entryList, entries, List.mem_map, Prod.exists, exists_eq_right]
  constructor
  · rintro ⟨key, member⟩
    have found := Std.TreeMap.mem_toList_iff_getElem?_eq_some.mp member
    rwa [← self.keyed key entry found] at found
  · intro found
    exact ⟨entry.key, Std.TreeMap.mem_toList_iff_getElem?_eq_some.mpr found⟩

/-- Flushed entries are strictly ascending by key. -/
theorem entryList_ascending (self : MemTable) : Ascending self.entryList := by
  rw [Ascending, entryList, List.pairwise_map]
  refine (Std.TreeMap.ordered_keys_toList (t := self.data)).imp_of_mem ?_
  intro left right leftMem rightMem below
  have leftKey := self.keyed _ _ (Std.TreeMap.mem_toList_iff_getElem?_eq_some.mp leftMem)
  have rightKey := self.keyed _ _ (Std.TreeMap.mem_toList_iff_getElem?_eq_some.mp rightMem)
  rw [leftKey, rightKey]
  exact compare_lt_iff_lt.mp below

/-- A flushed memtable lists, under each key, the entry it holds. -/
theorem entryFor_entryList (self : MemTable) (key : Key) :
    entryFor self.entryList key = self.get key := by
  refine Option.ext fun entry => ?_
  rw [self.entryList_ascending.entryFor_eq_some, mem_entryList]
  constructor
  · rintro ⟨held, keyed⟩
    rw [← keyed, held]
  · intro held
    have keyed := key_of_get held
    exact ⟨by rw [keyed, held], keyed⟩

theorem entryList_ne_nil {self : MemTable} (nonempty : self.count ≠ 0) :
    self.entryList ≠ [] := by
  intro empty
  apply nonempty
  rw [self.count_eq, ← Std.TreeMap.length_toList]
  simpa [entryList, entries] using congrArg List.length empty

end MemTable

end JustDb

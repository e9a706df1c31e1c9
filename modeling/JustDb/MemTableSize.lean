import JustDb.MemTable
import Mathlib.Algebra.Order.BigOperators.Group.List
import Mathlib.Algebra.Ring.Nat

/-!
# What the size of a memtable counts

`put` and `delete` add a change in stored bytes that is positive, and cast and
subtract one that is not.  To subtract a negative change is to add its amount, so
`size` is the number of stored bytes and twice the bytes by which overwrites have
shrunk entries, on wrapping words.
-/

namespace JustDb

/-- The bytes that a list of entries is charged. -/
def totalSize (entries : List Entry) : Nat :=
  (entries.map Entry.size).sum

/-- In ascending entries one key accounts for the entry it has. -/
theorem Ascending.totalSize_eq {entries : List Entry} (ascending : Ascending entries)
    (key : Key) :
    totalSize entries =
      ((entryFor entries key).map Entry.size).getD 0 +
        totalSize (entries.filter fun entry => entry.key ≠ key) := by
  induction entries with
  | nil => rfl
  | cons entry entries ih =>
      have tail := ih ascending.of_cons
      have apart := (List.pairwise_cons.mp ascending).1
      rw [totalSize, List.map_cons, List.sum_cons, ← totalSize]
      by_cases same : entry.key = key
      · have kept : entries.filter (fun other => other.key ≠ key) = entries := by
          rw [List.filter_eq_self]
          intro other member
          exact decide_eq_true (same ▸ (apart other member).ne')
        rw [entryFor, List.find?_cons_of_pos (by simpa using same),
          List.filter_cons_of_neg (by simpa using same), kept]
        rfl
      · rw [entryFor, List.find?_cons_of_neg (by simpa using same), ← entryFor,
          List.filter_cons_of_pos (by simpa using same), tail]
        simp only [totalSize, List.map_cons, List.sum_cons]
        omega

namespace MemTable

/-- The sum of `Entry::size` over the entries stored. -/
def storedBytes (self : MemTable) : Nat :=
  totalSize self.entryList

/-- The size charged to a key, none for a key that is not stored. -/
def chargedTo (self : MemTable) (key : Key) : Nat :=
  ((self.get key).map Entry.size).getD 0

/-- An insertion leaves the entries of other keys as they are. -/
theorem others_insertEntry (self : MemTable) (entry : Entry) :
    ((self.insertEntry entry).entryList.filter fun other => other.key ≠ entry.key).Perm
      (self.entryList.filter fun other => other.key ≠ entry.key) := by
  have nodup : ∀ table : MemTable, table.entryList.Nodup := by
    intro table
    exact table.entryList_ascending.imp fun below same => below.ne (congrArg Entry.key same)
  rw [List.perm_ext_iff_of_nodup ((nodup _).filter _) ((nodup _).filter _)]
  intro other
  simp only [List.mem_filter, mem_entryList, get_insertEntry, decide_eq_true_eq]
  constructor
  · intro ⟨held, apart⟩
    rw [if_neg apart] at held
    exact ⟨held, apart⟩
  · intro ⟨held, apart⟩
    rw [if_neg apart]
    exact ⟨held, apart⟩

theorem chargedTo_insertEntry (self : MemTable) (entry : Entry) (key : Key) :
    (self.insertEntry entry).chargedTo key =
      if key = entry.key then entry.size else self.chargedTo key := by
  rw [chargedTo, get_insertEntry]
  split
  · rfl
  · rfl

/-- An insertion exchanges the bytes of the entry it replaces for its own. -/
theorem storedBytes_insertEntry (self : MemTable) (entry : Entry) :
    (self.insertEntry entry).storedBytes + self.chargedTo entry.key =
      self.storedBytes + entry.size := by
  have before := self.entryList_ascending.totalSize_eq entry.key
  have after := (self.insertEntry entry).entryList_ascending.totalSize_eq entry.key
  have others := ((self.others_insertEntry entry).map Entry.size).sum_nat
  rw [entryFor_entryList, ← chargedTo] at before after
  rw [chargedTo_insertEntry, if_pos rfl] at after
  rw [storedBytes, storedBytes, before, after]
  change totalSize _ = totalSize _ at others
  omega

theorem sizeChange_eq (self : MemTable) (entry : Entry) :
    self.sizeChange entry = entry.size - self.chargedTo entry.key := by
  rw [sizeChange, chargedTo, get]
  cases self.data[entry.key]? with
  | none => exact (Int.sub_zero _).symm
  | some old => rfl

/-- The bytes by which an insertion shrinks the entry it replaces, if it does. -/
def shrinkage (self : MemTable) (entry : Entry) : Nat :=
  self.chargedTo entry.key - entry.size

/-- A word that counts the stored bytes and an excess goes on to count them, with the
excess grown by twice the bytes by which the insertion shrinks its entry. -/
theorem size_insertEntry {self : MemTable} {excess : Nat}
    (counted : self.size = UInt64.ofInt (self.storedBytes + excess)) (entry : Entry) :
    (self.insertEntry entry).size =
      UInt64.ofInt ((self.insertEntry entry).storedBytes +
        (excess + 2 * self.shrinkage entry : Nat)) := by
  have exchanged := self.storedBytes_insertEntry entry
  have change := self.sizeChange_eq entry
  by_cases grows : self.sizeChange entry > 0
  · have updated : (self.insertEntry entry).size =
        self.size + UInt64.ofInt (self.sizeChange entry) := if_pos grows
    rw [updated, counted, ← UInt64.ofInt_add, shrinkage]
    congr 1
    omega
  · have updated : (self.insertEntry entry).size =
        self.size - UInt64.ofInt (self.sizeChange entry) := if_neg grows
    rw [updated, counted, UInt64.sub_eq_add_neg, ← UInt64.ofInt_neg, ← UInt64.ofInt_add,
      shrinkage]
    congr 1
    omega

/-! ## Sequences of calls -/

/-- A call of `put` or `delete`, with the time it reads. -/
inductive Call where
  | put (key : Key) (value : Value) (timestamp : Timestamp)
  | delete (key : Key) (timestamp : Timestamp)
  deriving DecidableEq, Repr

namespace Call

def key : Call → Key
  | put key _ _ => key
  | delete key _ => key

def value : Call → Option Value
  | put _ value _ => some value
  | delete _ _ => none

def timestamp : Call → Timestamp
  | put _ _ timestamp => timestamp
  | delete _ timestamp => timestamp

/-- Make the call. -/
def apply (self : MemTable) : Call → Result MemTable
  | put key value timestamp => self.put key value timestamp
  | delete key timestamp => self.delete key timestamp

/-- The entry that the call stores under a sequence number. -/
def entry (call : Call) (sequence : SequenceNumber) : Entry where
  key := call.key
  value := call.value
  timestamp := call.timestamp
  sequence

/-- The size of that entry. -/
def size (call : Call) : Nat :=
  (call.entry 0).size

theorem apply_of_mutable {self : MemTable} (mutable : self.immutable = false) (call : Call) :
    call.apply self = .ok (({ self with
      sequenceCounter := self.sequenceCounter + 1 } : MemTable).insertEntry
        (call.entry self.sequenceCounter)) := by
  have writable : ¬ self.immutable = true := by
    rw [mutable]
    exact Bool.false_ne_true
  cases call with
  | put key value timestamp => exact if_neg writable
  | delete key timestamp => exact if_neg writable

/-- The size of the entry that calls, newest first, leave under a key. -/
def heldSize (history : List Call) (key : Key) : Nat :=
  ((history.find? fun call => call.key = key).map size).getD 0

/-- The bytes by which calls, newest first, shrink the entries that they overwrite. -/
def shrunk : List Call → Nat
  | [] => 0
  | call :: earlier => shrunk earlier + (heldSize earlier call.key - call.size)

/-- Make calls one after another. -/
def applyAll (self : MemTable) (calls : List Call) : Result MemTable :=
  calls.foldlM apply self

/-- The table that calls, newest first, have made of a new one. -/
structure Made (table : MemTable) (history : List Call) : Prop where
  mutable : table.immutable = false
  held : ∀ key, table.chargedTo key = heldSize history key
  size : table.size = UInt64.ofInt (table.storedBytes + (2 * shrunk history : Nat))

theorem made_withSequence (maxSize : Nat) (start : SequenceNumber) :
    Made (withSequence maxSize start) [] where
  mutable := rfl
  held := by
    intro key
    rw [chargedTo, get_withSequence]
    rfl
  size := by
    have bare : (withSequence maxSize start).storedBytes = 0 := by
      have none : (withSequence maxSize start).entryList = [] := by
        rw [List.eq_nil_iff_forall_not_mem]
        intro entry member
        rw [mem_entryList, get_withSequence] at member
        cases member
      rw [storedBytes, none]
      rfl
    rw [bare]
    rfl

/-- One more call. -/
theorem Made.apply {self : MemTable} {history : List Call} (made : Made self history)
    (call : Call) : ∃ written, call.apply self = .ok written ∧ Made written (call :: history) := by
  refine ⟨_, call.apply_of_mutable made.mutable, made.mutable, ?_, ?_⟩
  · intro key
    rw [chargedTo_insertEntry]
    by_cases same : key = call.key
    · rw [if_pos (by exact same), heldSize, List.find?_cons_of_pos (by simpa using same.symm)]
      rfl
    · rw [if_neg (by exact same), heldSize,
        List.find?_cons_of_neg (by simpa using fun equal : call.key = key => same equal.symm),
        ← heldSize]
      exact made.held key
  · have numbered : ({ self with sequenceCounter := self.sequenceCounter + 1 } : MemTable).size =
        UInt64.ofInt (self.storedBytes + (2 * shrunk history : Nat)) := made.size
    rw [size_insertEntry numbered, shrunk, ← made.held call.key, Nat.mul_add]
    rfl

theorem Made.applyAll {self : MemTable} {history : List Call} (made : Made self history)
    (calls : List Call) :
    ∃ written, applyAll self calls = .ok written ∧ Made written (calls.reverse ++ history) := by
  induction calls generalizing self history with
  | nil => exact ⟨self, rfl, made⟩
  | cons call calls ih =>
      obtain ⟨written, ran, next⟩ := made.apply call
      obtain ⟨last, rest, all⟩ := ih next
      refine ⟨last, ?_, ?_⟩
      · rw [Call.applyAll, List.foldlM_cons, ran, Result.ok_bind]
        exact rest
      · rwa [List.reverse_cons, List.append_assoc]

/-- The number that a memtable has come to is where it started and one for each call. -/
theorem currentSequence_applyAll {self written : MemTable} {calls : List Call}
    (ran : applyAll self calls = .ok written) :
    written.currentSequence = self.currentSequence + UInt64.ofNat calls.length := by
  induction calls generalizing self with
  | nil =>
      cases ran
      exact (UInt64.add_zero _).symm
  | cons call calls ih =>
      obtain ⟨middle, first, rest⟩ := Result.bind_eq_ok.mp ran
      have counted : middle.currentSequence = self.currentSequence + 1 := by
        cases call with
        | put key value timestamp => exact sequenceCounter_write first
        | delete key timestamp => exact sequenceCounter_write first
      rw [ih rest, counted, List.length_cons, UInt64.ofNat_add, UInt64.add_assoc,
        UInt64.add_comm 1]
      rfl

end Call

/-- `size` is the number of stored bytes on a wrapping word, and `should_flush` tells
whether they reach the maximum, where a word can count them. -/
def SizeExact (self : MemTable) : Prop :=
  self.size.toNat = self.storedBytes % wordSize ∧
    (self.storedBytes < wordSize → (self.shouldFlush = true ↔ self.maxSize ≤ self.storedBytes))

/-- The excess in `size` vanishes exactly when it is a multiple of a whole word. -/
theorem Call.Made.exact_iff {self : MemTable} {history : List Call}
    (made : Call.Made self history) : self.SizeExact ↔ wordSize / 2 ∣ Call.shrunk history := by
  have size : self.size.toNat = (self.storedBytes + 2 * Call.shrunk history) % wordSize := by
    rw [made.size, ← Int.natCast_add, UInt64.ofInt, UInt64.toNat_ofNat']
    unfold wordSize UInt64.size
    omega
  unfold wordSize UInt64.size at size ⊢
  unfold SizeExact shouldFlush wordSize UInt64.size
  rw [decide_eq_true_eq, size]
  omega

/-- On a new memtable every sequence of calls returns, and leaves an exact size exactly
when the bytes by which its overwrites shrink entries add up to a multiple of half a
word, as they do where no overwrite shrinks an entry. -/
theorem sizeExact_iff (maxSize : Nat) (start : SequenceNumber) (calls : List Call) :
    ∃ table, Call.applyAll (withSequence maxSize start) calls = .ok table ∧
      (table.SizeExact ↔ wordSize / 2 ∣ Call.shrunk calls.reverse) := by
  obtain ⟨table, ran, made⟩ := (Call.made_withSequence maxSize start).applyAll calls
  rw [List.append_nil] at made
  exact ⟨table, ran, made.exact_iff⟩

/-- A value of ten bytes overwritten by one of one byte. -/
theorem shrinking_put_counted_up :
    ¬ ∀ (calls : List Call) (table : MemTable),
      Call.applyAll (new 100) calls = .ok table → table.SizeExact := by
  intro exact
  have made := (Call.made_withSequence 100 0).applyAll
    [.put [107] (List.replicate 10 0) 5, .put [107] [0] 6]
  obtain ⟨table, ran, counted⟩ := made
  have shrunk := counted.exact_iff.mp (exact _ table ran)
  revert shrunk
  decide

end MemTable

end JustDb

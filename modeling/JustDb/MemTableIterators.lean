import JustDb.MemTableSize
import JustDb.Library.Runs

/-!
# Iterators over a memtable

An iterator borrows from the map, so it needs the read lock for as long as it lives.  It
keeps a handle of the lock in the field `_guard`, and forgets the guard itself: what is
given back when it is dropped is the handle, and never the read acquisition.
-/

namespace JustDb

/-- iterator over memtable entries; its field `_guard` is one of the handles of the lock -/
structure MemTableIterator where
  inner : List (Key × Entry)
  deriving Repr

def MemTableIterator.next (self : MemTableIterator) :
    Option (Key × Entry) × MemTableIterator :=
  match self.inner with
  | [] => (none, self)
  | pair :: rest => (some pair, { inner := rest })

theorem MemTableIterator.inner_next (self : MemTableIterator) :
    self.next.2.inner <:+ self.inner := by
  unfold next
  split
  next => exact List.suffix_rfl
  next pair rest eq => exact eq ▸ List.suffix_cons pair rest

/-- A memtable and the iterators made over it, `none` once dropped.  Of the lock of `data`,
`readers` are the read acquisitions outstanding and `handles` the `Arc`s that share it. -/
structure IteratedMemTable where
  memtable : MemTable
  readers : Nat
  handles : Nat
  iterators : List (Option MemTableIterator)

/-- What is done with iterators, each named by its place in the order of their making. -/
inductive IteratorEvent where
  | iter
  | next (position : Nat)
  | drop (position : Nat)

namespace IteratedMemTable

/-- A memtable that nobody reads. -/
def start (memtable : MemTable) : IteratedMemTable where
  memtable
  readers := 0
  handles := 1
  iterators := []

def cloneHandle (self : IteratedMemTable) : IteratedMemTable :=
  { self with handles := self.handles + 1 }

def dropHandle (self : IteratedMemTable) : IteratedMemTable :=
  { self with handles := self.handles - 1 }

/-- `data.read()`: a guard that is dropped would take the acquisition back. -/
def read (self : IteratedMemTable) : IteratedMemTable :=
  { self with readers := self.readers + 1 }

/-- `MemTableIterator::new`, given a handle of the lock. -/
def newIterator (self : IteratedMemTable) : MemTableIterator × IteratedMemTable :=
  let guarded := self.read
  -- `mem::forget(guard)` ends the guard without dropping it
  ({ inner := guarded.memtable.entries }, guarded)

/-- create an iterator over all entries -/
def iter (self : IteratedMemTable) : IteratedMemTable :=
  let (iterator, shared) := self.cloneHandle.newIterator
  { shared with iterators := shared.iterators ++ [some iterator] }

/-- Advance an iterator, if it is live. -/
def next (self : IteratedMemTable) (position : Nat) : IteratedMemTable :=
  match self.iterators[position]? with
  | some (some iterator) =>
      { self with iterators := self.iterators.set position (some iterator.next.2) }
  | _ => self

/-- Drop an iterator, if it is live: of its fields only the handle has anything to drop. -/
def drop (self : IteratedMemTable) (position : Nat) : IteratedMemTable :=
  match self.iterators[position]? with
  | some (some _) =>
      { self.dropHandle with iterators := self.iterators.set position none }
  | _ => self

def step (self : IteratedMemTable) : IteratorEvent → IteratedMemTable
  | .iter => self.iter
  | .next position => self.next position
  | .drop position => self.drop position

/-- `put` or `delete`: `none` where it waits for the readers.  A memtable that is immutable
refuses the call before it comes to the lock. -/
def write (self : IteratedMemTable) (call : MemTable.Call) : Option (Result MemTable) :=
  if self.memtable.immutable ∨ self.readers = 0 then
    some (call.apply self.memtable)
  else
    none

/-- The iterators that have not been dropped. -/
def live (self : IteratedMemTable) : Nat :=
  self.iterators.countP Option.isSome

/-- Each live iterator has one read acquisition, and no writer waits without one. -/
structure Paired (table : IteratedMemTable) : Prop where
  readers_eq : table.readers = table.live
  writable : table.live = 0 → ∀ call, table.write call ≠ none

/-- The condition on an event: it does not drop a live iterator. -/
def DropsNone (self : IteratedMemTable) : IteratorEvent → Prop
  | .drop position => ∀ iterator, self.iterators[position]? ≠ some (some iterator)
  | .iter | .next _ => True

/-! ## What the events do to the lock -/

@[simp] theorem live_iter (self : IteratedMemTable) : self.iter.live = self.live + 1 := by
  simp [live, iter, newIterator, read, cloneHandle]

/-- The live iterators, when one of them is replaced. -/
theorem countP_set_live {iterators : List (Option MemTableIterator)} {position : Nat}
    {iterator : MemTableIterator} (found : iterators[position]? = some (some iterator))
    (replaced : Option MemTableIterator) :
    (iterators.set position replaced).countP Option.isSome + 1 =
      iterators.countP Option.isSome + if replaced.isSome then 1 else 0 := by
  obtain ⟨inside, eq⟩ := List.getElem?_eq_some_iff.mp found
  have counted : 0 < iterators.countP Option.isSome :=
    List.countP_pos_iff.mpr ⟨_, List.mem_of_getElem? found, rfl⟩
  rw [List.countP_set inside, eq, Option.isSome_some, if_pos rfl, Nat.add_right_comm,
    Nat.sub_add_cancel counted]

/-- An iterator that goes on is as live as before. -/
@[simp] theorem live_next (self : IteratedMemTable) (position : Nat) :
    (self.next position).live = self.live := by
  unfold next
  split
  next iterator found =>
    apply Nat.add_right_cancel (m := 1)
    exact countP_set_live found (some iterator.next.2)
  next => rfl

/-- An iterator that goes on leaves all else as it is. -/
theorem next_eq (self : IteratedMemTable) (position : Nat) :
    self.next position = { self with iterators := (self.next position).iterators } := by
  unfold next
  split <;> rfl

@[simp] theorem readers_next (self : IteratedMemTable) (position : Nat) :
    (self.next position).readers = self.readers := by
  rw [next_eq]

theorem drop_of_live {self : IteratedMemTable} {position : Nat} {iterator : MemTableIterator}
    (found : self.iterators[position]? = some (some iterator)) :
    self.drop position =
      { self.dropHandle with iterators := self.iterators.set position none } := by
  rw [drop, found]

theorem live_drop {self : IteratedMemTable} {position : Nat} {iterator : MemTableIterator}
    (found : self.iterators[position]? = some (some iterator)) :
    (self.drop position).live + 1 = self.live := by
  rw [drop_of_live found]
  exact countP_set_live found none

theorem drop_of_dropsNone {self : IteratedMemTable} {position : Nat}
    (none : self.DropsNone (.drop position)) : self.drop position = self := by
  unfold drop
  split
  next iterator found => exact absurd found (none iterator)
  next => rfl

/-- An iterator that is dropped leaves all but its handle as it is. -/
theorem drop_eq (self : IteratedMemTable) (position : Nat) :
    self.drop position =
      { self with
        handles := (self.drop position).handles
        iterators := (self.drop position).iterators } := by
  unfold drop
  split <;> rfl

/-- No drop releases the lock. -/
@[simp] theorem readers_drop (self : IteratedMemTable) (position : Nat) :
    (self.drop position).readers = self.readers := by
  rw [drop_eq]

/-- What a drop gives back is the handle: there is one for each live iterator, and that of
the memtable itself. -/
theorem handles_step {self : IteratedMemTable} (paired : self.handles = self.live + 1)
    (event : IteratorEvent) : (self.step event).handles = (self.step event).live + 1 := by
  cases event with
  | iter =>
      change self.handles + 1 = self.iter.live + 1
      rw [paired, live_iter]
  | next position =>
      change (self.next position).handles = (self.next position).live + 1
      rw [live_next, ← paired, next_eq]
  | drop position =>
      change (self.drop position).handles = (self.drop position).live + 1
      unfold drop
      split
      next iterator found =>
        change self.handles - 1 = (self.iterators.set position none).countP Option.isSome + 1
        rw [paired]
        exact (countP_set_live found none).symm
      next => exact paired

/-! ## Runs -/

theorem handles_throughout (memtable : MemTable) (events : List IteratorEvent) :
    Runs.Throughout (fun table => table.handles = table.live + 1) step (start memtable)
      events :=
  Runs.throughout_of_invariant (fun _ => id) (fun _ event paired => handles_step paired event)
    rfl events

/-- What a live iterator has yet to yield is the rest of the map. -/
def Reads (table : IteratedMemTable) : Prop :=
  ∀ iterator, some iterator ∈ table.iterators → iterator.inner <:+ table.memtable.entries

/-- An iterator is replaced by one that has no more to yield than the map. -/
theorem Reads.set {table : IteratedMemTable} (reads : table.Reads) (position : Nat)
    {replacement : Option MemTableIterator}
    (rest : ∀ iterator, replacement = some iterator →
      iterator.inner <:+ table.memtable.entries) :
    Reads { table with iterators := table.iterators.set position replacement } := by
  intro iterator member
  rcases List.mem_or_eq_of_mem_set member with kept | new
  · exact reads iterator kept
  · exact rest iterator new.symm

theorem Reads.step {table : IteratedMemTable} (reads : table.Reads) (event : IteratorEvent) :
    (table.step event).Reads := by
  cases event with
  | iter =>
      intro iterator member
      rcases List.mem_append.mp member with earlier | last
      · exact reads iterator earlier
      · cases List.mem_singleton.mp last
        exact List.suffix_rfl
  | next position =>
      change (table.next position).Reads
      unfold next
      split
      next current found =>
        apply reads.set position
        rintro _ ⟨⟩
        exact current.inner_next.trans (reads current (List.mem_of_getElem? found))
      next => exact reads
  | drop position =>
      change (table.drop position).Reads
      unfold drop
      split
      next current found => exact reads.set position nofun
      next => exact reads

/-- Whatever is made, advanced and dropped, the live iterators read the one map. -/
theorem reads_throughout (memtable : MemTable) (events : List IteratorEvent) :
    Runs.Throughout Reads step (start memtable) events :=
  Runs.throughout_of_invariant (fun _ => id) (fun _ event reads => reads.step event) nofun events

/-- The number of outstanding read acquisitions never falls. -/
theorem readers_le_step (self : IteratedMemTable) (event : IteratorEvent) :
    self.readers ≤ (self.step event).readers := by
  cases event with
  | iter => exact Nat.le_succ _
  | next position => exact (readers_next self position).ge
  | drop position => exact (readers_drop self position).ge

theorem memtable_step (self : IteratedMemTable) (event : IteratorEvent) :
    (self.step event).memtable = self.memtable := by
  cases event with
  | iter => rfl
  | next position => rw [step, next_eq]
  | drop position => rw [step, drop_eq]

/-- A call that the flag lets through waits for a reader. -/
def Blocked (table : IteratedMemTable) : Prop :=
  table.memtable.immutable = false ∧ 0 < table.readers

theorem Blocked.step {table : IteratedMemTable} (blocked : table.Blocked)
    (event : IteratorEvent) : (table.step event).Blocked := by
  rw [Blocked, memtable_step]
  exact ⟨blocked.1, blocked.2.trans_le (readers_le_step table event)⟩

/-- Once an iterator has been made, every write waits, whatever becomes of the iterator. -/
theorem write_after_iter (self : IteratedMemTable) (writable : self.memtable.immutable = false)
    (events : List IteratorEvent) (call : MemTable.Call) :
    (Runs.run step self.iter events).write call = none := by
  have initially : self.iter.Blocked := ⟨writable, Nat.succ_pos _⟩
  have reached : (Runs.run step self.iter events).Blocked :=
    (Runs.throughout_of_invariant (fun _ => id) (fun _ event blocked => blocked.step event)
      initially events).finally
  simp [write, reached.1, reached.2.ne']

/-- A run of iterators keeps one read acquisition for each live one, and lets writers in
again after the last, exactly when it drops no iterator. -/
theorem paired_iff_dropsNone (memtable : MemTable) (events : List IteratorEvent) :
    Runs.Throughout Paired step (start memtable) events ↔
      Runs.Guarded DropsNone step (start memtable) events := by
  have holds : ∀ self : IteratedMemTable, self.readers = self.live → self.Paired := by
    intro self readers_eq
    refine ⟨readers_eq, fun none call => ?_⟩
    simp [write, readers_eq, none]
  have preserved : ∀ (self : IteratedMemTable) (event : IteratorEvent),
      self.readers = self.live → self.DropsNone event →
        (self.step event).readers = (self.step event).live := by
    intro self event same guarded
    cases event with
    | iter => exact (congrArg Nat.succ same).trans (live_iter self).symm
    | next position => simpa [step] using same
    | drop position => rwa [step, drop_of_dropsNone guarded]
  have needed : ∀ (self : IteratedMemTable) (event : IteratorEvent),
      self.readers = self.live → (self.step event).Paired → self.DropsNone event := by
    intro self event same paired
    cases event with
    | iter => trivial
    | next position => trivial
    | drop position =>
        intro iterator found
        have readers := paired.readers_eq
        change (self.drop position).readers = (self.drop position).live at readers
        rw [readers_drop, same, ← live_drop found] at readers
        exact absurd readers (Nat.succ_ne_self _)
  exact Runs.throughout_iff_guarded holds preserved needed rfl events

/-- An iterator over an empty memtable is made and dropped: its read acquisition stays. -/
theorem dropped_iterator_keeps_lock :
    ¬ ∀ (memtable : MemTable) (events : List IteratorEvent),
      Runs.Throughout Paired step (start memtable) events := by
  intro claimed
  have paired := (claimed (.new 100) [.iter, .drop 0]).finally
  have left : (1 : Nat) = 0 := paired.readers_eq
  cases left

end IteratedMemTable

end JustDb

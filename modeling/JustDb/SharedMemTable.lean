import JustDb.ConcurrentWrites
import JustDb.SSTable.Faults

/-!
# The fields of a shared memtable

A memtable as its writers see it between any two statements: the map under its lock, and
the count, the size and the sequence counter as atomics beside it.  A writer checks the
immutable flag, draws its number, and only then waits for the lock; under the lock it
inserts, counts and adds up in three more statements, while others go on drawing numbers.
-/

namespace JustDb

/-- Where a writer stands between two statements of `put` or `delete`.  The local variables
`size_data` and `is_the_data` are kept from one statement to the next. -/
inductive WriteStage where
  | waiting
  | admitted
  | numbered (sequence : SequenceNumber)
  | locked (sequence : SequenceNumber)
  | stored (sequence : SequenceNumber) (sizeData : Int) (isTheData : Bool)
  | counted (sequence : SequenceNumber) (sizeData : Int)
  | done (sequence : SequenceNumber)
  | refused
  deriving DecidableEq, Repr

namespace WriteStage

/-- The sequence number that the writer has drawn. -/
def number : WriteStage → Option SequenceNumber
  | numbered sequence | locked sequence | stored sequence _ _ | counted sequence _
  | done sequence => some sequence
  | waiting | admitted | refused => none

/-- The writer is in its critical section. -/
def Critical : WriteStage → Prop
  | locked _ | stored _ _ _ | counted _ _ => True
  | _ => False

/-- The entries that the writer has inserted and not counted yet. -/
def owed : WriteStage → Nat
  | stored _ _ true => 1
  | _ => 0

end WriteStage

/-- `writeLock` is the writer that holds the lock of `data`. -/
structure SharedMemTable where
  data : EntryMap
  size : UInt64
  count : UInt64
  sequenceCounter : SequenceNumber
  immutable : Bool
  writeLock : Option Nat
  stage : Nat → WriteStage

namespace SharedMemTable

/-- A new memtable, before any writer has begun. -/
def begin (startSequence : SequenceNumber) : SharedMemTable where
  data := ∅
  size := 0
  count := 0
  sequenceCounter := startSequence
  immutable := false
  writeLock := none
  stage := fun _ => .waiting

/-- get all entries as a vector -/
def entries (self : SharedMemTable) : List (Key × Entry) :=
  self.data.toList

/-- The change in stored bytes, computed on `i64`. -/
def sizeData (self : SharedMemTable) (entry : Entry) : Int :=
  match self.data[entry.key]? with
  | some old => entry.size - old.size
  | none => entry.size

/-- A writer goes on to another stage. -/
def goTo (self : SharedMemTable) (task : Nat) (stage : WriteStage) : SharedMemTable :=
  { self with stage := Function.update self.stage task stage }

variable (calls : List MemTable.Call)

/-- The next statement of a writer. -/
def advance (self : SharedMemTable) (task : Nat) : SharedMemTable :=
  match calls[task]? with
  | none => self
  | some call =>
      match self.stage task with
      | .waiting => self.goTo task (if self.immutable then .refused else .admitted)
      | .admitted =>
          { self.goTo task (.numbered self.sequenceCounter) with
            sequenceCounter := self.sequenceCounter + 1 }
      | .numbered sequence =>
          -- `write` blocks while another writer holds the lock
          match self.writeLock with
          | none => { self.goTo task (.locked sequence) with writeLock := some task }
          | some _ => self
      | .locked sequence =>
          { self.goTo task (.stored sequence (self.sizeData (call.entry sequence))
              self.data[call.key]?.isNone) with
            data := self.data.insert call.key (call.entry sequence) }
      | .stored sequence sizeData isTheData =>
          { self.goTo task (.counted sequence sizeData) with
            count := if isTheData then self.count + 1 else self.count }
      | .counted sequence sizeData =>
          { self.goTo task (.done sequence) with
            size :=
              if sizeData > 0 then self.size + UInt64.ofInt sizeData
              else self.size - UInt64.ofInt sizeData
            writeLock := none }
      | .done _ | .refused => self

def step (self : SharedMemTable) : WriterTurn → SharedMemTable
  | .writer task => self.advance calls task
  | .makeImmutable => { self with immutable := true }

/-! ## Against the memtable of one writer -/

/-- A memtable that no writer is using. -/
def share (memtable : MemTable) : SharedMemTable where
  data := memtable.data
  size := memtable.size
  count := memtable.count.toUInt64
  sequenceCounter := memtable.sequenceCounter
  immutable := memtable.immutable
  writeLock := none
  stage := fun _ => .waiting

/-- Left alone, the six statements of a writer make up its call. -/
theorem run_alone {memtable written : MemTable} {task : Nat} {call : MemTable.Call}
    (given : calls[task]? = some call) (ran : call.apply memtable = .ok written) :
    Runs.run (step calls) (share memtable) (List.replicate 6 (.writer task)) =
      (share written).goTo task (.done memtable.sequenceCounter) := by
  have mutable : memtable.immutable = false := by
    cases flag : memtable.immutable with
    | false => rfl
    | true =>
        have refused : call.apply memtable = .error (.error .readOnly) := by
          cases call <;> exact if_pos flag
        rw [refused] at ran
        cases ran
  rw [call.apply_of_mutable mutable] at ran
  cases ran
  have counted : (if memtable.data[call.key]?.isNone then memtable.count.toUInt64 + 1
      else memtable.count.toUInt64) =
      (if memtable.data.contains call.key then memtable.count
        else memtable.count + 1).toUInt64 := by
    rw [Std.TreeMap.contains_eq_isSome_getElem?]
    cases memtable.data[call.key]? with
    | none => exact (UInt64.ofNat_add memtable.count 1).symm
    | some old => rfl
  simp only [List.replicate, Runs.run_cons, Runs.run_nil, step, advance, given, share, goTo,
    mutable, Bool.false_eq_true, if_false, Function.update_self, Function.update_idem, counted]
  rfl

/-! ## What one step does -/

/-- What a step can do, with the guard under which it does it. -/
inductive Moves (before : SharedMemTable) : SharedMemTable → Prop where
  | idle : Moves before before
  | closed : Moves before { before with immutable := true }
  | checked {task : Nat} {stage : WriteStage} : before.stage task = .waiting →
      stage = .admitted ∨ stage = .refused → Moves before (before.goTo task stage)
  | drew {task : Nat} : task < calls.length → before.stage task = .admitted →
      Moves before { before.goTo task (.numbered before.sequenceCounter) with
        sequenceCounter := before.sequenceCounter + 1 }
  | acquired {task : Nat} {sequence : SequenceNumber} :
      before.stage task = .numbered sequence → before.writeLock = none →
      Moves before { before.goTo task (.locked sequence) with writeLock := some task }
  | inserted {task : Nat} {call : MemTable.Call} {sequence : SequenceNumber} {sizeData : Int} :
      calls[task]? = some call → before.stage task = .locked sequence →
      Moves before { before.goTo task (.stored sequence sizeData before.data[call.key]?.isNone)
        with data := before.data.insert call.key (call.entry sequence) }
  | added {task : Nat} {sequence : SequenceNumber} {sizeData : Int} {isTheData : Bool} :
      before.stage task = .stored sequence sizeData isTheData →
      Moves before { before.goTo task (.counted sequence sizeData) with
        count := if isTheData then before.count + 1 else before.count }
  | released {task : Nat} {sequence : SequenceNumber} {sizeData : Int} {size : UInt64} :
      before.stage task = .counted sequence sizeData →
      Moves before { before.goTo task (.done sequence) with size, writeLock := none }

theorem moves_step (self : SharedMemTable) (turn : WriterTurn) :
    Moves calls self (self.step calls turn) := by
  cases turn with
  | makeImmutable => exact .closed
  | writer task =>
      rw [step, advance]
      cases given : calls[task]? with
      | none => exact .idle
      | some call =>
          cases stands : self.stage task with
          | waiting =>
              apply Moves.checked stands
              split
              · exact .inr rfl
              · exact .inl rfl
          | admitted => exact .drew (List.getElem?_eq_some_iff.mp given).1 stands
          | numbered sequence =>
              cases held : self.writeLock with
              | none => exact .acquired stands held
              | some holder => exact .idle
          | locked sequence => exact .inserted given stands
          | stored sequence sizeData isTheData => exact .added stands
          | counted sequence sizeData => exact .released stands
          | done sequence => exact .idle
          | refused => exact .idle

@[simp] theorem stage_goTo_self (self : SharedMemTable) (task : Nat) (stage : WriteStage) :
    (self.goTo task stage).stage task = stage :=
  Function.update_self ..

@[simp] theorem data_goTo (self : SharedMemTable) (task : Nat) (stage : WriteStage) :
    (self.goTo task stage).data = self.data := rfl

theorem stage_goTo_of_ne (self : SharedMemTable) {task other : Nat} (apart : other ≠ task)
    (stage : WriteStage) : (self.goTo task stage).stage other = self.stage other :=
  Function.update_of_ne apart ..

/-- A writer that keeps its number. -/
theorem number_goTo {self : SharedMemTable} {task : Nat} {stage : WriteStage}
    (same : stage.number = (self.stage task).number) (other : Nat) :
    ((self.goTo task stage).stage other).number = (self.stage other).number := by
  by_cases own : other = task
  · rw [own, stage_goTo_self, same]
  · rw [stage_goTo_of_ne self own]

/-! ## Numbers -/

/-- The writers that have drawn their numbers, in the order in which they did. -/
structure Drew (start : SequenceNumber) (table : SharedMemTable) (drawn : List Nat) :
    Prop where
  nodup : drawn.Nodup
  within : ∀ task ∈ drawn, task < calls.length
  counter : table.sequenceCounter.toNat = start.toNat + drawn.length
  numbers : ∀ task sequence, (table.stage task).number = some sequence ↔
    ∃ i, drawn[i]? = some task ∧ sequence.toNat = start.toNat + i

variable {calls}

theorem Drew.of_same {start : SequenceNumber} {before after : SharedMemTable}
    {drawn : List Nat} (drew : Drew calls start before drawn)
    (counter : after.sequenceCounter = before.sequenceCounter)
    (numbers : ∀ task, (after.stage task).number = (before.stage task).number) :
    Drew calls start after drawn where
  nodup := drew.nodup
  within := drew.within
  counter := counter ▸ drew.counter
  numbers := fun task sequence => by rw [numbers, drew.numbers]

/-- There are no more distinct numbers below a bound than the bound. -/
theorem length_le_of_nodup {numbers : List Nat} {bound : Nat} (nodup : numbers.Nodup)
    (below : ∀ number ∈ numbers, number < bound) : numbers.length ≤ bound := by
  have among : numbers ⊆ List.range bound :=
    fun number member => List.mem_range.mpr (below number member)
  have fewer := (List.subperm_of_subset nodup among).length_le
  rwa [List.length_range] at fewer

private theorem getElem?_append_singleton {items : List Nat} {last item i : Nat} :
    (items ++ [last])[i]? = some item ↔
      items[i]? = some item ∨ i = items.length ∧ last = item := by
  rcases lt_trichotomy i items.length with inside | rfl | outside
  · simp [List.getElem?_append_left inside, inside.ne]
  · simp
  · have none : items[i]? = none := List.getElem?_eq_none outside.le
    simp [List.getElem?_append_right outside.le, none, outside.ne',
      Nat.sub_ne_zero_of_lt outside]

/-- A writer without a number is not among those that have drawn. -/
theorem Drew.not_mem {start : SequenceNumber} {table : SharedMemTable} {drawn : List Nat}
    {task : Nat} (room : start.toNat + calls.length < wordSize)
    (drew : Drew calls start table drawn) (unnumbered : (table.stage task).number = none) :
    task ∉ drawn := by
  intro member
  have few := length_le_of_nodup drew.nodup drew.within
  obtain ⟨i, found⟩ := List.mem_iff_getElem?.mp member
  have below := (List.getElem?_eq_some_iff.mp found).1
  have word : (UInt64.ofNat (start.toNat + i)).toNat = start.toNat + i := by
    rw [UInt64.toNat_ofNat']
    exact Nat.mod_eq_of_lt (by change _ < wordSize; omega)
  have number := (drew.numbers task _).mpr ⟨i, found, word⟩
  rw [unnumbered] at number
  cases number

/-- A writer draws the number of the writers before it. -/
theorem Drew.draw {start : SequenceNumber} {before : SharedMemTable} {drawn : List Nat}
    {task : Nat} (room : start.toNat + calls.length < wordSize)
    (drew : Drew calls start before drawn) (inside : task < calls.length)
    (unnumbered : (before.stage task).number = none) :
    Drew calls start { before.goTo task (.numbered before.sequenceCounter) with
      sequenceCounter := before.sequenceCounter + 1 } (drawn ++ [task]) := by
  have counter := drew.counter
  have fresh := drew.not_mem room unnumbered
  have nodup : (drawn ++ [task]).Nodup := by
    rw [← List.concat_eq_append]
    exact drew.nodup.concat fresh
  have within : ∀ other ∈ drawn ++ [task], other < calls.length := by
    intro other member
    rcases List.mem_append.mp member with earlier | last
    · exact drew.within other earlier
    · rw [List.mem_singleton.mp last]
      exact inside
  have few := length_le_of_nodup nodup within
  rw [List.length_append, List.length_singleton] at few
  refine ⟨nodup, within, ?_, ?_⟩
  · change (before.sequenceCounter + 1).toNat = _
    rw [UInt64.toNat_add, counter, List.length_append, List.length_singleton]
    exact Nat.mod_eq_of_lt (by change start.toNat + drawn.length + 1 < wordSize; omega)
  · intro other sequence
    change ((before.goTo task _).stage other).number = some sequence ↔ _
    simp only [getElem?_append_singleton]
    by_cases own : other = task
    · subst own
      have last : before.sequenceCounter = sequence ↔
          sequence.toNat = start.toNat + drawn.length := by
        rw [← UInt64.toNat_inj, counter, eq_comm]
      have absent : ∀ i, drawn[i]? ≠ some other :=
        fun i found => fresh (List.mem_of_getElem? found)
      rw [stage_goTo_self, WriteStage.number, Option.some.injEq, last]
      simp [absent]
    · rw [stage_goTo_of_ne before own, drew.numbers]
      simp [Ne.symm own]

/-- Every move but a draw leaves the counter and the numbers as they are. -/
theorem Moves.numbers {before after : SharedMemTable} (moves : Moves calls before after) :
    (after.sequenceCounter = before.sequenceCounter ∧
      ∀ task, (after.stage task).number = (before.stage task).number) ∨
    ∃ task, task < calls.length ∧ before.stage task = .admitted ∧
      after = { before.goTo task (.numbered before.sequenceCounter) with
        sequenceCounter := before.sequenceCounter + 1 } := by
  cases moves with
  | idle | closed => exact .inl ⟨rfl, fun _ => rfl⟩
  | checked stands next =>
      refine .inl ⟨rfl, number_goTo ?_⟩
      rcases next with rfl | rfl <;> rw [stands] <;> rfl
  | drew inside stands => exact .inr ⟨_, inside, stands, rfl⟩
  | acquired stands | inserted _ stands | added stands | released stands =>
      exact .inl ⟨rfl, number_goTo (by rw [stands]; rfl)⟩

/-- The number that a writer has drawn stays its own. -/
theorem Moves.number_kept {before after : SharedMemTable} (moves : Moves calls before after)
    {task : Nat} {sequence : SequenceNumber}
    (drawn : (before.stage task).number = some sequence) :
    (after.stage task).number = some sequence := by
  rcases moves.numbers with ⟨_, same⟩ | ⟨mover, _, stands, rfl⟩
  · rw [same, drawn]
  · have apart : task ≠ mover := by
      rintro rfl
      rw [stands] at drawn
      cases drawn
    exact (congrArg WriteStage.number (stage_goTo_of_ne before apart _)).trans drawn

theorem Drew.step {start : SequenceNumber} {before after : SharedMemTable} {drawn : List Nat}
    (room : start.toNat + calls.length < wordSize) (drew : Drew calls start before drawn)
    (moves : Moves calls before after) : ∃ drawn, Drew calls start after drawn := by
  rcases moves.numbers with ⟨counter, same⟩ | ⟨mover, inside, stands, rfl⟩
  · exact ⟨drawn, drew.of_same counter same⟩
  · exact ⟨_, drew.draw room inside (by rw [stands]; rfl)⟩

/-! ## The lock -/

/-- A writer is in its critical section exactly while it holds the lock. -/
def Exclusive (table : SharedMemTable) : Prop :=
  ∀ task, (table.stage task).Critical ↔ table.writeLock = some task

/-- A writer that neither takes the lock nor lets it go. -/
theorem Exclusive.goTo {table : SharedMemTable} (exclusive : table.Exclusive) {task : Nat}
    {stage : WriteStage} (same : stage.Critical ↔ (table.stage task).Critical) :
    (table.goTo task stage).Exclusive := by
  intro other
  by_cases own : other = task
  · rw [own, stage_goTo_self, same]
    exact exclusive task
  · rw [stage_goTo_of_ne table own]
    exact exclusive other

theorem Exclusive.step {before after : SharedMemTable} (exclusive : before.Exclusive)
    (moves : Moves calls before after) : after.Exclusive := by
  cases moves with
  | idle | closed => exact exclusive
  | checked stands next =>
      apply exclusive.goTo
      rcases next with rfl | rfl <;> rw [stands] <;> exact Iff.rfl
  | drew _ stands | inserted _ stands | added stands =>
      exact exclusive.goTo (by rw [stands]; exact Iff.rfl)
  | @acquired task sequence _ held =>
      intro other
      by_cases own : other = task
      · simp [own, WriteStage.Critical]
      · have free : ¬(before.stage other).Critical := by simp [exclusive other, held]
        simp [stage_goTo_of_ne before own, free, Ne.symm own]
  | @released task _ _ _ stands =>
      have held := (exclusive task).mp (by rw [stands]; trivial)
      intro other
      by_cases own : other = task
      · simp [own, WriteStage.Critical]
      · have free : ¬(before.stage other).Critical := by
          simp [exclusive other, held, Ne.symm own]
        simp [stage_goTo_of_ne before own, free]

/-! ## The entries stored -/

/-- Every entry stored is what some writer with a number writes under that number. -/
def Written (calls : List MemTable.Call) (table : SharedMemTable) : Prop :=
  ∀ (key : Key) (entry : Entry), table.data[key]? = some entry →
    ∃ task call sequence, calls[task]? = some call ∧
      (table.stage task).number = some sequence ∧ call.key = key ∧ entry = call.entry sequence

theorem Written.step {before after : SharedMemTable} (written : before.Written calls)
    (moves : Moves calls before after) : after.Written calls := by
  have kept : ∀ (key : Key) (entry : Entry), before.data[key]? = some entry →
      ∃ task call sequence, calls[task]? = some call ∧
        (after.stage task).number = some sequence ∧ call.key = key ∧
        entry = call.entry sequence := by
    intro key entry found
    obtain ⟨task, call, sequence, given, drawn, rest⟩ := written key entry found
    exact ⟨task, call, sequence, given, moves.number_kept drawn, rest⟩
  cases moves with
  | idle | closed | checked | drew | acquired | added | released => exact kept
  | @inserted task call sequence sizeData given stands =>
      intro key entry found
      change (before.data.insert call.key (call.entry sequence))[key]? = some entry at found
      rw [Std.TreeMap.getElem?_insert] at found
      split at found
      next same =>
        cases found
        have number := stage_goTo_self before task
          (.stored sequence sizeData before.data[call.key]?.isNone)
        exact ⟨task, call, sequence, given, congrArg WriteStage.number number,
          Std.LawfulEqOrd.compare_eq_iff_eq.mp same, rfl⟩
      next => exact kept key entry found

/-! ## The sequences stored -/

variable {start : SequenceNumber} {table : SharedMemTable} {drawn : List Nat}

/-- A stored sequence is the number of the writer that drew at its place. -/
theorem drawn_of_written (drew : Drew calls start table drawn) (written : table.Written calls)
    {key : Key} {entry : Entry} (found : table.data[key]? = some entry) :
    ∃ i task call, drawn[i]? = some task ∧ calls[task]? = some call ∧ call.key = key ∧
      entry.sequence.toNat = start.toNat + i := by
  obtain ⟨task, call, sequence, given, number, same, rfl⟩ := written key entry found
  obtain ⟨i, place, eq⟩ := (drew.numbers task sequence).mp number
  exact ⟨i, task, call, place, given, same, eq⟩

/-- One sequence is stored under one key. -/
theorem key_eq_of_sequence (drew : Drew calls start table drawn)
    (written : table.Written calls) {first second : Key} {left right : Entry}
    (leftFound : table.data[first]? = some left) (rightFound : table.data[second]? = some right)
    (same : left.sequence = right.sequence) : first = second := by
  obtain ⟨i, task, call, place, given, rfl, eq⟩ := drawn_of_written drew written leftFound
  obtain ⟨j, other, otherCall, otherPlace, otherGiven, rfl, otherEq⟩ :=
    drawn_of_written drew written rightFound
  have places : i = j := by
    apply Nat.add_left_cancel (n := start.toNat)
    rw [← eq, ← otherEq, same]
  subst places
  rw [place, Option.some.injEq] at otherPlace
  subst otherPlace
  rw [given, Option.some.injEq] at otherGiven
  rw [otherGiven]

/-- A stored sequence lies between the first number and the next one. -/
theorem sequence_within (drew : Drew calls start table drawn) (written : table.Written calls)
    {key : Key} {entry : Entry} (found : table.data[key]? = some entry) :
    start ≤ entry.sequence ∧ entry.sequence < table.sequenceCounter := by
  obtain ⟨i, task, call, place, _, _, eq⟩ := drawn_of_written drew written found
  have below := (List.getElem?_eq_some_iff.mp place).1
  rw [UInt64.le_iff_toNat_le, UInt64.lt_iff_toNat_lt, eq, drew.counter]
  exact ⟨Nat.le_add_right .., Nat.add_lt_add_left below _⟩

/-- There are no more keys than writers. -/
theorem size_le (drew : Drew calls start table drawn) (written : table.Written calls) :
    table.data.size ≤ calls.length := by
  let place (pair : Key × Entry) : Nat := pair.2.sequence.toNat - start.toNat
  have found : ∀ pair ∈ table.data.toList, table.data[pair.1]? = some pair.2 :=
    fun _ member => Std.TreeMap.mem_toList_iff_getElem?_eq_some.mp member
  have apart : (table.data.toList.map place).Nodup := by
    rw [List.nodup_iff_pairwise_ne, List.pairwise_map]
    apply Std.TreeMap.distinct_keys_toList.imp_of_mem
    intro left right leftMember rightMember differ same
    apply differ
    rw [Std.LawfulEqOrd.compare_eq_iff_eq]
    apply key_eq_of_sequence drew written (found _ leftMember) (found _ rightMember)
    have leftAbove := (sequence_within drew written (found _ leftMember)).1
    have rightAbove := (sequence_within drew written (found _ rightMember)).1
    rw [UInt64.le_iff_toNat_le] at leftAbove rightAbove
    rw [← UInt64.toNat_inj]
    simp only [place] at same
    omega
  have below : ∀ number ∈ table.data.toList.map place, number < drawn.length := by
    intro number member
    obtain ⟨pair, inside, rfl⟩ := List.mem_map.mp member
    obtain ⟨i, task, call, taken, _, _, eq⟩ := drawn_of_written drew written (found _ inside)
    have bound := (List.getElem?_eq_some_iff.mp taken).1
    simpa [place, eq] using bound
  have few := length_le_of_nodup apart below
  rw [List.length_map, Std.TreeMap.length_toList] at few
  exact few.trans (length_le_of_nodup drew.nodup drew.within)

/-! ## The count -/

/-- The entries that are stored and not counted: those of the writer with the lock. -/
def owed (table : SharedMemTable) : Nat :=
  match table.writeLock with
  | none => 0
  | some task => (table.stage task).owed

theorem owed_of_free (free : table.writeLock = none) : table.owed = 0 := by
  rw [owed, free]

theorem owed_of_held {task : Nat} {stage : WriteStage} (held : table.writeLock = some task)
    (stands : table.stage task = stage) : table.owed = stage.owed := by
  rw [owed, held, ← stands]

/-- A writer without the lock owes nothing. -/
theorem Exclusive.owed_goTo (exclusive : table.Exclusive) {task : Nat}
    (outside : ¬(table.stage task).Critical) (stage : WriteStage) :
    (table.goTo task stage).owed = table.owed := by
  cases held : table.writeLock with
  | none => rw [owed_of_free held, @owed_of_free (table.goTo task stage) held]
  | some holder =>
      have apart : holder ≠ task := by
        rintro rfl
        exact outside ((exclusive holder).mpr held)
      rw [owed_of_held held rfl,
        @owed_of_held (table.goTo task stage) holder _ held (stage_goTo_of_ne table apart stage)]

/-- The count is behind the map by what the writer with the lock owes. -/
def Counts (table : SharedMemTable) : Prop :=
  table.count.toNat + table.owed = table.data.size

theorem Counts.of_held {task : Nat} {stage : WriteStage} (held : table.writeLock = some task)
    (stands : table.stage task = stage)
    (counted : table.count.toNat + stage.owed = table.data.size) : table.Counts := by
  rwa [Counts, owed_of_held held stands]

/-- The map has fewer keys than there are words, so counting one more does not wrap. -/
theorem Counts.step {before after : SharedMemTable} (counts : before.Counts)
    (exclusive : before.Exclusive) (few : before.data.size < wordSize)
    (moves : Moves calls before after) : after.Counts := by
  have holds : ∀ task stage, before.stage task = stage → stage.Critical →
      before.writeLock = some task ∧ before.count.toNat + stage.owed = before.data.size := by
    rintro task _ rfl critical
    have held := (exclusive task).mp critical
    exact ⟨held, owed_of_held held rfl ▸ counts⟩
  cases moves with
  | idle | closed => exact counts
  | checked stands next | drew _ stands =>
      exact (congrArg _ (exclusive.owed_goTo (by rw [stands]; exact id) _)).trans counts
  | acquired _ free =>
      rw [Counts, owed_of_free free] at counts
      exact .of_held rfl (stage_goTo_self ..) counts
  | @inserted _ call _ _ _ stands =>
      obtain ⟨held, counted⟩ := holds _ _ stands trivial
      refine .of_held held (stage_goTo_self ..) ?_
      rw [Std.TreeMap.size_insert, Std.TreeMap.contains_eq_isSome_getElem?, ← counted]
      cases before.data[call.key]? <;> rfl
  | @added _ _ _ isTheData stands =>
      obtain ⟨held, counted⟩ := holds _ _ stands trivial
      refine .of_held held (stage_goTo_self ..) ?_
      rw [data_goTo, ← counted]
      cases isTheData with
      | false => rfl
      | true =>
          have room : before.count.toNat + 1 < 2 ^ 64 := lt_of_eq_of_lt counted few
          exact (UInt64.toNat_add before.count 1).trans (Nat.mod_eq_of_lt room)
  | released stands => exact (holds _ _ stands trivial).2

/-! ## What is true whenever the lock is free -/

/-- What a flush relies on. -/
structure Represents (start : SequenceNumber) (table : SharedMemTable) : Prop where
  count_eq : table.count.toNat = table.data.size
  keyed : ∀ (key : Key) (entry : Entry), table.data[key]? = some entry → entry.key = key
  distinct : ∀ (first second : Key) (left right : Entry), table.data[first]? = some left →
    table.data[second]? = some right → left.sequence = right.sequence → first = second
  numbered : ∀ (key : Key) (entry : Entry), table.data[key]? = some entry →
    start ≤ entry.sequence ∧ entry.sequence < table.sequenceCounter
  ascending : table.entries.Pairwise fun left right => left.1 < right.1
  accepted : ∀ (external : External) (builder : SSTableBuilder) (output : Output)
    (createdAt : Timestamp) (fault : Fault) (after : Sink),
    builder.buildFromVec external createdAt (table.entries.map Prod.snd) { output } =
      .error fault after → fault ≠ SSTableWriter.unsorted

/-- What holds between any two statements. -/
structure Consistent (calls : List MemTable.Call) (start : SequenceNumber)
    (table : SharedMemTable) : Prop where
  drew : ∃ drawn, Drew calls start table drawn
  written : table.Written calls
  exclusive : table.Exclusive
  counts : table.Counts

theorem consistent_begin (calls : List MemTable.Call) (start : SequenceNumber) :
    Consistent calls start (begin start) where
  drew := ⟨[], List.nodup_nil, by simp, rfl, by simp [begin, WriteStage.number]⟩
  written := by simp [Written, begin]
  exclusive := by simp [Exclusive, begin, WriteStage.Critical]
  counts := by simp [Counts, begin, owed]

theorem Consistent.step (room : start.toNat + calls.length < wordSize)
    (consistent : Consistent calls start table) (turn : WriterTurn) :
    Consistent calls start (table.step calls turn) := by
  obtain ⟨⟨drawn, drew⟩, written, exclusive, counts⟩ := consistent
  have moves := table.moves_step calls turn
  have few : table.data.size < wordSize := by
    apply (size_le drew written).trans_lt
    exact (Nat.le_add_left ..).trans_lt room
  exact ⟨drew.step room moves, written.step moves, exclusive.step moves,
    counts.step exclusive few moves⟩

/-- While no writer holds the lock, a consistent memtable is what a flush takes it for. -/
theorem Consistent.represents (consistent : Consistent calls start table)
    (free : table.writeLock = none) : table.Represents start := by
  obtain ⟨⟨drawn, drew⟩, written, _, counts⟩ := consistent
  have count_eq : table.count.toNat = table.data.size := by
    rwa [Counts, owed_of_free free] at counts
  have keyed : ∀ (key : Key) (entry : Entry), table.data[key]? = some entry →
      entry.key = key := by
    intro key entry found
    obtain ⟨task, call, sequence, _, _, rfl, rfl⟩ := written key entry found
    rfl
  let memtable : MemTable :=
    { data := table.data, size := table.size, count := table.data.size,
      sequenceCounter := table.sequenceCounter, maxSize := 0, immutable := table.immutable,
      count_eq := rfl, keyed }
  exact {
    count_eq
    keyed
    distinct := fun _ _ _ _ left right => key_eq_of_sequence drew written left right
    numbered := fun _ _ found => sequence_within drew written found
    ascending := Std.TreeMap.ordered_keys_toList.imp compare_lt_iff_lt.mp
    accepted := fun _ _ _ _ _ _ ran =>
      SSTableBuilder.ne_unsorted_of_buildFromVec
        (memtable.entryList_ascending.imp fun below => below.ne) ran }

/-- However the statements of the writers and `make_immutable` interleave, the memtable is
in order whenever no writer holds its lock, as long as the numbers last. -/
theorem represents_throughout (calls : List MemTable.Call) (start : SequenceNumber)
    (room : start.toNat + calls.length < wordSize) (turns : List WriterTurn) :
    Runs.Throughout (fun table => table.writeLock = none → table.Represents start)
      (step calls) (begin start) turns :=
  Runs.throughout_of_invariant (fun _ consistent free => consistent.represents free)
    (fun _ turn consistent => consistent.step room turn) (consistent_begin calls start) turns

/-- Two writers of one key: the second inserts and counts while the first, with the earlier
number, waits for the lock. -/
theorem represents_throughout_twoPuts :
    Runs.Throughout (fun table => table.writeLock = none → table.Represents 7)
      (step Writing.twoPuts) (begin 7)
      [.writer 0, .writer 0, .writer 1, .writer 1, .writer 1, .writer 0, .writer 1,
        .makeImmutable, .writer 1, .writer 1, .writer 0, .writer 0, .writer 0, .writer 0] :=
  represents_throughout Writing.twoPuts 7 (by decide) _

end SharedMemTable

end JustDb

import JustDb.MemTableSize
import JustDb.Library.Runs

/-!
# Writers that share a memtable

`put` and `delete` draw their sequence number before they take the data write lock, so
two writers of a key may insert in the opposite order.  Here each writer runs one atomic
step at a time, and the memtable may become immutable between any two of them.
-/

namespace JustDb

/-- Where a writer stands: between its number and its insertion, or returned. -/
inductive WriterPhase where
  | waiting
  | numbered (sequence : SequenceNumber)
  | inserted (sequence : SequenceNumber)
  | refused

/-- The writer has returned. -/
def WriterPhase.Returned : WriterPhase → Prop
  | .inserted _ | .refused => True
  | _ => False

/-- The memtable that the writers share, and where each of them stands. -/
structure Writing where
  memtable : MemTable
  phase : Nat → WriterPhase

/-- What happens next: a writer takes its next step, or the memtable is made immutable. -/
inductive WriterTurn where
  | writer (task : Nat)
  | makeImmutable

namespace Writing

/-- A new memtable, before any writer has begun. -/
def start (maxSize : Nat) (startSequence : SequenceNumber) : Writing where
  memtable := .withSequence maxSize startSequence
  phase := fun _ => .waiting

/-- A writer goes on to another phase, and leaves a memtable. -/
def move (writing : Writing) (task : Nat) (phase : WriterPhase) (memtable : MemTable) :
    Writing where
  memtable
  phase := Function.update writing.phase task phase

@[simp] theorem memtable_move (writing : Writing) (task : Nat) (phase : WriterPhase)
    (memtable : MemTable) : (writing.move task phase memtable).memtable = memtable := rfl

@[simp] theorem phase_move_self (writing : Writing) (task : Nat) (phase : WriterPhase)
    (memtable : MemTable) : (writing.move task phase memtable).phase task = phase :=
  Function.update_self ..

theorem phase_move_of_ne {writing : Writing} {task other : Nat} (apart : other ≠ task)
    (phase : WriterPhase) (memtable : MemTable) :
    (writing.move task phase memtable).phase other = writing.phase other :=
  Function.update_of_ne apart ..

variable (calls : List MemTable.Call)

/-- The next atomic step of a writer: take a sequence number, unless the memtable is
immutable, then insert under the data write lock. -/
def advance (writing : Writing) (task : Nat) : Writing :=
  match calls[task]? with
  | none => writing
  | some call =>
      match writing.phase task with
      | .waiting =>
          if writing.memtable.immutable then
            writing.move task .refused writing.memtable
          else
            let (sequence, memtable) := writing.memtable.nextSequence
            writing.move task (.numbered sequence) memtable
      | .numbered sequence =>
          writing.move task (.inserted sequence)
            (writing.memtable.insertEntry (call.entry sequence))
      | .inserted _ | .refused => writing

def step (writing : Writing) : WriterTurn → Writing
  | .writer task => writing.advance calls task
  | .makeImmutable => { writing with memtable := writing.memtable.makeImmutable }

/-- Left alone, the two steps of a writer make up its call. -/
theorem run_alone {writing : Writing} {task : Nat} {call : MemTable.Call}
    (given : calls[task]? = some call) (waiting : writing.phase task = .waiting)
    (mutable : writing.memtable.immutable = false) :
    call.apply writing.memtable =
      .ok (Runs.run (step calls) writing [.writer task, .writer task]).memtable := by
  rw [call.apply_of_mutable mutable]
  simp [step, advance, given, waiting, mutable, MemTable.nextSequence]

/-- An entry that a writer has inserted. -/
def Wrote (writing : Writing) (entry : Entry) : Prop :=
  ∃ task call sequence, calls[task]? = some call ∧
    writing.phase task = .inserted sequence ∧ entry = call.entry sequence

/-- Every writer has returned. -/
def Done (writing : Writing) : Prop :=
  ∀ task < calls.length, (writing.phase task).Returned

/-- The entry stored for a key is one of its writes, and none of them has a larger
sequence. -/
structure NewestStored (writing : Writing) : Prop where
  wrote : ∀ key stored, writing.memtable.get key = some stored → writing.Wrote calls stored
  newest : ∀ entry, writing.Wrote calls entry →
    ∃ stored, writing.memtable.get entry.key = some stored ∧ entry.sequence ≤ stored.sequence

/-- No sequence stored for a key is smaller later. -/
def NoOlder (before after : Writing) : Prop :=
  ∀ key held, before.memtable.get key = some held →
    ∃ stored, after.memtable.get key = some stored ∧ held.sequence ≤ stored.sequence

/-- The condition on a step: a writer that inserts has not been overtaken by a write to
its key with a larger number. -/
def NotOvertaken (writing : Writing) : WriterTurn → Prop
  | .writer task => ∀ call sequence, calls[task]? = some call →
      writing.phase task = .numbered sequence →
      ∀ entry, writing.Wrote calls entry → entry.key = call.key → entry.sequence ≤ sequence
  | .makeImmutable => True

/-! ## What one step does -/

variable {calls}

/-- A writer that has inserted nothing adds what it inserts now. -/
theorem wrote_move {writing : Writing} {task : Nat} {call : MemTable.Call}
    (given : calls[task]? = some call)
    (fresh : ∀ sequence, writing.phase task ≠ .inserted sequence)
    (phase : WriterPhase) (memtable : MemTable) (entry : Entry) :
    (writing.move task phase memtable).Wrote calls entry ↔
      (∃ sequence, phase = .inserted sequence ∧ entry = call.entry sequence) ∨
        writing.Wrote calls entry := by
  constructor
  · rintro ⟨other, otherCall, sequence, found, inserted, rfl⟩
    by_cases same : other = task
    · subst same
      rw [given, Option.some.injEq] at found
      subst found
      rw [phase_move_self] at inserted
      exact .inl ⟨sequence, inserted, rfl⟩
    · rw [phase_move_of_ne same] at inserted
      exact .inr ⟨other, otherCall, sequence, found, inserted, rfl⟩
  · rintro (⟨sequence, rfl, rfl⟩ | ⟨other, otherCall, sequence, found, inserted, rfl⟩)
    · exact ⟨task, call, sequence, given, phase_move_self .., rfl⟩
    · have apart : other ≠ task := by
        rintro rfl
        exact fresh sequence inserted
      exact ⟨other, otherCall, sequence, found, by rwa [phase_move_of_ne apart], rfl⟩

/-- Two states with the same entries stored and the same writes made. -/
structure Alike (calls : List MemTable.Call) (before after : Writing) : Prop where
  get : ∀ key, after.memtable.get key = before.memtable.get key
  wrote : ∀ entry, after.Wrote calls entry ↔ before.Wrote calls entry

/-- A writer that goes on without inserting. -/
theorem alike_move {writing : Writing} {task : Nat} {call : MemTable.Call}
    (given : calls[task]? = some call) (waiting : writing.phase task = .waiting)
    {phase : WriterPhase} (idle : ∀ sequence, phase ≠ .inserted sequence) {memtable : MemTable}
    (get : ∀ key, memtable.get key = writing.memtable.get key) :
    Alike calls writing (writing.move task phase memtable) where
  get := get
  wrote := by
    intro entry
    rw [wrote_move given (by simp [waiting])]
    simp [idle]

/-- A step inserts the entry of a writer that has its number, or changes neither what is
stored nor what is written. -/
theorem step_cases (writing : Writing) (turn : WriterTurn) :
    (Alike calls writing (writing.step calls turn) ∧ writing.NotOvertaken calls turn) ∨
      ∃ task call sequence, turn = .writer task ∧ calls[task]? = some call ∧
        writing.phase task = .numbered sequence ∧
        writing.step calls turn = writing.move task (.inserted sequence)
          (writing.memtable.insertEntry (call.entry sequence)) := by
  cases turn with
  | makeImmutable => exact .inl ⟨⟨fun _ => rfl, fun _ => Iff.rfl⟩, trivial⟩
  | writer task =>
      rw [step, advance]
      cases given : calls[task]? with
      | none => exact .inl ⟨⟨fun _ => rfl, fun _ => Iff.rfl⟩, by simp [NotOvertaken, given]⟩
      | some call =>
          cases stands : writing.phase task with
          | numbered sequence => exact .inr ⟨task, call, sequence, rfl, given, stands, rfl⟩
          | waiting =>
              refine .inl ⟨?_, by simp [NotOvertaken, stands]⟩
              dsimp only
              split
              · exact alike_move given stands (by simp) fun _ => rfl
              · exact alike_move given stands (by simp) fun _ => rfl
          | inserted sequence =>
              exact .inl ⟨⟨fun _ => rfl, fun _ => Iff.rfl⟩, by simp [NotOvertaken, stands]⟩
          | refused =>
              exact .inl ⟨⟨fun _ => rfl, fun _ => Iff.rfl⟩, by simp [NotOvertaken, stands]⟩

/-! ## What the steps keep -/

theorem newestStored_start (maxSize : Nat) (startSequence : SequenceNumber) :
    (start maxSize startSequence).NewestStored calls where
  wrote := by
    intro key stored held
    rw [start, MemTable.get_withSequence] at held
    cases held
  newest := by
    rintro entry ⟨task, call, sequence, given, inserted, rfl⟩
    cases inserted

theorem NewestStored.of_alike {before after : Writing} (newest : before.NewestStored calls)
    (alike : Alike calls before after) : after.NewestStored calls where
  wrote := by
    intro key stored held
    rw [alike.get] at held
    exact (alike.wrote stored).mpr (newest.wrote key stored held)
  newest := by
    intro entry wrote
    rw [alike.get]
    exact newest.newest entry ((alike.wrote entry).mp wrote)

/-- An insertion that is not overtaken. -/
theorem NewestStored.insert {writing : Writing} (newest : writing.NewestStored calls)
    {task : Nat} {call : MemTable.Call} {sequence : SequenceNumber}
    (given : calls[task]? = some call) (numbered : writing.phase task = .numbered sequence)
    (ahead : writing.NotOvertaken calls (.writer task)) :
    (writing.move task (.inserted sequence)
      (writing.memtable.insertEntry (call.entry sequence))).NewestStored calls where
  wrote := by
    intro key stored held
    rw [wrote_move given (by simp [numbered])]
    rw [memtable_move, MemTable.get_insertEntry] at held
    split at held
    · cases held
      exact .inl ⟨sequence, rfl, rfl⟩
    · exact .inr (newest.wrote key stored held)
  newest := by
    intro entry wrote
    rw [wrote_move given (by simp [numbered])] at wrote
    rw [memtable_move, MemTable.get_insertEntry]
    rcases wrote with ⟨_, same, rfl⟩ | wrote
    · cases same
      rw [if_pos rfl]
      exact ⟨_, rfl, le_rfl⟩
    · split
      next same =>
        exact ⟨_, rfl, ahead call sequence given numbered entry wrote same⟩
      next => exact newest.newest entry wrote

/-- A step that no write has overtaken keeps the newest version of each key. -/
theorem NewestStored.step {writing : Writing} (newest : writing.NewestStored calls)
    {turn : WriterTurn} (ahead : writing.NotOvertaken calls turn) :
    (writing.step calls turn).NewestStored calls := by
  rcases writing.step_cases turn with ⟨alike, -⟩ | ⟨task, call, sequence, rfl, given, numbered, eq⟩
  · exact newest.of_alike alike
  · rw [eq]
    exact newest.insert given numbered ahead

/-! ## When no stored sequence decreases -/

theorem NoOlder.refl (writing : Writing) : writing.NoOlder writing :=
  fun _ held found => ⟨held, found, le_rfl⟩

theorem NoOlder.trans {first second third : Writing} (earlier : first.NoOlder second)
    (later : second.NoOlder third) : first.NoOlder third := by
  intro key held found
  obtain ⟨middle, kept, below⟩ := earlier key held found
  obtain ⟨last, stored, above⟩ := later key middle kept
  exact ⟨last, stored, below.trans above⟩

/-- Where the newest versions are stored, a step stores no older one exactly when no
write has overtaken it. -/
theorem NewestStored.noOlder_iff {writing : Writing} (newest : writing.NewestStored calls)
    (turn : WriterTurn) :
    writing.NoOlder (writing.step calls turn) ↔ writing.NotOvertaken calls turn := by
  rcases writing.step_cases turn with
    ⟨alike, ahead⟩ | ⟨task, call, sequence, rfl, given, numbered, eq⟩
  · refine iff_of_true ?_ ahead
    intro key held found
    rw [alike.get]
    exact ⟨held, found, le_rfl⟩
  · rw [eq]
    constructor
    · intro kept _ _ found numbered' entry wrote same
      rw [given] at found
      cases found
      rw [numbered] at numbered'
      cases numbered'
      obtain ⟨stored, held, below⟩ := newest.newest entry wrote
      obtain ⟨later, inserted, above⟩ := kept entry.key stored held
      rw [memtable_move, MemTable.get_insertEntry, if_pos (by exact same)] at inserted
      cases inserted
      exact below.trans above
    · intro ahead key held found
      rw [memtable_move, MemTable.get_insertEntry]
      split
      next same =>
        have wrote := newest.wrote key held found
        have keyed := MemTable.key_of_get found
        exact ⟨_, rfl, ahead call sequence given numbered held wrote (keyed.trans same)⟩
      next => exact ⟨held, found, le_rfl⟩

/-- In a run of writers no stored sequence decreases exactly when no insertion has been
overtaken. -/
theorem ordered_iff_notOvertaken {writing : Writing} (newest : writing.NewestStored calls)
    (turns : List WriterTurn) :
    Runs.Ordered NoOlder (step calls) writing turns ↔
      Runs.Guarded (NotOvertaken calls) (step calls) writing turns := by
  rw [Runs.ordered_iff_guarded NoOlder.refl fun _ _ _ => NoOlder.trans]
  let inv : Writing → List WriterTurn → Prop := fun writing _ => writing.NewestStored calls
  have initially : inv writing turns := newest
  exact Runs.guarded_congr (fun _ turn _ (held : NewestStored calls _) => held.noOlder_iff turn)
    (fun _ _ _ held ahead => NewestStored.step held ahead) initially

/-- No sequence stored for a key ever decreases, and once the writers are done each key
has the write with the largest sequence, exactly when each insertion finds no write to
its key with a larger number made before it. -/
theorem newestKept_iff (calls : List MemTable.Call) (maxSize : Nat)
    (startSequence : SequenceNumber) (turns : List WriterTurn) :
    (Runs.Ordered NoOlder (step calls) (start maxSize startSequence) turns ∧
      ((Runs.run (step calls) (start maxSize startSequence) turns).Done calls →
        (Runs.run (step calls) (start maxSize startSequence) turns).NewestStored calls)) ↔
    Runs.Guarded (NotOvertaken calls) (step calls) (start maxSize startSequence) turns := by
  have newest := @newestStored_start calls maxSize startSequence
  rw [ordered_iff_notOvertaken newest, and_iff_left_iff_imp]
  intro guarded _
  exact guarded.invariant (fun _ _ newest ahead => newest.step ahead) newest

/-- The puts of two writers to one key. -/
def twoPuts : List MemTable.Call :=
  [.put [107] [1] 5, .put [107] [2] 6]

/-- Two writers take their numbers, and the second inserts first: it is done, and the key
is left with the older put. -/
theorem second_number_first_insert :
    ¬ ∀ turns : List WriterTurn,
      Runs.Ordered NoOlder (step twoPuts) (start 100 0) turns ∧
        ((Runs.run (step twoPuts) (start 100 0) turns).Done twoPuts →
          (Runs.run (step twoPuts) (start 100 0) turns).NewestStored twoPuts) := by
  intro kept
  have newest := (kept [.writer 0, .writer 1, .writer 1, .writer 0]).2 (by
    intro task within
    match task, within with
    | 0, _ => trivial
    | 1, _ => trivial)
  obtain ⟨stored, held, below⟩ := newest.newest _ ⟨1, .put [107] [2] 6, 1, rfl, rfl, rfl⟩
  have last : (Runs.run (step twoPuts) (start 100 0)
      [.writer 0, .writer 1, .writer 1, .writer 0]).memtable.get [107] =
        some { key := [107], value := some [1], timestamp := 5, sequence := 0 } := by
    decide
  rw [show (MemTable.Call.entry (.put [107] [2] 6) 1).key = [107] from rfl, last] at held
  cases held
  revert below
  decide

end Writing

end JustDb

import JustDb.Storage.Chunks
import JustDb.Storage.InMemory
import JustDb.Storage.ReadYourWrites
import JustDb.Library.Runs

/-!
# Puts that race with a close

A put checks the closed flag once, long before it inserts its entry.  A close sets the
flag, flushes the immutable memtables and then a clone of the current one.  What a put
inserts into the memtable once it has been cloned reaches no table.
-/

namespace JustDb

open Stateful Machine

variable {World Table : Type}

/-- Where a put stands between its atomic steps, with the entry that it has stored.  Of the
entry a caller learns nothing: it is told `Ok` or an error. -/
inductive PutPhase where
  | waiting
  | checked
  | inserted (entry : Entry)
  | returned (outcome : Result Entry)

/-- The put has stored the entry. -/
def PutPhase.Stored (phase : PutPhase) (entry : Entry) : Prop :=
  phase = .inserted entry ∨ phase = .returned (.ok entry)

/-- Where a close stands between its atomic steps. -/
inductive ClosePhase where
  | waiting
  | marked
  | draining (rest : List MemTable)
  | cloned (memtable : MemTable)
  | returned

/-- The close has looked at the current memtable for the last time. -/
def ClosePhase.PastClone : ClosePhase → Prop
  | .cloned _ | .returned => True
  | _ => False

/-- The machine that the tasks share, where each put stands, and where the close does. -/
structure Closing (World Table : Type) where
  machine : Machine World Table
  put : Nat → PutPhase
  close : ClosePhase

/-- What happens next: a put or the close takes its next step, or other tasks change the
world. -/
inductive Turn (World : Type) where
  | put (task : Nat)
  | close
  | elsewhere (world : World)

namespace Closing

variable (platform : Platform World Table) (calls : List (Key × Value))

/-- The entry that a write stores now: `MemTable::put` takes the time and the memtable's next
sequence number. -/
def stamped (key : Key) (value : Value) (machine : Machine World Table) : Entry where
  key
  value := some value
  timestamp := (platform.now machine.world).1.toUInt64
  sequence := machine.engine.memtable.sequenceCounter

/-- The next atomic step of the put of a task: its checks, its insertion into the current
memtable, its return. -/
def advancePut (closing : Closing World Table) (task : Nat) : Closing World Table :=
  match calls[task]? with
  | none => closing
  | some (key, value) =>
      match closing.put task with
      | .waiting =>
          let phase := match (Write.put key value).rejection closing.machine.engine with
            | some failure => .returned (.error (.error failure))
            | none => .checked
          { closing with put := Function.update closing.put task phase }
      | .checked =>
          match writeMemtable platform key (some value) closing.machine with
          | .ok _ machine =>
              { closing with
                machine
                put := Function.update closing.put task
                  (.inserted (stamped platform key value closing.machine)) }
          | .error fault machine =>
              { closing with
                machine, put := Function.update closing.put task (.returned (.error fault)) }
      | .inserted entry =>
          { closing with put := Function.update closing.put task (.returned (.ok entry)) }
      | .returned _ => closing

/-- The next atomic step of the close.  A flush error is reported and dropped, a panic
ends the close. -/
def advanceClose (closing : Closing World Table) : Closing World Table :=
  let engine := closing.machine.engine
  match closing.close with
  | .waiting =>
      if engine.closed then { closing with close := .returned }
      else
        { closing with
          machine := { closing.machine with engine := { engine with closed := true } }
          close := .marked }
  | .marked =>
      { closing with
        machine := { closing.machine with engine := engine.setImmutable [] }
        close := .draining engine.immutableMemtables }
  | .draining [] =>
      { closing with
        close := if engine.memtable.count > 0 then .cloned engine.memtable.makeImmutable
          else .returned }
  | .draining (memtable :: rest) =>
      match reportError (flushMemtable platform memtable) closing.machine with
      | .ok _ machine => { closing with machine, close := .draining rest }
      | .error _ machine => { closing with machine, close := .returned }
  | .cloned memtable =>
      { closing with
        machine := final (reportError (flushMemtable platform memtable) closing.machine)
        close := .returned }
  | .returned => closing

def step (closing : Closing World Table) : Turn World → Closing World Table
  | .put task => closing.advancePut platform calls task
  | .close => closing.advanceClose platform
  | .elsewhere world => { closing with machine := { closing.machine with world } }

/-- The flush of an immutable memtable leaves the current one alone. -/
theorem keeps_memtable_reportedFlush (memtable : MemTable) :
    Keeps (fun machine : Machine World Table => machine.engine.memtable)
      (reportError (flushMemtable platform memtable)) := by
  apply keeps_reportError
  intro machine
  rw [flushMemtable_apply]
  split
  · exact StorageEngine.memtable_install ..
  · rfl

/-- Left alone, a close that has drained the list flushes what it drained, then a clone
of the current memtable. -/
theorem run_draining (memtable : MemTable) (rest : List MemTable)
    (closing : Closing World Table) (draining : closing.close = .draining rest)
    (current : closing.machine.engine.memtable = memtable) :
    ∃ turns, Runs.run (step platform calls) closing (List.replicate turns .close) =
      { closing with
        machine := final ((do
          rest.forM fun memtable => reportError (flushMemtable platform memtable)
          if memtable.count > 0 then reportError (flushMemtable platform memtable.makeImmutable)
          else pure ()) closing.machine)
        close := .returned } := by
  induction rest generalizing closing with
  | nil =>
      have looked : closing.advanceClose platform = { closing with
          close := if memtable.count > 0 then .cloned memtable.makeImmutable else .returned } := by
        simp only [advanceClose, draining, current]
      by_cases filled : memtable.count > 0
      · refine ⟨2, ?_⟩
        simp only [List.replicate, Runs.run_cons, Runs.run_nil, step, looked, if_pos filled]
        rfl
      · refine ⟨1, ?_⟩
        simp only [List.replicate, Runs.run_cons, Runs.run_nil, step, looked, if_neg filled]
        rfl
  | cons oldest rest ih =>
      have kept := keeps_memtable_reportedFlush platform oldest closing.machine
      rw [forM_cons, bind_assoc, bind_eq]
      cases ran : reportError (flushMemtable platform oldest) closing.machine with
      | error fault machine =>
          have stopped : closing.advanceClose platform =
              { closing with machine, close := .returned } := by
            simp only [advanceClose, draining, ran]
          exact ⟨1, stopped⟩
      | ok _ machine =>
          have flushed : closing.advanceClose platform =
              { closing with machine, close := .draining rest } := by
            simp only [advanceClose, draining, ran]
          rw [ran] at kept
          obtain ⟨turns, left⟩ := ih { closing with machine, close := .draining rest } rfl
            (kept.trans current)
          refine ⟨turns + 1, ?_⟩
          rw [List.replicate_succ, Runs.run_cons, step, flushed, left]

/-- Left alone, the steps of the close make up `close`. -/
theorem run_close_alone (closing : Closing World Table) (waiting : closing.close = .waiting) :
    ∃ turns, Runs.run (step platform calls) closing (List.replicate turns .close) =
      { closing with
        machine := final (Machine.close platform closing.machine), close := .returned } := by
  rw [Machine.close, bind_eq, get_apply]
  dsimp only
  by_cases closed : closing.machine.engine.closed
  · refine ⟨1, ?_⟩
    rw [if_pos closed]
    simp only [List.replicate, Runs.run_cons, Runs.run_nil, step, advanceClose, waiting,
      if_pos closed]
    rfl
  · rw [if_neg closed]
    set drained : Closing World Table := { closing with
      machine := { closing.machine with
        engine := ({ closing.machine.engine with closed := true } :
          StorageEngine Table).setImmutable [] }
      close := .draining closing.machine.engine.immutableMemtables }
    obtain ⟨turns, left⟩ := run_draining platform calls closing.machine.engine.memtable
      closing.machine.engine.immutableMemtables drained rfl rfl
    refine ⟨turns + 2, ?_⟩
    have marking : (closing.advanceClose platform).advanceClose platform = drained := by
      simp only [advanceClose, waiting, if_neg closed]
      rfl
    simp only [List.replicate_succ, Runs.run_cons, step]
    rw [marking, left]
    rfl

/-- Left alone, the steps of a put make up `put` while the memtable has room. -/
theorem run_put_alone (closing : Closing World Table) {task : Nat} {key : Key} {value : Value}
    (called : calls[task]? = some (key, value)) (waiting : closing.put task = .waiting)
    (roomy : closing.machine.engine.memtable.shouldFlush = false) :
    ∃ stored : Result Entry,
      stored.map (fun _ => ()) = outcome (Machine.put platform key value closing.machine) ∧
      Runs.run (step platform calls) closing (List.replicate 3 (.put task)) =
        { closing with
          machine := final (Machine.put platform key value closing.machine)
          put := Function.update closing.put task (.returned stored) } := by
  have whole := Write.run_apply platform (.put key value) closing.machine
  rw [Write.run] at whole
  rw [whole]
  simp only [List.replicate, Runs.run_cons, Runs.run_nil, step]
  cases checks : (Write.put key value).rejection closing.machine.engine with
  | some failure =>
      refine ⟨.error (.error failure), rfl, ?_⟩
      simp [advancePut, called, waiting, checks]
  | none =>
      have room : checkRotateMemtable platform closing.machine = .ok () closing.machine := by
        rw [checkRotateMemtable, bind_eq, get_apply]
        simp only [roomy]
        rfl
      rw [bind_of_ok room]
      cases wrote : writeMemtable platform key (some value) closing.machine with
      | ok _ machine =>
          refine ⟨.ok (stamped platform key value closing.machine), ?_, ?_⟩
          · simp [wrote, outcome, Write.key, Write.value, Except.map]
          · simp [advancePut, called, waiting, checks, wrote, Write.key, Write.value]
      | error fault machine =>
          refine ⟨.error fault, ?_, ?_⟩
          · simp [wrote, outcome, Write.key, Write.value, Except.map]
          · simp [advancePut, called, waiting, checks, wrote, Write.key, Write.value]

/-! ## Refused or saved -/

/-- A table of level 0 was made of entries of which this is one. -/
def Saved (engine : StorageEngine Table) (entry : Entry) : Prop :=
  ∃ table ∈ engine.tables 0, ∃ entries, platform.MadeOf engine.config entries table ∧
    entry ∈ entries

/-- Every put that has returned was refused because the engine was closed, or returned
`Ok`, and the entry that it has stored of its key and value is saved once the close has
returned. -/
def RefusedOrSaved (closing : Closing World Table) : Prop :=
  ∀ task key value outcome, calls[task]? = some (key, value) →
    closing.put task = .returned outcome →
      outcome = .error (.error .closed) ∨
        ∃ entry, outcome = .ok entry ∧ entry.key = key ∧ entry.value = some value ∧
          (closing.close = .returned → Saved platform closing.machine.engine entry)

/-- The flushes of the close succeed. -/
def Succeeds (closing : Closing World Table) : Turn World → Prop
  | .close =>
      match closing.close with
      | .draining (memtable :: _) | .cloned memtable =>
          succeeded (platform.flushTable closing.machine.engine.config memtable
            closing.machine.world)
      | _ => True
  | _ => True

/-- A put that has passed its checks inserts its entry before the close has looked at the
current memtable for the last time. -/
def Timely (closing : Closing World Table) : Turn World → Prop
  | .put task =>
      match closing.put task with
      | .checked => ¬closing.close.PastClone
      | _ => True
  | _ => True

/-- No put has been made, and the close has not been called on the running engine. -/
structure Ready (closing : Closing World Table) : Prop where
  put : ∀ task, closing.put task = .waiting
  close : closing.close = .waiting
  running : closing.machine.engine.closed = false
  writable : closing.machine.engine.memtable.immutable = false

/-- An entry is where the close will find it, or where it has put it. -/
def Kept (closing : Closing World Table) (entry : Entry) : Prop :=
  match closing.close with
  | .cloned memtable => memtable.get entry.key = some entry
  | .returned => Saved platform closing.machine.engine entry
  | _ => closing.machine.engine.memtable.get entry.key = some entry

/-- What every step of a timely run keeps. -/
structure Inv (closing : Closing World Table) : Prop where
  running : closing.close = .waiting → closing.machine.engine.closed = false
  writable : closing.machine.engine.memtable.immutable = false
  refused : ∀ task fault, closing.put task = .returned (.error fault) → fault = .error .closed
  kept : ∀ task key value entry, calls[task]? = some (key, value) →
    (closing.put task).Stored entry →
      (entry.key = key ∧ entry.value = some value) ∧ closing.Kept platform entry

variable {platform calls} {closing : Closing World Table}

theorem Ready.inv (ready : closing.Ready) : closing.Inv platform calls where
  running _ := ready.running
  writable := ready.writable
  refused task fault returned := by
    rw [ready.put] at returned
    cases returned
  kept task key value entry _ stored := by
    rw [ready.put] at stored
    rcases stored with inserted | returned
    · cases inserted
    · cases returned

theorem Inv.refusedOrSaved (inv : closing.Inv platform calls) :
    closing.RefusedOrSaved platform calls := by
  intro task key value outcome called returned
  cases outcome with
  | error fault => exact .inl (congrArg Except.error (inv.refused task fault returned))
  | ok entry =>
      obtain ⟨⟨keyed, valued⟩, kept⟩ := inv.kept task key value entry called (.inr returned)
      refine .inr ⟨entry, rfl, keyed, valued, fun ended => ?_⟩
      rwa [Kept, ended] at kept

/-- A put moves on and leaves the machine alone. -/
theorem Inv.become (inv : closing.Inv platform calls) {task : Nat} {phase : PutPhase}
    (refused : ∀ fault, phase = .returned (.error fault) → fault = .error .closed)
    (stored : ∀ entry, phase.Stored entry → (closing.put task).Stored entry) :
    Inv platform calls { closing with put := Function.update closing.put task phase } where
  running := inv.running
  writable := inv.writable
  refused other fault returned := by
    by_cases same : other = task
    · subst same
      exact refused fault ((Function.update_self ..).symm.trans returned)
    · exact inv.refused other fault ((Function.update_of_ne same ..).symm.trans returned)
  kept other key value entry called held := by
    refine inv.kept other key value entry called ?_
    by_cases same : other = task
    · subst same
      exact stored entry (by simpa using held)
    · simpa [Function.update_of_ne same] using held

/-- Calls with different tasks have different keys. -/
private theorem key_ne_of_task_ne (distinct : (calls.map Prod.fst).Nodup) {task other : Nat}
    {key key' : Key} {value value' : Value} (called : calls[task]? = some (key, value))
    (called' : calls[other]? = some (key', value')) (apart : other ≠ task) : key' ≠ key := by
  intro same
  have listed : (calls.map Prod.fst)[other]? = (calls.map Prod.fst)[task]? := by
    rw [List.getElem?_map, List.getElem?_map, called, called', Option.map_some, same]
    rfl
  obtain ⟨inside, _⟩ := List.getElem?_eq_some_iff.mp called'
  exact apart ((List.getElem?_inj (by simpa using inside) distinct).mp listed)

/-- Until the close has looked for the last time, an entry is kept in the memtable. -/
theorem kept_iff (timely : ¬closing.close.PastClone) (entry : Entry) :
    closing.Kept platform entry ↔
      closing.machine.engine.memtable.get entry.key = some entry := by
  rw [Kept]
  cases phase : closing.close with
  | cloned memtable =>
      rw [phase] at timely
      exact absurd trivial timely
  | returned =>
      rw [phase] at timely
      exact absurd trivial timely
  | waiting => exact Iff.rfl
  | marked => exact Iff.rfl
  | draining rest => exact Iff.rfl

/-- A put inserts its entry in time. -/
theorem Inv.insert (inv : closing.Inv platform calls)
    (distinct : (calls.map Prod.fst).Nodup) {task : Nat} {key : Key} {value : Value}
    (called : calls[task]? = some (key, value)) (timely : ¬closing.close.PastClone) :
    ∃ machine, writeMemtable platform key (some value) closing.machine = .ok () machine ∧
      Inv platform calls { closing with
        machine
        put := Function.update closing.put task
          (.inserted (stamped platform key value closing.machine)) } := by
  have writable : ¬closing.machine.engine.memtable.immutable = true := by
    rw [inv.writable]
    exact Bool.false_ne_true
  obtain ⟨written, stored⟩ : ∃ written, closing.machine.engine.memtable.write key (some value)
      (platform.now closing.machine.world).1.toUInt64 = .ok written := ⟨_, if_neg writable⟩
  rw [writeMemtable_apply, stored]
  refine ⟨_, rfl, inv.running, ?_, ?_, ?_⟩
  · rw [(MemTable.write_eq_ok stored).2]
    exact inv.writable
  · intro other fault returned
    by_cases same : other = task
    · subst same
      cases (Function.update_self ..).symm.trans returned
    · exact inv.refused other fault ((Function.update_of_ne same ..).symm.trans returned)
  · intro other key' value' entry called' held
    rw [kept_iff (by exact timely)]
    change _ ∧ written.get entry.key = some entry
    rw [MemTable.get_write stored]
    by_cases same : other = task
    · subst same
      cases called.symm.trans called'
      obtain rfl : stamped platform key value closing.machine = entry := by
        simpa [PutPhase.Stored] using held
      exact ⟨⟨rfl, rfl⟩, if_pos rfl⟩
    · have before : (closing.put other).Stored entry := by
        simpa [Function.update_of_ne same] using held
      obtain ⟨⟨keyed, valued⟩, kept⟩ := inv.kept other key' value' entry called' before
      have apart : entry.key ≠ key := by
        rw [keyed]
        exact key_ne_of_task_ne distinct called called' same
      rw [if_neg apart]
      exact ⟨⟨keyed, valued⟩, (kept_iff timely entry).mp kept⟩

/-- Within the size limits a put is refused for one reason only. -/
theorem rejection_of_admitted {engine : StorageEngine Table} {key : Key} {value : Value}
    {failure : StorageError} (short : key.length ≤ maxKeySize)
    (small : value.length ≤ maxValueSize)
    (refused : (Write.put key value).rejection engine = some failure) : failure = .closed := by
  rw [Write.rejection] at refused
  split at refused
  · exact (Option.some.inj refused).symm
  · simp [Write.key, Write.value, Nat.not_lt_of_le short, Nat.not_lt_of_le small] at refused

/-- A step of a put. -/
theorem Inv.advancePut (inv : closing.Inv platform calls)
    (distinct : (calls.map Prod.fst).Nodup)
    (admitted : ∀ call ∈ calls, call.1.length ≤ maxKeySize ∧ call.2.length ≤ maxValueSize)
    {task : Nat} (timely : closing.Timely (.put task : Turn World)) :
    Inv platform calls (closing.advancePut platform calls task) := by
  rw [Closing.advancePut]
  cases called : calls[task]? with
  | none => exact inv
  | some call =>
      obtain ⟨key, value⟩ := call
      dsimp only
      cases phase : closing.put task with
      | waiting =>
          dsimp only
          cases checks : (Write.put key value).rejection closing.machine.engine with
          | none => exact inv.become nofun (by simp [PutPhase.Stored])
          | some failure =>
              obtain ⟨short, small⟩ := admitted _ (List.mem_of_getElem? called)
              have closed := rejection_of_admitted short small checks
              exact inv.become (by simp [closed]) (by simp [PutPhase.Stored])
      | checked =>
          rw [Timely, phase] at timely
          obtain ⟨machine, ran, next⟩ := inv.insert distinct called timely
          dsimp only
          rw [ran]
          exact next
      | inserted entry =>
          refine inv.become nofun fun other stored => ?_
          obtain rfl : entry = other := by simpa [PutPhase.Stored] using stored
          exact .inl phase
      | returned outcome => exact inv

/-- What a successful flush of the close saves. -/
theorem saved_of_flush {engine : StorageEngine Table} {memtable : MemTable} {made : Option Table}
    {world reached : World}
    (ran : platform.flushTable engine.config memtable world = .ok made reached) {entry : Entry}
    (found : memtable.get entry.key = some entry) :
    Saved platform (engine.install made) entry := by
  have filled : memtable.count ≠ 0 := by
    intro empty
    rw [MemTable.get_of_count_eq_zero empty] at found
    cases found
  rw [Platform.flushTable, if_neg filled] at ran
  obtain ⟨micros, middle, _, ran⟩ := bind_eq_ok.mp ran
  obtain ⟨reader, after, built, returned⟩ := bind_eq_ok.mp ran
  cases returned
  refine ⟨reader, ?_, memtable.entryList, ⟨_, _, _, built⟩, MemTable.mem_entryList.mpr found⟩
  rw [StorageEngine.install, StorageEngine.pushLevel0, StorageEngine.tables_setLevel_self]
  exact List.mem_append_right _ (List.mem_singleton_self reader)

/-- A step that leaves the puts where they are. -/
theorem Inv.of_put_eq (inv : closing.Inv platform calls) {after : Closing World Table}
    (put : after.put = closing.put)
    (running : after.close = .waiting → after.machine.engine.closed = false)
    (writable : after.machine.engine.memtable.immutable = false)
    (kept : ∀ entry, closing.Kept platform entry → after.Kept platform entry) :
    Inv platform calls after where
  running := running
  writable := writable
  refused := by
    rw [put]
    exact inv.refused
  kept task key value entry called stored := by
    rw [put] at stored
    obtain ⟨own, before⟩ := inv.kept task key value entry called stored
    exact ⟨own, kept entry before⟩

/-- A successful flush changes the tables only. -/
theorem reportError_flushMemtable {memtable : MemTable} {machine : Machine World Table}
    {made : Option Table} {world : World}
    (ran : platform.flushTable machine.engine.config memtable machine.world =
      .ok made world) :
    reportError (flushMemtable platform memtable) machine =
      .ok () { engine := machine.engine.install made, world } := by
  rw [reportError, flushMemtable_apply, ran]

/-- A step of the close that has flushed a table and goes on to a phase. -/
theorem Inv.of_flushed (inv : closing.Inv platform calls) (made : Option Table) (world : World)
    {phase : ClosePhase} (ahead : phase ≠ .waiting)
    (kept : ∀ entry, closing.Kept platform entry →
      Kept platform
        { closing with
          machine := { engine := closing.machine.engine.install made, world }
          close := phase } entry) :
    Inv platform calls
      { closing with
        machine := { engine := closing.machine.engine.install made, world }
        close := phase } := by
  have same := StorageEngine.memtable_install closing.machine.engine made
  refine inv.of_put_eq rfl (fun waiting => absurd waiting ahead) ?_ kept
  exact (congrArg MemTable.immutable same).trans inv.writable

/-- A step of the close. -/
theorem Inv.advanceClose (inv : closing.Inv platform calls)
    (succeeds : closing.Succeeds platform (.close : Turn World)) :
    Inv platform calls (closing.advanceClose platform) := by
  rw [Closing.advanceClose]
  rw [Succeeds] at succeeds
  cases phase : closing.close with
  | waiting =>
      have running : ¬closing.machine.engine.closed = true := by
        rw [inv.running phase]
        exact Bool.false_ne_true
      dsimp only
      rw [if_neg running]
      refine inv.of_put_eq rfl nofun inv.writable fun entry kept => ?_
      rwa [Kept, phase] at kept
  | marked =>
      refine inv.of_put_eq rfl nofun inv.writable fun entry kept => ?_
      rwa [Kept, phase] at kept
  | draining rest =>
      cases rest with
      | nil =>
          dsimp only
          by_cases filled : closing.machine.engine.memtable.count > 0
          · rw [if_pos filled]
            refine inv.of_put_eq rfl nofun inv.writable fun entry kept => ?_
            rwa [Kept, phase] at kept
          · rw [if_neg filled]
            refine inv.of_put_eq rfl nofun inv.writable fun entry kept => ?_
            rw [Kept, phase] at kept
            have empty := Nat.eq_zero_of_not_pos filled
            rw [MemTable.get_of_count_eq_zero empty] at kept
            cases kept
      | cons memtable rest =>
          rw [phase] at succeeds
          obtain ⟨made, ran⟩ := exists_ok_of_succeeded succeeds
          dsimp only
          rw [reportError_flushMemtable ran]
          have same := StorageEngine.memtable_install closing.machine.engine made
          have ahead : ClosePhase.draining rest ≠ .waiting := nofun
          apply inv.of_flushed made _ ahead
          intro entry kept
          rw [Kept, phase] at kept
          exact (congrArg (fun memtable => memtable.get entry.key) same).trans kept
  | cloned memtable =>
      rw [phase] at succeeds
      obtain ⟨made, ran⟩ := exists_ok_of_succeeded succeeds
      dsimp only
      rw [reportError_flushMemtable ran]
      have ahead : ClosePhase.returned ≠ .waiting := nofun
      apply inv.of_flushed made _ ahead
      intro entry kept
      rw [Kept, phase] at kept
      exact saved_of_flush ran kept
  | returned => exact inv

/-- A step of a timely run whose flushes succeed. -/
theorem Inv.step (inv : closing.Inv platform calls) (distinct : (calls.map Prod.fst).Nodup)
    (admitted : ∀ call ∈ calls, call.1.length ≤ maxKeySize ∧ call.2.length ≤ maxValueSize)
    {turn : Turn World} (succeeds : closing.Succeeds platform turn)
    (timely : closing.Timely turn) : Inv platform calls (closing.step platform calls turn) := by
  cases turn with
  | put task => exact inv.advancePut distinct admitted timely
  | close => exact inv.advanceClose succeeds
  | elsewhere world =>
      refine inv.of_put_eq rfl inv.running inv.writable fun entry kept => ?_
      rw [Kept] at kept ⊢
      exact kept

/-- In every interleaving of puts of different keys with a close, each put that returns is
refused, or returns `Ok` and is saved by the time the close returns, as long as no put
inserts its entry after the close has looked at the memtable for the last time. -/
theorem racing_puts_refused_or_saved (distinct : (calls.map Prod.fst).Nodup)
    (admitted : ∀ call ∈ calls, call.1.length ≤ maxKeySize ∧ call.2.length ≤ maxValueSize)
    (ready : closing.Ready) (turns : List (Turn World))
    (succeed : Runs.Guarded (Succeeds platform) (step platform calls) closing turns)
    (timely : Runs.Guarded Timely (step platform calls) closing turns) :
    Runs.Throughout (RefusedOrSaved platform calls) (step platform calls) closing turns :=
  (succeed.and timely).throughout (fun _ inv => inv.refusedOrSaved)
    (fun _ _ inv guards => inv.step distinct admitted guards.1 guards.2) ready.inv

/-- One put, and a close of a new engine. -/
private def onePut : List (Key × Value) :=
  [([1], [10])]

private def newEngine : Closing MemoryWorld MemoryTable where
  machine := MemoryWorld.start []
  put _ := .waiting
  close := .waiting

/-- The put inserts its entry between its check and the look of the close. -/
private def insertedInTime : List (Turn MemoryWorld) :=
  [.put 0, .close, .put 0, .close, .close, .close, .put 0]

private theorem newEngine_ready : newEngine.Ready :=
  ⟨fun _ => rfl, rfl, rfl, rfl⟩

private theorem onePut_distinct : (onePut.map Prod.fst).Nodup := by
  decide

private theorem onePut_admitted :
    ∀ call ∈ onePut, call.1.length ≤ maxKeySize ∧ call.2.length ≤ maxValueSize := by
  decide

private theorem onePut_flushed :
    succeeded (MemoryWorld.platform.flushTable MemoryWorld.smallConfig
      (Runs.run (step MemoryWorld.platform onePut) newEngine
        (insertedInTime.take 3)).machine.engine.memtable.makeImmutable
      { files := [], clock := 1, failures := [] }) = true := by
  decide +kernel

theorem racing_puts_refused_or_saved_insertedInTime :
    Runs.Throughout (RefusedOrSaved MemoryWorld.platform onePut)
      (step MemoryWorld.platform onePut) newEngine insertedInTime :=
  racing_puts_refused_or_saved onePut_distinct onePut_admitted newEngine_ready insertedInTime
    ⟨trivial, trivial, trivial, trivial, trivial, onePut_flushed, trivial, trivial⟩
    ⟨trivial, trivial, not_false, trivial, trivial, trivial, trivial, trivial⟩

/-- The put has passed its check when the close begins, and inserts its entry into the
memtable that the close has found empty. -/
private def insertedTooLate : List (Turn MemoryWorld) :=
  [.put 0, .close, .close, .close, .put 0, .put 0]

/-- A put returns `Ok` after the close has returned, and its entry is in no table. -/
theorem acknowledged_put_not_saved :
    (onePut.map Prod.fst).Nodup ∧
      (∀ call ∈ onePut, call.1.length ≤ maxKeySize ∧ call.2.length ≤ maxValueSize) ∧
      newEngine.Ready ∧
      Runs.Guarded (Succeeds MemoryWorld.platform) (step MemoryWorld.platform onePut) newEngine
        insertedTooLate ∧
      ¬Runs.Throughout (RefusedOrSaved MemoryWorld.platform onePut)
        (step MemoryWorld.platform onePut) newEngine insertedTooLate := by
  refine ⟨onePut_distinct, onePut_admitted, newEngine_ready,
    ⟨trivial, trivial, trivial, trivial, trivial, trivial, trivial⟩, fun saved => ?_⟩
  have returned := saved.finally 0 [1] [10] (.ok _) rfl rfl
  rcases returned with refused | ⟨entry, -, -, -, kept⟩
  · cases refused
  · obtain ⟨table, member, _⟩ := kept rfl
    cases member

end Closing

end JustDb

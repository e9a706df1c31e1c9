import JustDb.Cli.Lines
import JustDb.Storage.Levels
import JustDb.Storage.Provenance
import JustDb.Storage.Statistics

/-!
# The interactive mode

`run_intractive_mode` reads a line, makes at most one call of the engine for it, prints what
comes back and reads on.  An error of the engine is printed and the session goes on; a
panic, a line that cannot be read and `QUIT` end it.  At the end of the input `read_line`
gives empty lines for ever.
-/

namespace JustDb

open Stateful Machine

variable {World Table : Type}

namespace Cli

/-- What `print_stats` shows: of the levels, those below seven. -/
structure Figures where
  sequenceNumber : SequenceNumber
  isClosed : Bool
  entryCount : Nat
  approximateSize : Nat
  isImmutable : Bool
  immutableMemtableCount : Nat
  levels : List (Nat × LevelStats)
  deriving DecidableEq, Repr

def printStats (stats : StorageStats) : Result Figures := do
  let levels ← (List.range 7).foldlM (fun shown level =>
    match stats.sstableStats level with
    | none => .ok shown
    | some found => do
        let levelStats ← found
        .ok (shown ++ [(level, levelStats)])) []
  .ok {
    sequenceNumber := stats.sequenceNumber
    isClosed := stats.isClosed
    entryCount := stats.memtableStats.entryCount
    approximateSize := stats.memtableStats.approximateSize
    isImmutable := stats.memtableStats.isImmutable
    immutableMemtableCount := stats.immutableMemtableCount
    levels }

/-- What is printed for a line. -/
inductive Reply where
  | silent
  /-- `OK` -/
  | ok
  /-- `(nil)` -/
  | nil
  | text (value : String)
  /-- `(dataaaa)` -/
  | notText
  /-- the bytes in the notation of `{:?}` -/
  | debug (value : Value)
  /-- one line for each pair, malformed text replaced -/
  | pairs (results : List (Key × Value))
  | stats (figures : Figures)
  | failed (failure : StorageError)
  | usage (verb : Verb)
  | unknown (word : String)
  /-- `Goodbye!` -/
  | goodbye
  deriving DecidableEq, Repr

/-- How a value that was found is shown: as text if it is, else in one of two ways. -/
def Reply.ofFound (notText : Value → Reply) : Option Value → Reply
  | some value =>
      match fromUtf8 value with
      | some shown => .text shown
      | none => notText value
  | none => .nil

/-- A call that reads the engine only. -/
def reading (read : StorageEngine Table → Result Reply) : Action World Table Reply := do
  let machine ← get
  lift (read machine.engine)

/-- The call that a line makes, with what is printed when it returns `Ok`. -/
def call (platform : Platform World Table) (notText : Value → Reply) :
    Line → Action World Table Reply
  | .blank => pure .silent
  | .put key value => do
      Machine.put platform key value
      pure .ok
  | .get key => reading fun engine => do
      let found ← engine.get platform.toTableOps key
      .ok (.ofFound notText found)
  | .delete key => do
      Machine.delete platform key
      pure .ok
  | .scan start stop => reading fun engine => do
      let results ← engine.scan platform.toTableOps start stop
      .ok (.pairs results)
  | .stats => reading fun engine => do
      let figures ← printStats (engine.stats platform.toTableOps)
      .ok (.stats figures)
  | .quit => pure .goodbye
  | .usage verb => pure (.usage verb)
  | .unknown word => pure (.unknown word)

/-- `Err(e) => eprintln!("Error: {e}")` -/
def printError (action : Action World Table Reply) : Action World Table Reply := fun machine =>
  match action machine with
  | .error (.error failure) reached => .ok (.failed failure) reached
  | result => result

/-- The answer to a line. -/
def respond (platform : Platform World Table) (line : Line) : Action World Table Reply :=
  printError (call platform (fun _ => .notText) line)

/-- How a session comes to an end. -/
inductive Ending where
  | goodbye
  | aborted
  | panicked
  deriving DecidableEq, Repr

/-- What happens to a session: a line comes in, the prompt cannot be written or a line cannot
be read, or the background task takes a turn. -/
inductive Input where
  | line (text : String)
  | broken
  | background
  deriving DecidableEq, Repr

/-- A session with the lines that have been answered. -/
structure Session (World Table : Type) where
  machine : Machine World Table
  transcript : List (Line × Reply)
  ending : Option Ending

namespace Session

def start (machine : Machine World Table) : Session World Table where
  machine
  transcript := []
  ending := none

/-- One turn of the loop. -/
def answer (platform : Platform World Table) (session : Session World Table) (line : Line) :
    Session World Table :=
  match respond platform line session.machine with
  | .ok reply machine =>
      { machine
        transcript := session.transcript ++ [(line, reply)]
        ending := if line = .quit then some .goodbye else none }
  | .error _ machine => { session with machine, ending := some .panicked }

/-- What an input does to a session that goes on. -/
def hear (platform : Platform World Table) (session : Session World Table) :
    Input → Session World Table
  | .line text => session.answer platform (.ofText text)
  | .broken => { session with ending := some .aborted }
  | .background =>
      { session with machine := final (backgroundCompaction platform session.machine) }

/-- Nothing happens to a session that has ended. -/
def step (platform : Platform World Table) (session : Session World Table) (input : Input) :
    Session World Table :=
  if session.ending.isSome then session else session.hear platform input

/-- A session over some inputs. -/
def run (platform : Platform World Table) : Session World Table → List Input →
    Session World Table :=
  Runs.run (step platform)

end Session

/-! ## What a line does to the engine -/

/-- The write that a line asks for. -/
def Line.write? : Line → Option Write
  | .put key value => some (.put key value)
  | .delete key => some (.delete key)
  | .blank | .get _ | .scan _ _ | .stats | .quit | .usage _ | .unknown _ => none

/-- The call of a line that asks for a write. -/
theorem call_of_write (platform : Platform World Table) (notText : Value → Reply) {line : Line}
    {write : Write} (asks : line.write? = some write) :
    call platform notText line = (do write.run platform; pure .ok) := by
  cases line with
  | put key value =>
      cases asks
      rfl
  | delete key =>
      cases asks
      rfl
  | _ => cases asks

/-- The call of any other line only reads. -/
theorem call_of_read (platform : Platform World Table) (notText : Value → Reply) {line : Line}
    (reads : line.write? = none) :
    ∃ read : StorageEngine Table → Result Reply, call platform notText line = reading read := by
  cases line with
  | put key value => cases reads
  | delete key => cases reads
  | get key =>
      rw [call]
      exact ⟨_, rfl⟩
  | scan start stop =>
      rw [call]
      exact ⟨_, rfl⟩
  | stats =>
      rw [call]
      exact ⟨_, rfl⟩
  | blank => exact ⟨fun _ => .ok .silent, rfl⟩
  | quit => exact ⟨fun _ => .ok .goodbye, rfl⟩
  | usage verb => exact ⟨fun _ => .ok (.usage verb), rfl⟩
  | unknown word => exact ⟨fun _ => .ok (.unknown word), rfl⟩

/-- A read leaves the machine as it was. -/
theorem reading_apply (read : StorageEngine Table → Result Reply)
    (machine : Machine World Table) :
    reading read machine =
      match read machine.engine with
      | .ok reply => .ok reply machine
      | .error fault => .error fault machine := by
  rw [reading, bind_of_ok (get_apply machine)]
  cases read machine.engine <;> rfl

/-- A line that asks for a write, as it is answered. -/
theorem respond_of_write (platform : Platform World Table) {line : Line} {write : Write}
    (asks : line.write? = some write) (machine : Machine World Table) :
    respond platform line machine =
      match write.run platform machine with
      | .ok _ reached => .ok .ok reached
      | .error (.error failure) reached => .ok (.failed failure) reached
      | .error .panic reached => .error .panic reached := by
  rw [respond, call_of_write platform _ asks, printError, bind_eq]
  cases write.run platform machine with
  | ok _ reached => rfl
  | error fault reached => cases fault <;> rfl

/-- A line that asks for no write, as it is answered: the machine stays as it was. -/
theorem respond_of_read (platform : Platform World Table) {line : Line}
    (reads : line.write? = none) (machine : Machine World Table) :
    (∃ reply, respond platform line machine = .ok reply machine) ∨
      respond platform line machine = .error .panic machine := by
  obtain ⟨read, same⟩ := call_of_read platform (fun _ => .notText) reads
  rw [respond, same, printError, reading_apply]
  cases read machine.engine with
  | ok reply => exact .inl ⟨reply, rfl⟩
  | error fault =>
      cases fault with
      | error failure => exact .inl ⟨_, rfl⟩
      | panic => exact .inr rfl

/-- What a line does to the engine. -/
def Line.deeds (line : Line) : List Deed :=
  line.write?.toList.map .write

/-- Whatever is answered, an engine is left as the write of the line leaves it. -/
theorem final_respond (platform : Platform World Table) (line : Line)
    (machine : Machine World Table) :
    final (respond platform line machine) =
      Runs.run (Deed.perform platform) machine line.deeds := by
  cases asks : line.write? with
  | none =>
      have same : final (respond platform line machine) = machine := by
        rcases respond_of_read platform asks machine with ⟨reply, answered⟩ | panicked
        · rw [answered]
          rfl
        · rw [panicked]
          rfl
      rw [same, Line.deeds, asks]
      rfl
  | some write =>
      have wrote : Runs.run (Deed.perform platform) machine line.deeds =
          final (write.run platform machine) := by
        rw [Line.deeds, asks]
        rfl
      rw [wrote, respond_of_write platform asks]
      cases write.run platform machine with
      | ok _ reached => rfl
      | error fault reached => cases fault <;> rfl

namespace Input

/-- What an input does to the engine. -/
def deeds : Input → List Deed
  | .line text => (Line.ofText text).deeds
  | .broken => []
  | .background => [.background]

/-- The line that is read. -/
def asked : Input → Option Line
  | .line text => some (.ofText text)
  | .broken | .background => none

/-- How an input ends a session, unless answering it panics. -/
def ends : Input → Option Ending
  | .line text => if Line.ofText text = .quit then some .goodbye else none
  | .broken => some .aborted
  | .background => none

end Input

namespace Session

variable {platform : Platform World Table}

/-- Nothing that comes in after the end is heard. -/
theorem run_of_ended {session : Session World Table} (ended : session.ending.isSome)
    (inputs : List Input) : session.run platform inputs = session := by
  induction inputs with
  | nil => rfl
  | cons input inputs ih =>
      rw [run, Runs.run_cons, step, if_pos ended]
      exact ih

theorem step_of_live {session : Session World Table} (live : session.ending = none)
    (input : Input) : session.step platform input = session.hear platform input := by
  rw [step, live]
  rfl

theorem run_cons_of_live {session : Session World Table} (live : session.ending = none)
    (input : Input) (inputs : List Input) :
    session.run platform (input :: inputs) =
      (session.hear platform input).run platform inputs := by
  rw [← step_of_live live]
  rfl

/-- What one input does to a session that goes on. -/
theorem hear_spec (session : Session World Table) (live : session.ending = none) (input : Input) :
    (session.hear platform input).machine =
        Runs.run (Deed.perform platform) session.machine input.deeds ∧
      ((session.hear platform input).ending = some .panicked ∨
        (session.hear platform input).ending = input.ends ∧
        (session.hear platform input).transcript.map Prod.fst =
          session.transcript.map Prod.fst ++ input.asked.toList) := by
  cases input with
  | broken => exact ⟨rfl, .inr ⟨rfl, by simp [hear, Input.asked]⟩⟩
  | background => exact ⟨rfl, .inr ⟨live, by simp [hear, Input.asked]⟩⟩
  | line text =>
      rw [hear, answer]
      have left := final_respond platform (.ofText text) session.machine
      cases answered : respond platform (.ofText text) session.machine with
      | ok reply machine =>
          rw [answered] at left
          exact ⟨left, .inr ⟨rfl, by simp [Input.asked]⟩⟩
      | error fault machine =>
          rw [answered] at left
          exact ⟨left, .inl rfl⟩

/-- What a session has heard, and what it has made of it. -/
structure Heard (platform : Platform World Table) (session : Session World Table)
    (heard unheard : List Input) (reached : Session World Table) : Prop where
  machine : reached.machine =
    Runs.run (Deed.perform platform) session.machine (heard.flatMap Input.deeds)
  going : ∀ input ∈ heard.dropLast, input.ends = none
  answered : reached.ending ≠ some .panicked →
    reached.transcript.map Prod.fst =
        session.transcript.map Prod.fst ++ heard.filterMap Input.asked ∧
      reached.ending = heard.getLast?.bind Input.ends
  all : reached.ending = none → unheard = []

/-- A session makes the writes that its lines ask for, up to its end, and changes nothing
else: lines that are blank, malformed, unknown or only read leave the engine as it was.  It
answers every line, and goes on until a line says `QUIT`, a line cannot be read, or a call
panics; the end of the input is none of these. -/
theorem run_heard (platform : Platform World Table) {session : Session World Table}
    (live : session.ending = none) (inputs : List Input) :
    ∃ heard unheard, inputs = heard ++ unheard ∧
      Heard platform session heard unheard (session.run platform inputs) := by
  induction inputs generalizing session with
  | nil =>
      refine ⟨[], [], rfl, rfl, nofun, fun _ => ⟨?_, live⟩, fun _ => rfl⟩
      exact (List.append_nil _).symm
  | cons input inputs ih =>
      obtain ⟨machine, after⟩ := @hear_spec _ _ platform session live input
      have first := @run_cons_of_live _ _ platform session live input inputs
      cases ended : (session.hear platform input).ending with
      | none =>
          obtain ⟨quiet, lines⟩ := after.resolve_left (by simp [ended])
          obtain ⟨heard, unheard, rfl, rest⟩ := ih ended
          refine ⟨input :: heard, unheard, rfl, ?_, ?_, ?_, ?_⟩
          · rw [first, rest.machine, machine, List.flatMap_cons, Runs.run_append]
          · intro other among
            cases heard with
            | nil => cases among
            | cons next heard =>
                rw [List.dropLast_cons_cons] at among
                rcases List.mem_cons.mp among with rfl | later
                · rw [← quiet, ended]
                · exact rest.going other later
          · intro sane
            rw [first] at sane ⊢
            obtain ⟨answered, ending⟩ := rest.answered sane
            refine ⟨?_, ?_⟩
            · rw [answered, lines, List.append_assoc]
              cases asks : input.asked <;> simp [asks]
            · cases heard with
              | nil =>
                  rw [ending]
                  exact ended.symm.trans quiet
              | cons next heard => rw [ending, List.getLast?_cons_cons]
          · rw [first]
            exact rest.all
      | some ending =>
          have stays : session.run platform (input :: inputs) = session.hear platform input :=
            first.trans (run_of_ended (by simp [ended]) inputs)
          refine ⟨[input], inputs, rfl, ?_, nofun, ?_, ?_⟩
          · rw [stays, machine]
            simp
          · intro sane
            rw [stays] at sane ⊢
            obtain ⟨quiet, lines⟩ := after.resolve_left sane
            refine ⟨?_, quiet⟩
            rw [lines]
            cases asks : input.asked <;> simp [asks]
          · intro going
            rw [stays, ended] at going
            cases going

/-- Lines of all kinds, with a rotation and a flush at each write but the first two. -/
def conversation : List Input :=
  [.line "PUT a 1", .background, .line "get a", .line "", .line "put  b\t2", .line "hello",
    .line "DELETE a", .line "GET a", .line "get", .line "Get b", .line "Exit", .line "GET b"]

example :
    ((start (MemoryWorld.start [])).run MemoryWorld.platform conversation).transcript.map Prod.snd =
    [.ok, .text "1", .silent, .ok, .unknown "hello", .ok, .nil, .usage .get, .text "2",
      .goodbye] := by
  decide +kernel

theorem run_heard_conversation :
    ∃ heard unheard, conversation = heard ++ unheard ∧
      Heard MemoryWorld.platform (start (MemoryWorld.start [])) heard unheard
        ((start (MemoryWorld.start [])).run MemoryWorld.platform conversation) :=
  run_heard MemoryWorld.platform rfl conversation

end Session

end Cli

/-! ## Sessions and key-value maps -/

/-- The check of its sizes that a write fails. -/
def Write.oversize (write : Write) : Option StorageError :=
  if write.key.length > maxKeySize then
    some (.invalidKeySize write.key.length maxKeySize)
  else
    match write.value with
    | some value =>
        if value.length > maxValueSize then
          some (.invalidValueSize value.length maxValueSize)
        else none
    | none => none

/-- An engine that runs checks sizes only. -/
theorem Write.rejection_of_running {engine : StorageEngine Table}
    (running : engine.closed = false) (write : Write) :
    write.rejection engine = write.oversize := by
  rw [rejection, if_neg (by simp [running])]
  rfl

namespace Cli

/-- A key-value map after a line. -/
def Line.update (held : Key → Option Value) (line : Line) : Key → Option Value :=
  match line.write? with
  | some write =>
      if write.oversize = none then Function.update held write.key write.value else held
  | none => held

/-- The answer of a key-value map to a line; scans and statistics are left open. -/
def Answers (held : Key → Option Value) (line : Line) (reply : Reply) : Prop :=
  match line with
  | .blank => reply = .silent
  | .put key value => reply = ((Write.put key value).oversize.elim .ok .failed)
  | .get key => reply = .ofFound (fun _ => .notText) (held key)
  | .delete key => reply = ((Write.delete key).oversize.elim .ok .failed)
  | .scan _ _ | .stats => True
  | .quit => reply = .goodbye
  | .usage verb => reply = .usage verb
  | .unknown word => reply = .unknown word

/-- A transcript that a key-value map could have given. -/
def Fits : (Key → Option Value) → List (Line × Reply) → Prop
  | _, [] => True
  | held, (line, reply) :: rest => Answers held line reply ∧ Fits (line.update held) rest

/-- Every write of a proper size has been answered with `OK`. -/
def Served (transcript : List (Line × Reply)) : Prop :=
  ∀ exchange ∈ transcript, ∀ write ∈ exchange.1.write?, write.oversize = none →
    exchange.2 = .ok

instance (transcript : List (Line × Reply)) : Decidable (Served transcript) :=
  inferInstanceAs (Decidable (∀ exchange ∈ transcript, _))

theorem Served.mono {transcript part : List (Line × Reply)} (served : Served transcript)
    (within : part ⊆ transcript) : Served part :=
  fun exchange member => served exchange (within member)

/-- A running engine whose reads are those of a map. -/
structure Reads (ops : TableOps Table) (engine : StorageEngine Table)
    (held : Key → Option Value) : Prop where
  leveled : 0 < engine.config.maxLevels
  get : ∀ key, engine.get ops key = .ok (held key)

theorem Reads.running {ops : TableOps Table} {engine : StorageEngine Table}
    {held : Key → Option Value} (reads : Reads ops engine held) : engine.closed = false := by
  have found := reads.get []
  rw [StorageEngine.get] at found
  split at found
  · cases found
  next running => simpa using running

namespace Session

variable {platform : Platform World Table}

/-- A read is answered from the map, and a session in which it panics ends. -/
theorem respond_read_fits {machine : Machine World Table} {held : Key → Option Value}
    (reads : Reads platform.toTableOps machine.engine held) {line : Line}
    (asks : line.write? = none) {reply : Reply} {reached : Machine World Table}
    (answered : respond platform line machine = .ok reply reached) :
    Answers held line reply ∧ reached = machine := by
  have same : reached = machine := by
    rcases respond_of_read platform asks machine with ⟨other, known⟩ | panicked
    · cases known.symm.trans answered
      rfl
    · cases panicked.symm.trans answered
  refine ⟨?_, same⟩
  cases line with
  | put key value => cases asks
  | delete key => cases asks
  | get key =>
      have shown : respond platform (.get key) machine =
          .ok (.ofFound (fun _ => .notText) (held key)) machine := by
        rw [respond, printError, call, reading, bind_of_ok (get_apply machine), reads.get]
        rfl
      cases shown.symm.trans answered
      rfl
  | scan start stop => trivial
  | stats => trivial
  | blank =>
      cases answered
      rfl
  | quit =>
      cases answered
      rfl
  | usage verb =>
      cases answered
      rfl
  | unknown word =>
      cases answered
      rfl

theorem answers_of_write (held : Key → Option Value) {line : Line} {write : Write}
    (asks : line.write? = some write) (reply : Reply) :
    Answers held line reply ↔ reply = write.oversize.elim .ok .failed := by
  cases line with
  | put key value =>
      cases asks
      rfl
  | delete key =>
      cases asks
      rfl
  | _ => cases asks

/-- A write that is served is answered as a map would answer it, and changes the reads as it
would. -/
theorem respond_write_fits (faithful : platform.Faithful) {machine : Machine World Table}
    {held : Key → Option Value} (reads : Reads platform.toTableOps machine.engine held)
    {line : Line} {write : Write} (asks : line.write? = some write) {reply : Reply}
    {reached : Machine World Table}
    (answered : respond platform line machine = .ok reply reached)
    (served : write.oversize = none → reply = .ok) :
    Answers held line reply ∧
      Reads platform.toTableOps reached.engine (line.update held) := by
  rw [answers_of_write held asks]
  have checks := Write.rejection_of_running reads.running write
  rw [respond_of_write platform asks] at answered
  cases ran : write.run platform machine with
  | ok _ after =>
      rw [ran] at answered
      cases answered
      have fits : write.oversize = none := by
        rw [Write.run_apply, checks] at ran
        cases small : write.oversize with
        | none => rfl
        | some failure =>
            rw [small] at ran
            cases ran
      obtain ⟨config, updated⟩ := Write.get_run faithful reads.leveled ran
      have unchanged : machine.engine.get platform.toTableOps = fun key => .ok (held key) :=
        funext reads.get
      refine ⟨by rw [fits]; rfl, by rw [config]; exact reads.leveled, fun key => ?_⟩
      rw [updated, unchanged, Line.update, asks]
      simp only [fits, if_true, Function.update_apply]
      split <;> rfl
  | error fault after =>
      rw [ran] at answered
      cases fault with
      | panic => cases answered
      | error failure =>
          cases answered
          rw [Write.run_apply, checks] at ran
          cases small : write.oversize with
          | none => cases served small
          | some other =>
              rw [small] at ran
              cases ran
              refine ⟨rfl, ?_⟩
              rw [Line.update, asks]
              simpa only [small, reduceCtorEq, if_false] using reads

/-- A line is answered as a map would answer it, and changes the reads as it would. -/
theorem answer_fits (faithful : platform.Faithful) {session : Session World Table}
    {held : Key → Option Value} (reads : Reads platform.toTableOps session.machine.engine held)
    (line : Line) :
    ((session.answer platform line).ending = some .panicked ∧
        (session.answer platform line).transcript = session.transcript) ∨
      ∃ reply, (session.answer platform line).transcript = session.transcript ++ [(line, reply)] ∧
        (Served [(line, reply)] → Answers held line reply ∧
          Reads platform.toTableOps (session.answer platform line).machine.engine
            (line.update held)) := by
  rw [answer]
  cases answered : respond platform line session.machine with
  | error fault machine => exact .inl ⟨rfl, rfl⟩
  | ok reply machine =>
      refine .inr ⟨reply, rfl, fun served => ?_⟩
      cases asks : line.write? with
      | none =>
          obtain ⟨answers, rfl⟩ := respond_read_fits reads asks answered
          rw [Line.update, asks]
          exact ⟨answers, reads⟩
      | some write =>
          exact respond_write_fits faithful reads asks answered
            (served (line, reply) (List.mem_singleton_self _) write asks)

/-- Until the session ends, the background task finds nothing to compact. -/
def Settled (platform : Platform World Table) (session : Session World Table)
    (inputs : List Input) : Prop :=
  Runs.Guarded (fun (reached : Session World Table) input =>
      input = .background → reached.ending = none →
        reached.machine.engine.Settled platform.toTableOps)
    (step platform) session inputs

/-- What has been printed stays printed. -/
theorem run_extends (platform : Platform World Table) (session : Session World Table)
    (inputs : List Input) : session.transcript <+: (session.run platform inputs).transcript := by
  induction inputs generalizing session with
  | nil => exact List.prefix_rfl
  | cons input inputs ih =>
      refine List.IsPrefix.trans ?_ (ih (session.step platform input))
      rw [step]
      split
      · exact List.prefix_rfl
      cases input with
      | broken => exact List.prefix_rfl
      | background => exact List.prefix_rfl
      | line text =>
          rw [hear, answer]
          split
          · exact List.prefix_append _ _
          · exact List.prefix_rfl

/-- The lines that a session goes on to answer. -/
theorem run_fits (faithful : platform.Faithful) {session : Session World Table}
    (live : session.ending = none) {held : Key → Option Value}
    (reads : Reads platform.toTableOps session.machine.engine held) {inputs : List Input}
    (settled : Settled platform session inputs)
    (served : Served (session.run platform inputs).transcript) :
    ∃ given, (session.run platform inputs).transcript = session.transcript ++ given ∧
      Fits held given ∧ ((session.run platform inputs).ending ≠ some .panicked →
        Reads platform.toTableOps (session.run platform inputs).machine.engine
          ((given.map Prod.fst).foldl Line.update held)) := by
  induction inputs generalizing session held with
  | nil => exact ⟨[], (List.append_nil _).symm, trivial, fun _ => reads⟩
  | cons input inputs ih =>
      obtain ⟨idle, later⟩ := settled
      rw [step_of_live live] at later
      rw [run_cons_of_live live] at served ⊢
      cases input with
      | broken =>
          rw [hear, run_of_ended rfl]
          exact ⟨[], (List.append_nil _).symm, trivial, fun _ => reads⟩
      | background =>
          have same : session.hear platform .background = session := by
            rw [hear, backgroundCompaction_of_settled (idle rfl live)]
            rfl
          rw [same] at later served ⊢
          exact ih live reads later served
      | line text =>
          rw [hear] at later served ⊢
          rcases answer_fits faithful reads (.ofText text) with
            ⟨panicked, unchanged⟩ | ⟨reply, recorded, answers⟩
          · rw [run_of_ended (by simp [panicked])]
            exact ⟨[], unchanged.trans (List.append_nil _).symm, trivial,
              fun sane => absurd panicked sane⟩
          · have kept := (run_extends platform (session.answer platform (.ofText text))
              inputs).subset
            have own : Served [(Line.ofText text, reply)] :=
              served.mono fun exchange member =>
                kept (recorded ▸ List.mem_append_right session.transcript member)
            obtain ⟨fits, updated⟩ := answers own
            cases ended : (session.answer platform (.ofText text)).ending with
            | some ending =>
                rw [run_of_ended (by simp [ended])]
                exact ⟨[(.ofText text, reply)], recorded, ⟨fits, trivial⟩, fun _ => updated⟩
            | none =>
                obtain ⟨given, rest, fitting, after⟩ := ih ended updated later served
                refine ⟨(.ofText text, reply) :: given, ?_, ⟨fits, fitting⟩, after⟩
                rw [rest, recorded, List.append_assoc]
                rfl

/-- A session that is served answers `GET`, `PUT` and `DELETE` lines like a key-value map,
through whatever rotations and flushes its writes make, and leaves the reads of that map. -/
theorem run_refines_map (faithful : platform.Faithful) {machine : Machine World Table}
    (valid : machine.engine.config.validate = .ok ()) {held : Key → Option Value}
    (reads : ∀ key, machine.engine.get platform.toTableOps key = .ok (held key))
    {inputs : List Input} (settled : Settled platform (start machine) inputs)
    (served : Served ((start machine).run platform inputs).transcript) :
    let reached := (start machine).run platform inputs
    Fits held reached.transcript ∧
      (reached.ending ≠ some .panicked →
        ∀ key, reached.machine.engine.get platform.toTableOps key =
          .ok ((reached.transcript.map Prod.fst).foldl Line.update held key)) := by
  have live : (start machine).ending = none := rfl
  obtain ⟨given, recorded, fitting, after⟩ := run_fits faithful live
    ⟨Config.maxLevels_pos valid, reads⟩ settled served
  cases recorded
  exact ⟨fitting, fun sane => (after sane).get⟩

theorem run_refines_map_conversation :
    let reached := (start (MemoryWorld.start [])).run MemoryWorld.platform conversation
    Fits (fun _ => none) reached.transcript ∧
      (reached.ending ≠ some .panicked →
        ∀ key, reached.machine.engine.get MemoryTable.ops key =
          .ok ((reached.transcript.map Prod.fst).foldl Line.update (fun _ => none) key)) := by
  have nothing : ∀ key, (MemoryWorld.start []).engine.get MemoryTable.ops key = .ok none :=
    StorageEngine.get_fresh MemoryTable.ops MemoryWorld.smallConfig
  have settled : Settled MemoryWorld.platform (start (MemoryWorld.start [])) conversation := by
    unfold Settled
    decide +kernel
  exact run_refines_map MemoryWorld.platform_faithful (by decide +kernel) nothing settled
    (by decide +kernel)

end Session

/-! ## What is shown has been put -/

/-- The pairs of the `PUT` lines that have been answered with `OK`. -/
def puts (transcript : List (Line × Reply)) : List (Key × Value) :=
  transcript.flatMap fun exchange =>
    if exchange.2 = .ok then exchange.1.write?.toList.flatMap Write.pair else []

/-- A reply that shows pairs only that have been put. -/
def Told (pairs : List (Key × Value)) (line : Line) : Reply → Prop
  | .text value => ∃ key, line = .get key ∧ (key, asBytes value) ∈ pairs
  | .pairs results => ∀ pair ∈ results, pair ∈ pairs
  | .notText | .debug _ => False
  | .silent | .ok | .nil | .stats _ | .failed _ | .usage _ | .unknown _ | .goodbye => True

/-- Whatever a transcript shows has been put by then. -/
def ShowsPuts (transcript : List (Line × Reply)) : Prop :=
  ∀ earlier line reply, earlier ++ [(line, reply)] <+: transcript → Told (puts earlier) line reply

/-- The arguments of a line are text. -/
theorem Line.put_of_ofText {input : String} {key value : Bytes}
    (asks : ofText input = .put key value) : ∃ text, value = asBytes text := by
  rw [ofText_eq] at asks
  generalize Words.words isWhitespace input.toList = parts at asks
  have means := asks ▸ means_ofParts parts
  cases means with
  | @put _ _ value => exact ⟨String.ofList value, rfl⟩

namespace Session

variable {platform : Platform World Table}

theorem text_of_mem_pair {input : String} {pair : Key × Value}
    (member : pair ∈ (Line.ofText input).write?.toList.flatMap Write.pair) :
    ∃ text, pair.2 = asBytes text := by
  cases asks : Line.ofText input with
  | put key value =>
      rw [asks] at member
      cases List.mem_singleton.mp member
      exact Line.put_of_ofText asks
  | _ =>
      rw [asks] at member
      cases member

/-- The reply to a line, from an engine that holds what has been put. -/
theorem told_respond {pairs : List (Key × Value)} {machine reached : Machine World Table}
    (genuine : Machine.Genuine platform.toTableOps (fun _ _ => True) (Entry.From pairs) machine)
    (text : ∀ pair ∈ pairs, ∃ text, pair.2 = asBytes text) {line : Line} {reply : Reply}
    (answered : respond platform line machine = .ok reply reached) : Told pairs line reply := by
  have written : ∀ write, line.write? = some write → Told pairs line reply := by
    intro write asks
    rw [respond_of_write platform asks] at answered
    split at answered <;> cases answered <;> trivial
  have read : ∀ (ask : StorageEngine Table → Result Reply),
      (∀ shown, ask machine.engine = .ok shown → Told pairs line shown) →
      printError (reading ask) machine = .ok reply reached → Told pairs line reply := by
    intro ask told ran
    rw [printError, reading, bind_of_ok (get_apply machine)] at ran
    cases asked : ask machine.engine with
    | ok shown =>
        rw [asked] at ran
        cases ran
        exact told _ asked
    | error fault =>
        rw [asked] at ran
        cases fault <;> cases ran
        trivial
  cases line with
  | put key value => exact written _ rfl
  | delete key => exact written _ rfl
  | get key =>
      rw [respond, call] at answered
      refine read _ (fun shown asked => ?_) answered
      obtain ⟨found, got, shows⟩ := Result.bind_eq_ok.mp asked
      cases shows
      cases found with
      | none => trivial
      | some value =>
          obtain ⟨entry, ⟨rfl, origin⟩, valued⟩ := genuine.get got
          have put := origin value valued
          obtain ⟨shown, same⟩ := text _ put
          have same : value = asBytes shown := same
          have decoded : fromUtf8 value = some shown := by rw [same, fromUtf8_asBytes]
          simp only [Reply.ofFound, decoded]
          exact ⟨entry.key, rfl, same ▸ put⟩
  | scan start stop =>
      rw [respond, call] at answered
      refine read _ (fun shown asked => ?_) answered
      obtain ⟨results, scanned, shows⟩ := Result.bind_eq_ok.mp asked
      cases shows
      intro pair member
      obtain ⟨entry, ⟨keyed, origin⟩, valued⟩ := genuine.scan scanned pair member
      rw [← Prod.eta pair, ← keyed]
      exact origin pair.2 valued
  | stats =>
      rw [respond, call] at answered
      refine read _ (fun shown asked => ?_) answered
      obtain ⟨figures, printed, shows⟩ := Result.bind_eq_ok.mp asked
      cases shows
      trivial
  | blank => cases answered; trivial
  | quit => cases answered; trivial
  | usage verb => cases answered; trivial
  | unknown word => cases answered; trivial

/-- The engine after a line holds what has been put by then. -/
theorem genuine_respond (candid : platform.Candid) {transcript : List (Line × Reply)}
    {machine : Machine World Table}
    (genuine : Machine.Genuine platform.toTableOps (fun _ _ => True)
      (Entry.From (puts transcript)) machine) (line : Line) :
    match respond platform line machine with
    | .ok reply reached => Machine.Genuine platform.toTableOps (fun _ _ => True)
        (Entry.From (puts (transcript ++ [(line, reply)]))) reached
    | .error _ reached => Machine.Genuine platform.toTableOps (fun _ _ => True)
        (Entry.From (puts transcript)) reached := by
  have appended : ∀ reply, puts (transcript ++ [(line, reply)]) = puts transcript ++
      if reply = .ok then line.write?.toList.flatMap Write.pair else [] := by
    intro reply
    simp [puts]
  cases asks : line.write? with
  | none =>
      rcases respond_of_read platform asks machine with ⟨reply, answered⟩ | panicked
      · rw [answered]
        simpa [appended, asks] using genuine
      · rw [panicked]
        exact genuine
  | some write =>
      have wrote := Genuine.write candid.copies genuine write
      rw [respond_of_write platform asks]
      cases ran : write.run platform machine with
      | ok _ reached =>
          rw [ran] at wrote
          simpa [appended, asks] using wrote
      | error fault reached =>
          rw [ran] at wrote
          have left := GenuineAfter.engine wrote
          cases fault with
          | error failure => simpa [appended] using left
          | panic => exact left

/-- A session whose engine holds what its lines have put, which is text, and whose replies
have shown no more. -/
structure Truthful (platform : Platform World Table) (session : Session World Table) : Prop where
  genuine : Machine.Genuine platform.toTableOps (fun _ _ => True)
    (Entry.From (puts session.transcript)) session.machine
  text : ∀ pair ∈ puts session.transcript, ∃ text, pair.2 = asBytes text
  told : ShowsPuts session.transcript

theorem Truthful.answer (candid : platform.Candid) {session : Session World Table}
    (truthful : Truthful platform session) (text : String) :
    Truthful platform (session.answer platform (.ofText text)) := by
  have kept := genuine_respond candid truthful.genuine (.ofText text)
  rw [Session.answer]
  cases answered : respond platform (.ofText text) session.machine with
  | error fault machine =>
      rw [answered] at kept
      exact ⟨kept, truthful.text, truthful.told⟩
  | ok reply machine =>
      rw [answered] at kept
      refine ⟨kept, fun pair member => ?_, fun earlier line shown within => ?_⟩
      · rw [puts, List.flatMap_append] at member
        rcases List.mem_append.mp member with before | own
        · exact truthful.text pair before
        · rw [List.flatMap_singleton] at own
          split at own
          · exact text_of_mem_pair own
          · cases own
      · rcases List.prefix_concat_iff.mp within with whole | before
        · obtain ⟨rfl, same⟩ := List.append_inj' whole rfl
          cases same
          exact told_respond truthful.genuine truthful.text answered
        · exact truthful.told earlier line shown before

/-- Whatever comes in. -/
theorem Truthful.step (candid : platform.Candid) {session : Session World Table}
    (truthful : Truthful platform session) (input : Input) :
    Truthful platform (session.step platform input) := by
  rw [Session.step]
  split
  · exact truthful
  cases input with
  | line text => exact truthful.answer candid text
  | broken => exact ⟨truthful.genuine, truthful.text, truthful.told⟩
  | background =>
      exact ⟨(preserves_backgroundCompaction candid.copies).final_engine truthful.genuine,
        truthful.text, truthful.told⟩

/-- What a session on an empty directory shows has been put by its own lines: a `GET` that
finds a value prints it as the text that an earlier `PUT` line gave under that key and that
was answered with `OK`, never as data that is no text, and a `SCAN` prints such pairs
only. -/
theorem run_told (candid : platform.Candid) {config : Config} {world listed : World}
    (empty : platform.readDir world = .ok [] listed) {machine : Machine World Table}
    (opened : openEngine platform config world = .ok () machine) (inputs : List Input) :
    ShowsPuts ((start machine).run platform inputs).transcript := by
  obtain ⟨-, fresh⟩ := openEngine_empty_eq_ok empty opened
  have new : Machine.Genuine platform.toTableOps (fun _ _ => True) (Entry.From [])
      { engine := .fresh config, world := machine.world } := genuine_fresh _ config trivial
  rw [← fresh] at new
  have initially : Truthful platform (start machine) := by
    refine ⟨new, nofun, fun earlier line reply within => ?_⟩
    have none := List.prefix_nil.mp within
    simp at none
  have preserved : ∀ (session : Session World Table) (input : Input),
      Truthful platform session → Truthful platform (session.step platform input) :=
    fun session input holds => holds.step candid input
  exact (Runs.throughout_of_invariant (fun _ holds => Truthful.told holds) preserved initially
    inputs).finally

private def clockedHost : Host where
  clock ticks := 1000000 + ticks
  order := id
  lists := .refl

/-- An engine on an empty directory. -/
private def onDisk : Machine Disk SSTableReader where
  engine := .fresh MemoryWorld.smallConfig
  world := { files := [], ticks := 0 }

theorem run_told_conversation :
    ShowsPuts ((start onDisk).run (Disk.platform .plain clockedHost) conversation).transcript :=
  have empty : (Disk.platform .plain clockedHost).readDir onDisk.world = .ok [] onDisk.world :=
    rfl
  run_told (History.disk_candid .plain clockedHost) empty
    (openEngine_empty empty (by decide +kernel)) conversation

end Session

end Cli

end JustDb

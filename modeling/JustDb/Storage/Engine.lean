import JustDb.Storage.Platform
import JustDb.Library.Layered
import JustDb.Library.Newest

/-!
# Reads and writes

`put`, `delete`, `get` and `scan`, with the memtable rotation and the flushes to
level 0 that a write may trigger.  Each lock-protected section of the source is
one state update here.
-/

namespace JustDb

open Stateful Machine

variable {World Table : Type}

namespace StorageEngine

/-! ## Reads -/

/-- `if table.might_contain(key) { table.get(key)? }` -/
def lookupTable (ops : TableOps Table) (key : Key) (table : Table) :
    Result (Option Entry) := do
  let maybe ← ops.mightContain table key
  if maybe then ops.get table key else .ok none

/-- The first table whose key range covers the key. -/
def findSstableForKey (ops : TableOps Table) (tables : List Table) (key : Key) :
    Option Table :=
  tables.find? fun table =>
    (ops.metadata table).minKey ≤ key ∧ key ≤ (ops.metadata table).maxKey

/-- What a level answers: level 0 from its newest table down, a deeper level from
the one table whose range covers the key. -/
def lookupLevel (ops : TableOps Table) (engine : StorageEngine Table) (key : Key)
    (level : Nat) : Result (Option Entry) :=
  if level = 0 then
    Layered.first ((engine.tables 0).reverse.map (lookupTable ops key))
  else
    match findSstableForKey ops (engine.tables level) key with
    | some table => lookupTable ops key table
    | none => .ok none

/-- What the memtables answer: the current one, then the immutable ones from the
newest down. -/
def memtableAnswers (engine : StorageEngine Table) (key : Key) :
    List (Result (Option Entry)) :=
  (engine.memtable :: engine.immutableMemtables.reverse).map fun memtable =>
    .ok (memtable.get key)

/-- The answers that `get` asks for, in its order. -/
def answers (ops : TableOps Table) (engine : StorageEngine Table) (key : Key) :
    List (Result (Option Entry)) :=
  engine.memtableAnswers key ++
    (List.range engine.config.maxLevels).map (engine.lookupLevel ops key)

/-- get a value by key: the value of the first entry found -/
def get (ops : TableOps Table) (engine : StorageEngine Table) (key : Key) :
    Result (Option Value) :=
  if engine.closed then
    .error (.error .closed)
  else do
    let entry ← Layered.first (engine.answers ops key)
    .ok (entry.bind Entry.value)

/-- How `scan` holds a version: a delete marker is an empty value. -/
def scanVersion (entry : Entry) : Value × SequenceNumber :=
  (entry.value.getD [], entry.sequence)

/-- `results`, a hash map from keys to the version with the largest sequence. -/
abbrev ScanResults := Newest.Table Key (Value × SequenceNumber)

/-- The entries of the current memtable go in as they come. -/
def scanMemtable (results : ScanResults) (entries : List (Key × Entry)) : ScanResults :=
  entries.foldl (fun held pair => held.insert pair.1 (scanVersion pair.2)) results

/-- Entries of older sources replace a version of a smaller sequence only. -/
def scanOlder (results : ScanResults) (entries : List (Key × Entry)) : ScanResults :=
  Newest.collect Prod.snd results (entries.map fun pair => (pair.1, scanVersion pair.2))

/-- Drop the empty values and sort by key. -/
def scanFinish (results : ScanResults) : List (Key × Value) :=
  (results.entries.filterMap fun item =>
      if item.2.1.isEmpty then none else some (item.1, item.2.1)).insertionSort
    fun left right => left.1 ≤ right.1

/-- scan a range of keys -/
def scan (ops : TableOps Table) (engine : StorageEngine Table) (start stop : Key) :
    Result (List (Key × Value)) :=
  if engine.closed then
    .error (.error .closed)
  else do
    let current ← engine.memtable.rangeIter start stop
    let results := scanMemtable ∅ current
    let results ← engine.immutableMemtables.reverse.foldlM (fun held memtable => do
      let entries ← memtable.rangeIter start stop
      pure (scanOlder held entries)) results
    let results ← (List.range engine.config.maxLevels).foldlM (fun held level =>
      (engine.tables level).foldlM (fun held table => do
        let entries ← ops.range table start stop
        pure (scanOlder held (entries.map fun entry => (entry.key, entry)))) held) results
    .ok (scanFinish results)

end StorageEngine

/-! ## Writes -/

namespace Machine

variable (platform : Platform World Table)

/-- get next seq num: `fetch_add` on the engine's own counter -/
def nextSequence : Action World Table SequenceNumber := do
  let machine ← get
  onEngine fun engine => engine.setCounter (engine.sequenceCounter + 1)
  pure machine.engine.sequenceCounter

/-- flush a memtable: the table made from it goes to the end of level 0 -/
def flushMemtable (memtable : MemTable) : Action World Table Unit := do
  let machine ← get
  let made ← onWorld (platform.flushTable machine.engine.config memtable)
  match made with
  | some reader => onEngine fun engine => engine.pushLevel0 reader
  | none => pure ()

/-- `while immutable.len() > max_memtables`: take the oldest memtable off the list,
then flush it.  The list shrinks each turn, so `fuel` is its length. -/
def flushExcess : (fuel : Nat) → Action World Table Unit
  | 0 => pure ()
  | fuel + 1 => do
      let machine ← get
      match machine.engine.immutableMemtables with
      | [] => pure ()
      | oldest :: rest =>
          if rest.length + 1 > machine.engine.config.maxMemtables then do
            onEngine fun engine => engine.setImmutable rest
            flushMemtable platform oldest
            flushExcess fuel
          else
            pure ()

/-- Swap in a memtable that starts at the engine's next sequence number, and return
the old one, now immutable. -/
def swapMemtable : Action World Table MemTable := do
  let start ← nextSequence
  let machine ← get
  onEngine fun engine =>
    engine.setMemtable (.withSequence engine.config.memtableSizeThreshold start)
  pure machine.engine.memtable.makeImmutable

def pushImmutable (memtable : MemTable) : Action World Table Unit :=
  onEngine fun engine => engine.setImmutable (engine.immutableMemtables ++ [memtable])

def rotateMemtable : Action World Table Unit := do
  let old ← swapMemtable
  pushImmutable old
  let machine ← get
  flushExcess platform machine.engine.immutableMemtables.length

def checkRotateMemtable : Action World Table Unit := do
  let machine ← get
  if machine.engine.memtable.shouldFlush then rotateMemtable platform else pure ()

/-- write to current memtable -/
def writeMemtable (key : Key) (value : Option Value) : Action World Table Unit := do
  let micros ← onWorld platform.currentMicros
  let machine ← get
  let written ← lift (machine.engine.memtable.write key value micros.toUInt64)
  onEngine fun engine => engine.setMemtable written

/-- put a key-value pair -/
def put (key : Key) (value : Value) : Action World Table Unit := do
  let machine ← get
  if machine.engine.closed then
    throw (.error .closed)
  else if key.length > maxKeySize then
    throw (.error (.invalidKeySize key.length maxKeySize))
  else if value.length > maxValueSize then
    throw (.error (.invalidValueSize value.length maxValueSize))
  else do
    checkRotateMemtable platform
    writeMemtable platform key (some value)

/-- delete a key -/
def delete (key : Key) : Action World Table Unit := do
  let machine ← get
  if machine.engine.closed then
    throw (.error .closed)
  else if key.length > maxKeySize then
    throw (.error (.invalidKeySize key.length maxKeySize))
  else do
    checkRotateMemtable platform
    writeMemtable platform key none

end Machine

/-- A write call of a client. -/
inductive Write where
  | put (key : Key) (value : Value)
  | delete (key : Key)
  deriving DecidableEq, Repr

namespace Write

def key : Write → Key
  | .put key _ => key
  | .delete key => key

/-- What the call leaves stored under its key. -/
def value : Write → Option Value
  | .put _ value => some value
  | .delete _ => none

/-- Make the call. -/
def run (platform : Platform World Table) : Write → Action World Table Unit
  | .put key value => Machine.put platform key value
  | .delete key => Machine.delete platform key

/-- The checks made before anything changes, in their order. -/
def rejection (engine : StorageEngine Table) (write : Write) : Option StorageError :=
  if engine.closed then
    some .closed
  else if write.key.length > maxKeySize then
    some (.invalidKeySize write.key.length maxKeySize)
  else
    match write.value with
    | some value =>
        if value.length > maxValueSize then
          some (.invalidValueSize value.length maxValueSize)
        else none
    | none => none

theorem running_of_rejection {engine : StorageEngine Table} {write : Write}
    (accepted : write.rejection engine = none) : engine.closed = false := by
  unfold rejection at accepted
  split at accepted
  · cases accepted
  next running => simpa using running

/-- A call that passes its checks makes room, then writes. -/
theorem run_apply (platform : Platform World Table) (write : Write)
    (machine : Machine World Table) :
    write.run platform machine =
      match write.rejection machine.engine with
      | some failure => .error (.error failure) machine
      | none =>
          (do checkRotateMemtable platform; writeMemtable platform write.key write.value)
            machine := by
  cases write with
  | put key value =>
      simp only [run, Machine.put, rejection, Write.key, Write.value, bind_eq, get_apply]
      by_cases stopped : machine.engine.closed
      · simp [stopped]
      by_cases long : key.length > maxKeySize
      · simp [stopped, long]
      by_cases large : value.length > maxValueSize
      · simp [stopped, long, large]
      · simp [stopped, long, large, bind_eq]
  | delete key =>
      simp only [run, Machine.delete, rejection, Write.key, Write.value, bind_eq, get_apply]
      by_cases stopped : machine.engine.closed
      · simp [stopped]
      by_cases long : key.length > maxKeySize
      · simp [stopped, long]
      · simp [stopped, long, bind_eq]

/-- Make the calls one after another, as long as they return `Ok`. -/
def runAll (platform : Platform World Table) (writes : List Write) :
    Action World Table Unit :=
  writes.forM (run platform)

end Write

end JustDb

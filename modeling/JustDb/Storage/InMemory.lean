import JustDb.Storage.Versions

/-!
# Tables held in memory

A platform whose tables are the entry lists they were made from.  Its file
operations fail when a schedule says so, which stands for a full disk or a file
that cannot be read back.
-/

namespace JustDb

open Stateful

/-- Files by name, the clock in microseconds, and for each file operation to come
whether it fails; past the end of the schedule none does. -/
structure MemoryWorld where
  files : List (FileName × List Entry)
  clock : Nat
  failures : List Bool
  deriving DecidableEq, Repr

structure MemoryTable where
  path : FileName
  entries : List Entry
  createdAt : Timestamp
  deriving DecidableEq, Repr

namespace MemoryTable

def metadata (table : MemoryTable) : SStableMeta where
  entryCount := table.entries.length
  dataSize := (table.entries.map Entry.size).sum
  indexSize := 0
  bloomOffset := 0
  bloomSize := 0
  minKey := (table.entries.head?.map Entry.key).getD []
  maxKey := (table.entries.getLast?.map Entry.key).getD []
  compression := .none
  createdAt := table.createdAt
  version := sstableVersion

/-- Every question is answered from the entry list. -/
def ops : TableOps MemoryTable where
  path := path
  metadata := metadata
  mightContain table key := .ok (table.entries.any fun entry => entry.key = key)
  get table key := .ok (entryFor table.entries key)
  range table start stop :=
    .ok (table.entries.filter fun entry => start ≤ entry.key ∧ entry.key < stop)
  iter table := table.entries.map .ok

theorem readsFor {table : MemoryTable} (ascending : Ascending table.entries) :
    ReadsFor ops table table.entries where
  mightContain := by
    intro key
    refine ⟨_, rfl, fun entry member keyed => ?_⟩
    exact List.any_eq_true.mpr ⟨entry, member, by simpa using keyed⟩
  get := fun _ => rfl
  ascending := ascending
  range := fun _ _ _ => rfl

theorem exactFor {table : MemoryTable} (nonempty : table.entries ≠ [])
    (ascending : Ascending table.entries) : ExactFor ops table table.entries where
  toReadsFor := readsFor ascending
  iter := rfl
  minKey := by
    rw [show (ops.metadata table).minKey = (table.entries.head?.map Entry.key).getD [] from rfl,
      List.head?_eq_some_head nonempty]
    rfl
  maxKey := by
    rw [show (ops.metadata table).maxKey = (table.entries.getLast?.map Entry.key).getD [] from rfl,
      List.getLast?_eq_some_getLast nonempty]
    rfl

end MemoryTable

namespace MemoryWorld

/-- Consult the schedule. -/
def attempt : EStateM Fault MemoryWorld Unit := fun world =>
  match world.failures with
  | [] => .ok () world
  | false :: failures => .ok () { world with failures }
  | true :: failures => .error (.error .io) { world with failures }

def write (path : FileName) (entries : List Entry) : EStateM Fault MemoryWorld Unit :=
  modify fun world =>
    { world with files := (path, entries) :: world.files.filter fun file => file.1 ≠ path }

def find (path : FileName) : EStateM Fault MemoryWorld (List Entry) := fun world =>
  match world.files.find? fun file => file.1 = path with
  | some (_, entries) => .ok entries world
  | none => .error (.error .io) world

/-- The in-memory platform; a table is stamped with the time at which it is opened. -/
def platform : Platform MemoryWorld MemoryTable where
  toTableOps := MemoryTable.ops
  now world := (world.clock, { world with clock := world.clock + 1 })
  buildFromVec _ path entries := do
    attempt
    write path entries
    pure (MemoryTable.metadata { path, entries, createdAt := 0 })
  openTable path _ := do
    attempt
    let entries ← find path
    let world ← get
    pure { path, entries, createdAt := world.clock.toUInt64 }
  removeFile path := do
    attempt
    modify fun world => { world with files := world.files.filter fun file => file.1 ≠ path }
  readDir := fun world => .ok (world.files.map Prod.fst) world

/-- A file that has just been written reads back as it was written. -/
private theorem find_write {path : FileName} {entries found : List Entry}
    {world wrote opened reached : MemoryWorld} (ran : write path entries world = .ok () wrote)
    (attempted : attempt wrote = .ok () opened) (read : find path opened = .ok found reached) :
    found = entries := by
  cases ran
  have files : opened.files =
      (path, entries) :: world.files.filter fun file => file.1 ≠ path := by
    unfold attempt at attempted
    split at attempted <;> cases attempted <;> rfl
  simp only [find, files, List.find?_cons, decide_true] at read
  cases read
  rfl

theorem platform_exact : platform.Exact MemoryTable.entries := by
  intro config path entries world reader reached nonempty ascending ran
  obtain ⟨_, built, builtRan, openRan⟩ := bind_eq_ok.mp ran
  obtain ⟨⟨⟩, _, _, builtRan⟩ := bind_eq_ok.mp builtRan
  obtain ⟨⟨⟩, wrote, wroteRan, builtRan⟩ := bind_eq_ok.mp builtRan
  cases builtRan
  obtain ⟨⟨⟩, opened, attempted, openRan⟩ := bind_eq_ok.mp openRan
  obtain ⟨found, _, read, openRan⟩ := bind_eq_ok.mp openRan
  cases openRan
  cases find_write wroteRan attempted read
  exact ⟨rfl, MemoryTable.exactFor nonempty ascending⟩

theorem platform_faithful : platform.Faithful :=
  platform_exact.faithful

/-- A configuration under which each write fills a memtable, and only one memtable
waits to be flushed. -/
def smallConfig : Config :=
  { memtableSizeThreshold := 1, maxMemtables := 1 }

/-- An engine on an empty directory, with a schedule of failures to come. -/
def start (failures : List Bool) : Machine MemoryWorld MemoryTable where
  engine := .fresh smallConfig
  world := { files := [], clock := 0, failures }

end MemoryWorld

end JustDb

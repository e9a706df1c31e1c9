import JustDb.Storage.Compaction
import JustDb.SSTable.Iteration
import JustDb.SSTable.Unreadable
import Mathlib.Algebra.Order.BigOperators.Group.List

/-!
# Table files on disk

The platform that the repository runs on: tables are files in the byte format of
`SSTableWriter`, on a file system that keeps the bytes it is given and refuses
nothing.
-/

namespace JustDb

open Stateful

/-- The `sstables` directory, and how often the clock has been read. -/
structure Disk where
  files : List (FileName × Bytes)
  ticks : Nat
  deriving DecidableEq, Repr

/-- What the code takes from the machine: the clock, in microseconds at each reading,
and the order in which `read_dir` lists the files. -/
structure Host where
  clock : Nat → Nat
  order : List FileName → List FileName
  lists : ∀ names, (order names).Perm names

namespace SSTableReader

/-- How the engine uses a reader.  The block cache is left out: it never changes an
answer, as a file does not change while it is open. -/
def ops (external : External) : TableOps SSTableReader where
  path := path
  metadata := metadata
  mightContain := mightContain external
  get table key := outcome (SSTableReader.get external key table)
  range table start stop := outcome (SSTableReader.range external start stop table)
  -- a block holds fewer than `2 ^ 32` entries, so the fuel is never used up
  iter table := (SSTableIterator.new table).items external (table.index.length * u32Size + 1)

/-- The engine's view of a table that serves its blocks: the iterator lists them. -/
theorem Serves.iter {external : External} {reader : SSTableReader}
    {stored : List Entry → Bytes} {groups : List (List Entry)}
    (serves : Serves external reader stored groups) (nonempty : ∀ group ∈ groups, group ≠ []) :
    (ops external).iter reader = groups.flatten.map .ok := by
  refine (SSTableIterator.pending_new serves).items nonempty (Nat.lt_succ_of_le ?_)
  rw [SSTableIterator.index_length serves, List.length_flatten]
  have each : ∀ count ∈ groups.map List.length, count ≤ u32Size := by
    intro count member
    obtain ⟨group, held, rfl⟩ := List.mem_map.mp member
    exact (serves.parsable group held).count.le
  simpa using List.sum_le_card_nsmul _ _ each

end SSTableReader

/-- The builder that `flush_memtable` and compactions set up. -/
def Config.builder (config : Config) : SSTableBuilder where
  compression := config.compression
  compressionLevel := config.compressionLevel
  bloomFalsePositiveRate := config.bloomFalsePositiveRate

namespace Disk

variable (external : External) (host : Host)

/-- Create or replace a file. -/
def store (disk : Disk) (path : FileName) (contents : Bytes) : Disk :=
  { disk with files := (path, contents) :: disk.files.filter fun file => file.1 ≠ path }

def readClock (disk : Disk) : Nat × Disk :=
  (host.clock disk.ticks, { disk with ticks := disk.ticks + 1 })

/-- The file of a build stays on disk whether or not the build returns `Ok`. -/
def buildFromVec (config : Config) (path : FileName) (entries : List Entry) :
    EStateM Fault Disk SStableMeta := fun disk =>
  let (createdAt, reached) := disk.readClock host
  match config.builder.buildFromVec external createdAt.toUInt64 entries
      { output := .reliable } with
  | .ok metadata sink => .ok metadata (reached.store path sink.written)
  | .error fault sink => .error fault (reached.store path sink.written)

/-- The contents of a file, when there is one. -/
def find (disk : Disk) (path : FileName) : Option Bytes :=
  (disk.files.find? fun file => file.1 = path).map Prod.snd

def openTable (path : FileName) (mapped : Bool) : EStateM Fault Disk SSTableReader := do
  let disk ← get
  match disk.find path with
  | some contents => lift (SSTableReader.openFile path contents mapped)
  | none => throw (.error .io)

def removeFile (path : FileName) : EStateM Fault Disk Unit := do
  let disk ← get
  match disk.find path with
  | some _ => set { disk with files := disk.files.filter fun file => file.1 ≠ path }
  | none => throw (.error .io)

def readDir : EStateM Fault Disk (List FileName) := do
  let disk ← get
  pure (host.order (disk.files.map Prod.fst))

/-- A file opened no further than its index: `open` without `load_bloom_filter`. -/
def openIndexed (path : FileName) (mapped : Bool) : EStateM Fault Disk SSTableReader := do
  let disk ← get
  match disk.find path with
  | some contents => lift (SSTableReader.recover path contents mapped)
  | none => throw (.error .io)

/-- The platform of table files. -/
def platform : Platform Disk SSTableReader where
  toTableOps := SSTableReader.ops external
  now := readClock host
  buildFromVec := buildFromVec external host
  openTable := openTable
  removeFile := removeFile
  readDir := readDir host

/-- The platform of table files whose bloom filter sections are not read. -/
def indexedPlatform : Platform Disk SSTableReader :=
  { platform external host with openTable := openIndexed }

@[simp] theorem find_store (disk : Disk) (path : FileName) (contents : Bytes) :
    (disk.store path contents).find path = some contents := by
  simp [store, find]

variable {external host}

/-- A build that returns `Ok` leaves its bytes in the file. -/
theorem buildFromVec_eq_ok {config : Config} {path : FileName} {entries : List Entry}
    {disk reached : Disk} {metadata : SStableMeta}
    (ran : buildFromVec external host config path entries disk = .ok metadata reached) :
    ∃ createdAt sink, config.builder.buildFromVec external createdAt entries
        { output := .reliable } = .ok metadata sink ∧ reached.find path = some sink.written := by
  simp only [buildFromVec] at ran
  split at ran
  next metadata sink built =>
    cases ran
    exact ⟨_, sink, built, find_store _ _ _⟩
  next => cases ran

end Disk

end JustDb

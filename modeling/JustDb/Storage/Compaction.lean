import JustDb.Storage.Engine

/-!
# Compaction and the life of an engine

Merging one level into the next, the background step that chooses levels, and
opening and closing an engine on a directory.
-/

namespace JustDb

open Stateful Machine

variable {World Table : Type}

namespace Config

/-- Powers and products on `usize` panic on overflow; the exponent is `level as u32`. -/
def levelTargetSize (config : Config) (level : Nat) : Result Nat :=
  if level = 0 then
    checkedMul config.l0SstableSize config.l0CompactionThreshold
  else do
    let factor ← checkedMul 1 (config.levelSizeMultiplier ^ (level % 2 ^ 32))
    checkedMul config.l0SstableSize factor

/-- The size at which `create_sstables_for_level` starts another table. -/
def targetSize (config : Config) (level : Nat) : Result Nat :=
  if level = 0 then .ok config.l0SstableSize else checkedMul config.l0SstableSize 2

end Config

namespace StorageEngine

/-- The versions of a table's iterator, each keyed by its own key; the first error
ends the merge. -/
def absorbEntry (kept : Newest.Table Key Entry) (item : Result Entry) :
    Result (Newest.Table Key Entry) := do
  let entry ← item
  .ok (Newest.absorb Entry.sequence kept (entry.key, entry))

/-- One version per key, the one with the largest sequence; delete markers are
dropped and the rest is sorted by key. -/
def mergeSstables (ops : TableOps Table) (tables1 tables2 : List Table) :
    Result (List Entry) := do
  let kept ← (tables1 ++ tables2).foldlM
    (fun kept table => (ops.iter table).foldlM absorbEntry kept) ∅
  let live := (kept.entries.map Sigma.snd).filter fun entry => entry.value.isSome
  .ok (live.insertionSort fun left right => left.key ≤ right.key)

/-- The bytes of a level against its target. -/
def levelNeedsCompaction (ops : TableOps Table) (engine : StorageEngine Table)
    (level : Nat) : Result Bool :=
  match engine.sstables level with
  | none => .ok false
  | some tables => do
      let currentSize ← tables.foldlM
        (fun total table => checkedAdd total (ops.metadata table).dataSize) 0
      let targetSize ← engine.config.levelTargetSize level
      .ok (decide (targetSize < currentSize))

end StorageEngine

namespace Machine

variable (platform : Platform World Table)

def createSstable (level : Nat) (entries : List Entry) : Action World Table Table := do
  let micros ← onWorld platform.currentMicros
  let sequence ← nextSequence
  let machine ← get
  onWorld (platform.makeTable machine.engine.config
    (sstableName level (micros / 1000000) sequence) entries)

/-- The loop of `create_sstables_for_level`: the entries still to come, the chunk in
hand with its size, and the tables made so far. -/
def createChunks (level targetSize : Nat) :
    (entries current : List Entry) → (currentSize : Nat) → (sstables : List Table) →
      Action World Table (List Table)
  | [], current, _, sstables =>
      if current.isEmpty then
        pure sstables
      else do
        let table ← createSstable platform level current
        pure (sstables ++ [table])
  | entry :: entries, current, currentSize, sstables => do
      let grown ← lift (checkedAdd currentSize entry.size)
      if grown > targetSize ∧ ¬current.isEmpty then do
        let table ← createSstable platform level current
        createChunks level targetSize entries [entry] entry.size (sstables ++ [table])
      else
        createChunks level targetSize entries (current ++ [entry]) grown sstables

def createSstablesForLevel (level : Nat) (entries : List Entry) :
    Action World Table (List Table) :=
  if entries.isEmpty then
    pure []
  else do
    let machine ← get
    let targetSize ← lift (machine.engine.config.targetSize level)
    createChunks platform level targetSize entries [] 0 []

/-- The update of a compaction, under the `sstables` write lock. -/
def swapIn (level : Nat) (newTables : List Table) : Action World Table Unit :=
  onEngine fun engine => (engine.setLevel level []).setLevel (level + 1) newTables

/-- Old files are removed one by one; a failure is reported and skipped. -/
def deleteOldFiles (tables : List Table) : Action World Table Unit :=
  tables.forM fun table =>
    reportError (onWorld (platform.removeFile (platform.path table)))

/-- Merge the tables of two levels and build the tables that replace them. -/
def mergeInto (level : Nat) (currentTables nextTables : List Table) :
    Action World Table (List Table) := do
  let mergeEntries ← lift
    (StorageEngine.mergeSstables platform.toTableOps currentTables nextTables)
  createSstablesForLevel platform (level + 1) mergeEntries

/-- Merge a level into the next one. -/
def compactInto (level : Nat) : Action World Table Unit := do
  let machine ← get
  let currentTables := machine.engine.tables level
  let nextTables := machine.engine.tables (level + 1)
  if currentTables.isEmpty then
    pure ()
  else do
    let newTables ← mergeInto platform level currentTables nextTables
    swapIn level newTables
    deleteOldFiles platform (currentTables ++ nextTables)

def compactL0ToL1 : Action World Table Unit :=
  compactInto platform 0

def compactLevel (level : Nat) : Action World Table Unit :=
  compactInto platform level

/-- The levels `1..max_levels - 1`, each compacted when it is over its target. -/
def runCompaction : Action World Table Unit := do
  let machine ← get
  if (machine.engine.tables 0).length ≥ machine.engine.config.l0CompactionThreshold then
    compactL0ToL1 platform
  else
    pure ()
  (List.range' 1 (machine.engine.config.maxLevels - 2)).forM fun level => do
    let machine ← get
    let needed ← lift (machine.engine.levelNeedsCompaction platform.toTableOps level)
    if needed then compactLevel platform level else pure ()

/-- A turn of the background task, which an engine has when compaction is enabled. -/
def backgroundCompaction : Action World Table Unit := do
  let machine ← get
  if machine.engine.config.enableCompaction ∧ ¬machine.engine.closed then
    reportError (runCompaction platform)
  else
    pure ()

/-! ## What a compaction leaves alone -/

theorem keeps_createSstable {τ : Type} (view : StorageEngine Table → τ)
    (unseen : ∀ engine counter, view (engine.setCounter counter) = view engine)
    (level : Nat) (entries : List Entry) :
    Keeps (fun machine : Machine World Table => view machine.engine)
      (createSstable platform level entries) := by
  refine (keeps_onWorld view _).bind fun micros => Keeps.bind ?_ fun sequence =>
    keeps_get.bind fun machine => keeps_onWorld view _
  exact keeps_get.bind fun machine =>
    (keeps_onEngine fun engine => unseen engine _).bind fun _ => keeps_pure _

theorem keeps_createChunks {τ : Type} (view : StorageEngine Table → τ)
    (unseen : ∀ engine counter, view (engine.setCounter counter) = view engine)
    (level targetSize : Nat) (entries current : List Entry) (currentSize : Nat)
    (sstables : List Table) :
    Keeps (fun machine : Machine World Table => view machine.engine)
      (createChunks platform level targetSize entries current currentSize sstables) := by
  induction entries generalizing current currentSize sstables with
  | nil =>
      rw [createChunks]
      exact .ite (keeps_pure _)
        ((keeps_createSstable platform view unseen level current).bind fun _ => keeps_pure _)
  | cons entry entries ih =>
      rw [createChunks]
      exact (keeps_lift _).bind fun grown => .ite
        ((keeps_createSstable platform view unseen level current).bind fun table => ih _ _ _)
        (ih _ _ _)

/-- Building the new tables counts sequence numbers and changes nothing else. -/
theorem keeps_mergeInto {τ : Type} (view : StorageEngine Table → τ)
    (unseen : ∀ engine counter, view (engine.setCounter counter) = view engine)
    (level : Nat) (currentTables nextTables : List Table) :
    Keeps (fun machine : Machine World Table => view machine.engine)
      (mergeInto platform level currentTables nextTables) := by
  refine (keeps_lift _).bind fun entries => ?_
  exact .ite (keeps_pure _) (keeps_get.bind fun machine => (keeps_lift _).bind fun targetSize =>
    keeps_createChunks platform view unseen _ _ _ _ _ _)

/-- Removing old files leaves the engine alone. -/
theorem keeps_deleteOldFiles (tables : List Table) :
    Keeps Machine.engine (deleteOldFiles platform tables) :=
  .forM fun _ => keeps_reportError (keeps_onWorld id _)

/-! ## Opening and closing -/

/-- Open one file of the directory; a file that cannot be opened is reported and
skipped. -/
def loadFile (found : List (Nat × Table)) (name : FileName) :
    Action World Table (List (Nat × Table)) := fun machine =>
  if hasSstExtension name then
    match parseLevelFromFilename name with
    | none => .ok found machine
    | some level =>
        match onWorld (platform.openTable name machine.engine.config.useMmap) machine with
        | .ok reader reached => .ok (found ++ [(level, reader)]) reached
        | .error (.error _) reached => .ok found reached
        | .error .panic reached => .error .panic reached
  else
    .ok found machine

/-- `entry(level).or_insert_with(Vec::new).push(reader)`, then a stable sort of each
level by creation time. -/
def levelsOf (ops : TableOps Table) (found : List (Nat × Table)) (level : Nat) :
    Option (List Table) :=
  let tables := (found.filter fun item => item.1 = level).map Prod.snd
  if tables.isEmpty then none
  else some (tables.insertionSort fun left right =>
    (ops.metadata left).createdAt ≤ (ops.metadata right).createdAt)

def loadSstables : Action World Table Unit := do
  let names ← onWorld platform.readDir
  let found ← names.foldlM (loadFile platform) []
  onEngine fun engine => { engine with sstables := levelsOf platform.toTableOps found }

/-- Open an engine on the directory of a world. -/
def openEngine (config : Config) (world : World) :
    EStateM.Result Fault (Machine World Table) Unit :=
  match config.validate with
  | .error message => .error (.error (.config message)) { engine := .fresh config, world }
  | .ok () => loadSstables platform { engine := .fresh config, world }

/-- close the storage engine; flush errors are reported and dropped -/
def close : Action World Table Unit := do
  let machine ← get
  if machine.engine.closed then
    pure ()
  else do
    onEngine fun engine => { engine with closed := true }
    onEngine fun engine => engine.setImmutable []
    machine.engine.immutableMemtables.forM fun memtable =>
      reportError (flushMemtable platform memtable)
    if machine.engine.memtable.count > 0 then
      reportError (flushMemtable platform machine.engine.memtable.makeImmutable)
    else
      pure ()

end Machine

/-- What happens to a running engine: a client's write call, or a turn of the background
task. -/
inductive Step where
  | write (call : Write)
  | background
  deriving DecidableEq, Repr

namespace Step

def run (platform : Platform World Table) : Step → Action World Table Unit
  | .write call => call.run platform
  | .background => Machine.backgroundCompaction platform

/-- One step after another, as long as they return `Ok`. -/
def runAll (platform : Platform World Table) (steps : List Step) : Action World Table Unit :=
  steps.forM (run platform)

/-- The write calls among the steps. -/
def writes (steps : List Step) : List Write :=
  steps.filterMap fun step =>
    match step with
    | .write call => some call
    | .background => none

end Step

end JustDb

import JustDb.Storage.Compaction
import JustDb.Storage.ReadPath

/-!
# What happens to a data directory

Calls of clients, turns of the background task, closes and reopenings, with what they can
change: compaction and flushes reach an engine only through its tables and its counter.
-/

namespace JustDb

open Stateful Machine

variable {World Table : Type}

/-- A write call, a turn of the background task, a close, or another engine opened on the
directory, whether or not the one before has been closed. -/
inductive Deed where
  | write (call : Write)
  | background
  | close
  | reopen (config : Config)
  deriving DecidableEq, Repr

namespace Deed

/-- An engine that does not open leaves the one before in place. -/
def run (platform : Platform World Table) : Deed → Action World Table Unit
  | .write call => call.run platform
  | .background => backgroundCompaction platform
  | .close => Machine.close platform
  | .reopen config => fun machine =>
      match openEngine platform config machine.world with
      | .ok _ reached => .ok () reached
      | .error fault reached => .error fault { machine with world := reached.world }

/-- The machine afterwards, whatever it returns. -/
def perform (platform : Platform World Table) (machine : Machine World Table) (deed : Deed) :
    Machine World Table :=
  final (deed.run platform machine)

end Deed

/-- No level is due for compaction. -/
structure StorageEngine.Settled (ops : TableOps Table) (engine : StorageEngine Table) : Prop where
  level0 : (engine.tables 0).length < engine.config.l0CompactionThreshold
  deeper : ∀ level ∈ List.range' 1 (engine.config.maxLevels - 2),
    engine.levelNeedsCompaction ops level = .ok false

instance (ops : TableOps Table) (engine : StorageEngine Table) : Decidable (engine.Settled ops) :=
  decidable_of_iff (_ ∧ _) ⟨fun both => ⟨both.1, both.2⟩, fun settled => ⟨settled.level0,
    settled.deeper⟩⟩

/-! ## What the tables do not matter to -/

namespace Machine

variable {platform : Platform World Table} {τ : Type} {view : StorageEngine Table → τ}

/-- A view of the engine that shows neither its tables nor its counter. -/
structure Blind (view : StorageEngine Table → τ) : Prop where
  counter : ∀ engine counter, view (engine.setCounter counter) = view engine
  level : ∀ engine level tables, view (engine.setLevel level tables) = view engine

theorem Blind.keeps_flushMemtable (blind : Blind view) (memtable : MemTable) :
    Keeps (fun machine : Machine World Table => view machine.engine)
      (flushMemtable platform memtable) := by
  refine keeps_get.bind fun machine => (keeps_onWorld view _).bind fun made => ?_
  cases made with
  | none => exact keeps_pure _
  | some table => exact keeps_onEngine fun engine => blind.level engine 0 _

theorem Blind.keeps_compactInto (blind : Blind view) (level : Nat) :
    Keeps (fun machine : Machine World Table => view machine.engine)
      (compactInto platform level) := by
  refine keeps_get.bind fun machine => .ite (keeps_pure _) ?_
  refine (keeps_mergeInto platform view blind.counter _ _ _).bind fun newTables => ?_
  refine Keeps.bind ?_ fun _ => fun machine => ?_
  · exact keeps_onEngine fun engine => (blind.level _ _ _).trans (blind.level _ _ _)
  · exact congrArg view (keeps_deleteOldFiles platform _ machine)

/-- The background task changes tables and the counter only. -/
theorem Blind.keeps_backgroundCompaction (blind : Blind view) :
    Keeps (fun machine : Machine World Table => view machine.engine)
      (backgroundCompaction platform) := by
  refine keeps_get.bind fun machine => .ite (keeps_reportError ?_) (keeps_pure _)
  refine keeps_get.bind fun machine => ?_
  have deeper : Keeps (fun machine : Machine World Table => view machine.engine)
      ((List.range' 1 (machine.engine.config.maxLevels - 2)).forM fun level => do
        let machine ← get
        let needed ← lift (machine.engine.levelNeedsCompaction platform.toTableOps level)
        if needed then compactLevel platform level else pure ()) :=
    .forM fun level => keeps_get.bind fun machine => (keeps_lift _).bind fun needed =>
      .ite (blind.keeps_compactInto level) (keeps_pure _)
  exact .ite ((blind.keeps_compactInto 0).bind fun _ => deeper) deeper

/-- A close sets its flag and takes the waiting memtables off the list; the flushes that
follow change tables only. -/
theorem Blind.view_close (blind : Blind view) {machine : Machine World Table}
    (running : machine.engine.closed = false) :
    view (final (close platform machine)).engine =
      view { machine.engine with closed := true, immutableMemtables := [] } := by
  let drained : StorageEngine Table :=
    { machine.engine with closed := true, immutableMemtables := [] }
  have flushes : ∀ memtable, Keeps (fun machine : Machine World Table => view machine.engine)
      (reportError (flushMemtable platform memtable)) :=
    fun memtable => keeps_reportError (blind.keeps_flushMemtable memtable)
  have closing : Keeps (fun machine : Machine World Table => view machine.engine) (do
      machine.engine.immutableMemtables.forM fun memtable =>
        reportError (flushMemtable platform memtable)
      if machine.engine.memtable.count > 0 then
        reportError (flushMemtable platform machine.engine.memtable.makeImmutable)
      else
        pure ()) :=
    (Keeps.forM flushes).bind fun _ => .ite (flushes _) (keeps_pure _)
  rw [close, bind_of_ok (get_apply machine), if_neg (by simp [running])]
  exact closing { machine with engine := drained }

/-- A turn of the background task that finds nothing to do. -/
theorem backgroundCompaction_of_settled {machine : Machine World Table}
    (settled : machine.engine.Settled platform.toTableOps) :
    backgroundCompaction platform machine = .ok () machine := by
  have idle : runCompaction platform machine = .ok () machine := by
    rw [runCompaction, bind_of_ok (get_apply machine)]
    dsimp only
    rw [if_neg (not_le.mpr settled.level0)]
    refine forM_of_unchanged_of_mem (fun level member => ?_)
    rw [bind_of_ok (get_apply machine)]
    exact bind_of_ok (lift_eq_ok.mpr ⟨settled.deeper level member, rfl⟩)
  rw [backgroundCompaction, bind_of_ok (get_apply machine)]
  split
  · rw [reportError, idle]
  · rfl

/-! ## What the background task keeps -/

section Invariant

variable {invariant : Machine World Table → Prop} {exit : Fault → Machine World Table → Prop}

/-- What the merge of a level into the next one keeps, the background task keeps. -/
theorem ensures_background
    (reported : ∀ failure machine, exit (.error failure) machine → invariant machine)
    (admitted : ∀ fault machine, invariant machine → exit fault machine)
    (compacts : ∀ level, Ensures invariant exit (compactInto platform level)) :
    Ensures invariant exit (backgroundCompaction platform) := by
  refine ensures_get_bind fun machine _ =>
    .ite (ensures_reportError reported ?_) (ensures_pure ())
  refine ensures_get_bind fun machine _ => ?_
  have deeper : Ensures invariant exit
      ((List.range' 1 (machine.engine.config.maxLevels - 2)).forM fun level => do
        let machine ← get
        let needed ← lift (machine.engine.levelNeedsCompaction platform.toTableOps level)
        if needed then compactLevel platform level else pure ()) :=
    Ensures.forM fun level _ => ensures_get_bind fun machine _ =>
      (ensures_lift fun fault _ _ => admitted fault _).bind fun needed =>
        .ite (compacts level) (ensures_pure ())
  exact .ite ((compacts 0).bind fun _ => deeper) deeper

/-- Reporting an error changes nothing. -/
theorem maintains_reportError {action : Action World Table Unit}
    (kept : Maintains invariant action) : Maintains invariant (reportError action) :=
  ensures_reportError (fun _ _ holds => holds) kept

theorem maintains_background
    (compacts : ∀ level, Maintains invariant (compactInto platform level)) :
    Maintains invariant (backgroundCompaction platform) :=
  ensures_background (fun _ _ holds => holds) (fun _ _ holds => holds) compacts

end Invariant

end Machine

/-! ## What is reported -/

namespace Machine

variable {platform : Platform World Table} {machine reached : Machine World Table} {fault : Fault}

/-- Where errors are reported, only panics remain. -/
theorem panics_reportError (action : Action World Table Unit) :
    Ensures (fun _ => True) (fun fault _ => fault = .panic) (reportError action) := by
  intro machine _
  rw [reportError]
  cases action machine with
  | ok _ reached => trivial
  | error fault reached => cases fault <;> trivial

/-- Errors of a close are only printed. -/
theorem panic_of_close (ran : close platform machine = .error fault reached) :
    fault = .panic := by
  have closing : Ensures (fun _ => True) (fun fault _ => fault = .panic) (close platform) := by
    refine ensures_get_bind fun machine _ => (ensures_pure ()).ite ?_
    exact Ensures.bind (ensures_modify fun _ _ => trivial) fun _ =>
      Ensures.bind (ensures_modify fun _ _ => trivial) fun _ =>
        Ensures.bind (.forM fun memtable _ => panics_reportError _) fun _ =>
          (panics_reportError _).ite (ensures_pure ())
  exact closing.of_error trivial ran

/-- Errors of the background task are only printed. -/
theorem panic_of_backgroundCompaction
    (ran : backgroundCompaction platform machine = .error fault reached) : fault = .panic := by
  have turn : Ensures (fun _ => True) (fun fault _ => fault = .panic)
      (backgroundCompaction platform) :=
    ensures_get_bind fun machine _ => (panics_reportError _).ite (ensures_pure ())
  exact turn.of_error trivial ran

end Machine

/-! ## Loading -/

namespace Machine

variable {platform : Platform World Table}

/-- What comes of loading a file: it is passed over, or opened under the level of its name;
an error is reported, and a panic ends the loading. -/
inductive Loads (platform : Platform World Table) (found : List (Nat × Table)) (name : FileName)
    (machine : Machine World Table) :
    EStateM.Result Fault (Machine World Table) (List (Nat × Table)) → Prop where
  | passed : Loads platform found name machine (.ok found machine)
  | opened {level reader reached} : parseLevelFromFilename name = some level →
      onWorld (platform.openTable name machine.engine.config.useMmap) machine =
        .ok reader reached →
      Loads platform found name machine (.ok (found ++ [(level, reader)]) reached)
  | reported {failure reached} :
      onWorld (platform.openTable name machine.engine.config.useMmap) machine =
        .error (.error failure) reached →
      Loads platform found name machine (.ok found reached)
  | panicked {reached} :
      onWorld (platform.openTable name machine.engine.config.useMmap) machine =
        .error .panic reached →
      Loads platform found name machine (.error .panic reached)

theorem loads_loadFile (platform : Platform World Table) (found : List (Nat × Table))
    (name : FileName) (machine : Machine World Table) :
    Loads platform found name machine (loadFile platform found name machine) := by
  cases sst : hasSstExtension name with
  | false =>
      simp only [loadFile, sst, Bool.false_eq_true, if_false]
      exact .passed
  | true =>
      cases parsed : parseLevelFromFilename name with
      | none =>
          simp only [loadFile, sst, parsed, if_true]
          exact .passed
      | some level =>
          simp only [loadFile, sst, parsed, if_true]
          cases ran : onWorld (platform.openTable name machine.engine.config.useMmap) machine with
          | ok reader reached => exact .opened parsed ran
          | error fault reached =>
              cases fault with
              | error failure => exact .reported ran
              | panic => exact .panicked ran

/-- What opening a table keeps, loading a file keeps. -/
theorem maintains_loadFile {invariant : Machine World Table → Prop}
    (opens : ∀ name mapped, Maintains invariant (onWorld (platform.openTable name mapped)))
    (found : List (Nat × Table)) (name : FileName) :
    Maintains invariant (loadFile platform found name) := by
  refine maintains_of_final fun machine holds => ?_
  have kept := (opens name machine.engine.config.useMmap).final holds
  have loads := loads_loadFile platform found name machine
  generalize loadFile platform found name machine = outcome at loads
  cases loads with
  | passed => exact holds
  | opened _ ran | reported ran | panicked ran =>
      rw [ran] at kept
      exact kept

/-- What opening a table leaves alone, loading a file leaves alone. -/
theorem keeps_loadFile {τ : Type} {view : Machine World Table → τ}
    (opens : ∀ name mapped, Keeps view (onWorld (platform.openTable name mapped)))
    (found : List (Nat × Table)) (name : FileName) :
    Keeps view (loadFile platform found name) := by
  intro machine
  have same : ∀ name mapped, Maintains (fun reached => view reached = view machine)
      (onWorld (platform.openTable name mapped)) :=
    fun name mapped => maintains_of_final fun reached equal =>
      (opens name mapped reached).trans equal
  exact (maintains_loadFile same found name).final rfl

end Machine

/-- The tables that loading puts at a level were found there. -/
theorem mem_of_mem_levelsOf {ops : TableOps Table} {found : List (Nat × Table)} {level : Nat}
    {table : Table} (member : table ∈ (levelsOf ops found level).getD []) :
    (level, table) ∈ found := by
  rw [levelsOf] at member
  split at member
  · cases member
  · rw [Option.getD_some, List.mem_insertionSort] at member
    obtain ⟨item, listed, rfl⟩ := List.mem_map.mp member
    obtain ⟨held, rfl⟩ : item ∈ found ∧ item.1 = level := by
      simpa using List.mem_filter.mp listed
    exact held

end JustDb

import JustDb.Storage.ClosedRecovery

/-!
# Process lives on one directory

A directory outlives the processes that open it.  Each process takes writes and closes its
engine or dies, and the next one finds what is left.  However many there are, what is read
in the end is what a prefix of the writes of each life has left, one life after the other.
-/

namespace JustDb

open Stateful Machine

namespace Directory

variable {host : Host} {config : Config} {directory : Directory}

/-- What a process does: it opens an engine, makes write calls until one fails, and may then
close the engine.  The schedule tells what becomes of its file operations. -/
structure Life where
  writes : List Write
  closes : Bool
  outcomes : List Outcome
  deriving DecidableEq, Repr

namespace Life

/-- The process opens an engine. -/
def start (host : Host) (config : Config) (directory : Directory) (life : Life) :
    EStateM.Result Fault (Machine Directory MemoryTable) Unit :=
  openEngine (platform host) config { directory with outcomes := life.outcomes }

/-- What it does with the engine. -/
def work (host : Host) (life : Life) : Action Directory MemoryTable Unit := do
  Write.runAll (platform host) life.writes
  if life.closes then close (platform host) else pure ()

/-- What the process returns, and the state in which it ends. -/
def run (host : Host) (config : Config) (directory : Directory) (life : Life) :
    EStateM.Result Fault (Machine Directory MemoryTable) Unit :=
  match life.start host config directory with
  | .ok _ opened => life.work host opened
  | .error fault reached => .error fault reached

/-- The directory that the process leaves. -/
def leave (host : Host) (config : Config) (directory : Directory) (life : Life) : Directory :=
  (final (life.run host config directory)).world

/-- The flushes of a process that has opened its engine find new names and later times.  If
it closes the engine, no file operation fails unless the process dies. -/
def OrderlyFrom (host : Host) (life : Life) :
    EStateM.Result Fault (Machine Directory MemoryTable) Unit → Prop
  | .ok _ opened =>
      Runs.Guarded (Timely host) (WriteBehind.after (Write.run (platform host))) opened
          life.writes ∧
        (life.closes = true → Outcome.failed ∉ life.outcomes ∧
          OnTime host (final (Write.runAll (platform host) life.writes opened))
            (closing (final (Write.runAll (platform host) life.writes opened)).engine))
  | .error _ _ => True

instance (host : Host) (life : Life) :
    ∀ result, Decidable (life.OrderlyFrom host result)
  | .ok _ _ => inferInstanceAs (Decidable (_ ∧ (_ → _ ∧ _)))
  | .error _ _ => inferInstanceAs (Decidable True)

def Orderly (host : Host) (config : Config) (directory : Directory) (life : Life) : Prop :=
  life.OrderlyFrom host (life.start host config directory)

instance (host : Host) (config : Config) (directory : Directory) (life : Life) :
    Decidable (life.Orderly host config directory) :=
  inferInstanceAs (Decidable (life.OrderlyFrom host _))

/-- Opening an engine leaves the files as they are, whether or not it returns `Ok`. -/
theorem files_start (host : Host) (config : Config) (directory : Directory) (life : Life) :
    (final (life.start host config directory)).world.files = directory.files := by
  have loads : Keeps (fun machine : Machine Directory MemoryTable => machine.world.files)
      (loadSstables (platform host)) := by
    refine Keeps.bind (fun _ => rfl) fun names => Keeps.bind ?_ fun _ => fun _ => rfl
    refine Keeps.foldlM (fun found name machine => ?_) []
    have kept := (maintains_loadFile (maintains_reading host machine.engine machine.world.files
      machine.world.outcomes) found name).final ⟨rfl, rfl, List.suffix_rfl⟩
    exact kept.2.1
  rw [start, openEngine]
  cases config.validate with
  | error message => rfl
  | ok _ => exact loads _

/-- A process makes a prefix of its writes recoverable, and all of them if it closes its
engine and nothing stops it. -/
theorem exists_recoverable (life : Life) (dated : Dated directory.files)
    (orderly : life.Orderly host config directory) :
    ∃ kept, kept <+: life.writes ∧
      (life.closes = true → succeeded (life.run host config directory) = true →
        kept = life.writes) ∧
      Recoverable directory.files kept (life.leave host config directory).files := by
  rw [Orderly] at orderly
  rw [leave, run]
  cases opening : life.start host config directory with
  | error fault reached =>
      have files := files_start host config directory life
      rw [opening] at files
      have files : reached.world.files = directory.files := files
      refine ⟨[], List.nil_prefix, fun _ => Bool.noConfusion, ?_⟩
      rw [final_error, files]
      exact recoverable_nil dated
  | ok _ opened =>
      rw [opening] at orderly
      obtain ⟨timely, closing⟩ := orderly
      let scheduled : Directory := { directory with outcomes := life.outcomes }
      have opening : openEngine (platform host) config scheduled = .ok () opened := opening
      have dated : Dated scheduled.files := dated
      dsimp only
      rw [work]
      by_cases closes : life.closes = true
      · obtain ⟨reliable, onTime⟩ := closing closes
        obtain ⟨kept, first, whole, recoverable⟩ :=
          exists_recoverable_closed dated reliable opening timely onTime
        rw [if_pos closes]
        exact ⟨kept, first, fun _ => whole, recoverable⟩
      · obtain ⟨kept, first, recoverable, -⟩ := (recorder host scheduled.files).stopped
          (logged_of_openEngine dated opening) timely
        rw [List.nil_append] at first recoverable
        have left : final ((do
            Write.runAll (platform host) life.writes
            if life.closes then close (platform host) else pure ()) opened) =
            final (Write.runAll (platform host) life.writes opened) := by
          rw [if_neg closes]
          exact final_bind_pure _ (fun _ => ()) opened
        rw [left]
        exact ⟨kept, first, fun closing => absurd closing closes, recoverable⟩

end Life

/-- Writes that some lives leave: a prefix of those of each life, one life after the other, and
all of a life that ends with a `close` that returns. -/
def Survives (host : Host) (config : Config) : Directory → List Life → List Write → Prop
  | _, [], kept => kept = []
  | directory, life :: lives, kept =>
      ∃ first rest, kept = first ++ rest ∧ first <+: life.writes ∧
        (life.closes = true → succeeded (life.run host config directory) = true →
          first = life.writes) ∧
        Survives host config (life.leave host config directory) lives rest

/-- Whatever processes do on a directory one after another, and wherever each of them stops,
what is read in the end is what a prefix of the writes of each life has left. -/
theorem lives_recover {lives : List Life} {reads : Key → Result (Option Value)}
    (valid : config.validate = .ok ()) (dated : Dated directory.files)
    (earlier : Restarts host config directory reads)
    (orderly : Runs.Guarded (fun directory life => Life.Orderly host config directory life)
      (Life.leave host config) directory lives) :
    ∃ kept, Survives host config directory lives kept ∧
      Restarts host config (Runs.run (Life.leave host config) directory lives)
        (Write.overlay kept reads) := by
  induction lives generalizing directory reads with
  | nil => exact ⟨[], rfl, earlier⟩
  | cons life lives ih =>
      obtain ⟨first, oldest, whole, recoverable⟩ := life.exists_recoverable dated orderly.1
      obtain ⟨rest, survives, reading⟩ := ih (recoverable.dated dated)
        (recoverable.restarts dated valid earlier) orderly.2
      refine ⟨first ++ rest, ⟨first, rest, rfl, oldest, whole, survives⟩, ?_⟩
      rwa [Runs.run_cons, Write.overlay_append]

/-- A process that dies while its fourth write makes a flush, one that closes its engine, and
one that dies while it closes. -/
def threeLives : List Life :=
  [{ writes := fourWrites, closes := false, outcomes := [.done, .done, .done, .crashed] },
   { writes := [.put [4] [50], .put [1] [60]], closes := true, outcomes := [] },
   { writes := [.put [2] [70], .delete [4]], closes := true,
     outcomes := [.done, .done, .done, .done, .done, .done, .crashed] }]

theorem lives_recover_threeLives :
    ∃ kept, Survives secondsHost MemoryWorld.smallConfig (oneTable []) threeLives kept ∧
      Restarts secondsHost MemoryWorld.smallConfig
        (Runs.run (Life.leave secondsHost MemoryWorld.smallConfig) (oneTable []) threeLives)
        (Write.overlay kept (tableReads [])) :=
  lives_recover (by decide +kernel) (by decide +kernel) (restarts_oneTable _) (by decide +kernel)

end Directory

end JustDb

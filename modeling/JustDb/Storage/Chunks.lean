import JustDb.Storage.Compaction
import JustDb.Library.Pieces

/-!
# The tables of a level

`create_sstables_for_level` cuts the merged entries greedily by their sizes and makes
one table of each piece.  This holds on every platform; what a table says about its
piece is the platform's business.
-/

namespace JustDb

open Stateful Machine

variable {World Table : Type} {platform : Platform World Table}

/-- The pieces into which a list of entries is cut for a target size. -/
def chunksOf (targetSize : Nat) (entries : List Entry) : List (List Entry) :=
  Pieces.cut Entry.size targetSize entries []

theorem flatten_chunksOf (targetSize : Nat) (entries : List Entry) :
    (chunksOf targetSize entries).flatten = entries := by
  rw [chunksOf, Pieces.flatten_cut, List.nil_append]

theorem ne_nil_of_mem_chunksOf {targetSize : Nat} {entries chunk : List Entry}
    (member : chunk ∈ chunksOf targetSize entries) : chunk ≠ [] :=
  Pieces.ne_nil_of_mem_cut member

theorem fits_of_mem_chunksOf {targetSize : Nat} {entries chunk : List Entry}
    (member : chunk ∈ chunksOf targetSize entries) :
    chunk.length ≤ 1 ∨ (chunk.map Entry.size).sum ≤ targetSize :=
  Pieces.fits_of_mem_cut (.inl (Nat.zero_le _)) member

/-- A chunk of ascending entries ascends. -/
theorem Ascending.of_mem_chunksOf {targetSize : Nat} {entries chunk : List Entry}
    (ascending : Ascending entries) (member : chunk ∈ chunksOf targetSize entries) :
    Ascending chunk := by
  rw [← flatten_chunksOf targetSize entries] at ascending
  exact (List.pairwise_flatten.mp ascending).1 chunk member

/-- A table that the platform made of some entries. -/
def Platform.MadeOf (platform : Platform World Table) (config : Config) (entries : List Entry)
    (table : Table) : Prop :=
  ∃ path world reached, platform.makeTable config path entries world = .ok table reached

namespace Machine

/-- Making a table uses up a sequence number of the engine and nothing else. -/
theorem createSstable_eq_ok {level : Nat} {entries : List Entry}
    {machine reached : Machine World Table} {table : Table}
    (ran : createSstable platform level entries machine = .ok table reached) :
    (∃ counter, reached.engine = machine.engine.setCounter counter) ∧
      platform.MadeOf machine.engine.config entries table := by
  obtain ⟨micros, timed, clock, ran⟩ := bind_eq_ok.mp ran
  obtain ⟨sequence, numbered, next, ran⟩ := bind_eq_ok.mp ran
  obtain ⟨_, _, got, ran⟩ := bind_eq_ok.mp ran
  cases got
  obtain ⟨world, made, rfl⟩ := onWorld_eq_ok.mp ran
  obtain ⟨world', _, rfl⟩ := onWorld_eq_ok.mp clock
  cases next
  exact ⟨⟨_, rfl⟩, _, _, _, made⟩

/-- What comes of making a table of each of some pieces, behind the tables made so far: all
are made, the first failure ends it, or the sizes add up to more than a machine word. -/
inductive MakesEach (platform : Platform World Table) (level : Nat) :
    (pieces : List (List Entry)) → (sstables : List Table) → Machine World Table →
      EStateM.Result Fault (Machine World Table) (List Table) → Prop where
  | done {sstables machine} : MakesEach platform level [] sstables machine (.ok sstables machine)
  | overflowed {pieces sstables machine} :
      wordSize ≤ Pieces.total Entry.size pieces.flatten →
      MakesEach platform level pieces sstables machine (.error .panic machine)
  | failed {piece pieces sstables machine fault reached} :
      createSstable platform level piece machine = .error fault reached →
      MakesEach platform level (piece :: pieces) sstables machine (.error fault reached)
  | made {piece pieces sstables machine table middle outcome} :
      createSstable platform level piece machine = .ok table middle →
      MakesEach platform level pieces (sstables ++ [table]) middle outcome →
      MakesEach platform level (piece :: pieces) sstables machine outcome

/-- One piece, and what follows it. -/
theorem MakesEach.cons {level : Nat} {piece : List Entry} {pieces : List (List Entry)}
    {sstables : List Table} {machine : Machine World Table}
    {next : Table → Action World Table (List Table)}
    (later : ∀ table middle, createSstable platform level piece machine = .ok table middle →
      MakesEach platform level pieces (sstables ++ [table]) middle (next table middle)) :
    MakesEach platform level (piece :: pieces) sstables machine
      ((createSstable platform level piece >>= next) machine) := by
  cases ran : createSstable platform level piece machine with
  | ok table middle =>
      rw [bind_of_ok ran]
      exact .made ran (later table middle ran)
  | error fault reached =>
      rw [bind_of_error ran]
      exact .failed ran

/-- The loop makes one table of each piece, in order. -/
theorem makesEach_createChunks {level targetSize : Nat} {entries current : List Entry}
    {currentSize : Nat} {sstables : List Table} {machine : Machine World Table}
    (counted : currentSize = Pieces.total Entry.size current) :
    MakesEach platform level (Pieces.cut Entry.size targetSize entries current) sstables machine
      (createChunks platform level targetSize entries current currentSize sstables machine) := by
  induction entries generalizing current currentSize sstables machine with
  | nil =>
      rw [createChunks, Pieces.cut]
      split
      · exact .done
      · exact .cons fun _ _ _ => .done
  | cons entry entries ih =>
      rw [createChunks]
      cases sum : checkedAdd currentSize entry.size with
      | error fault =>
          rw [bind_of_error (lift_error _ _), checkedAdd_eq_error sum]
          have overflows : wordSize ≤ Pieces.total Entry.size current + entry.size := by
            rw [← counted, ← not_lt]
            intro room
            rw [checkedAdd, if_pos room] at sum
            cases sum
          apply MakesEach.overflowed
          rw [Pieces.flatten_cut, Pieces.total_append, Pieces.total_cons, ← Nat.add_assoc]
          exact overflows.trans (Nat.le_add_right _ _)
      | ok grown =>
          have total : Pieces.total Entry.size current + entry.size = grown := by
            rw [← counted]
            exact (checkedAdd_eq_ok.mp sum).2
          rw [Pieces.cut, total, bind_of_ok (lift_ok _ _)]
          split
          · exact .cons fun _ _ _ => ih (Pieces.total_singleton Entry.size entry).symm
          · apply ih
            rw [Pieces.total_append_singleton, total]

/-- Where all tables are made, they are made of the pieces in order. -/
theorem MakesEach.made_of_ok {level : Nat} {pieces : List (List Entry)}
    {sstables tables : List Table} {machine reached : Machine World Table}
    (makes : MakesEach platform level pieces sstables machine (.ok tables reached)) :
    (∃ counter, reached.engine = machine.engine.setCounter counter) ∧
      ∃ made, tables = sstables ++ made ∧
        List.Forall₂ (platform.MadeOf machine.engine.config) pieces made := by
  generalize returned : EStateM.Result.ok tables reached = outcome at makes
  induction makes with
  | done =>
      cases returned
      exact ⟨⟨_, rfl⟩, [], (List.append_nil _).symm, .nil⟩
  | overflowed | failed => cases returned
  | @made piece pieces sstables machine table middle outcome created later ih =>
      obtain ⟨⟨counter, kept⟩, made⟩ := createSstable_eq_ok created
      obtain ⟨⟨last, finally_⟩, others, listed, each⟩ := ih returned
      refine ⟨⟨last, by rw [finally_, kept, StorageEngine.setCounter_setCounter]⟩,
        table :: others, ?_, .cons made ?_⟩
      · rw [listed, List.append_assoc, List.singleton_append]
      · rwa [kept] at each

/-- `create_sstables_for_level` makes one table of each chunk, in order. -/
theorem createSstablesForLevel_eq_ok {level : Nat} {entries : List Entry} {tables : List Table}
    {machine reached : Machine World Table}
    (ran : createSstablesForLevel platform level entries machine = .ok tables reached) :
    (∃ counter, reached.engine = machine.engine.setCounter counter) ∧
      ∃ targetSize, (entries ≠ [] → machine.engine.config.targetSize level = .ok targetSize) ∧
        List.Forall₂ (platform.MadeOf machine.engine.config) (chunksOf targetSize entries)
          tables := by
  rw [createSstablesForLevel] at ran
  split at ran
  next empty =>
    cases ran
    rw [List.isEmpty_iff.mp empty]
    exact ⟨⟨_, rfl⟩, 0, fun nonempty => absurd rfl nonempty, .nil⟩
  next =>
    obtain ⟨_, _, got, ran⟩ := bind_eq_ok.mp ran
    cases got
    obtain ⟨targetSize, middle, sized, ran⟩ := bind_eq_ok.mp ran
    obtain ⟨target, rfl⟩ := lift_eq_ok.mp sized
    have makes : MakesEach platform level (chunksOf targetSize entries) [] machine
        (.ok tables reached) := ran ▸ makesEach_createChunks rfl
    obtain ⟨counter, made, listed, each⟩ := makes.made_of_ok
    refine ⟨counter, targetSize, fun _ => target, ?_⟩
    rw [listed]
    exact each

/-- The tables made under a given target size. -/
theorem madeOf_of_createSstablesForLevel {level targetSize : Nat} {entries : List Entry}
    {tables : List Table} {machine reached : Machine World Table}
    (target : machine.engine.config.targetSize level = .ok targetSize)
    (ran : createSstablesForLevel platform level entries machine = .ok tables reached) :
    List.Forall₂ (platform.MadeOf machine.engine.config) (chunksOf targetSize entries)
      tables := by
  obtain ⟨_, size, sized, made⟩ := createSstablesForLevel_eq_ok ran
  by_cases empty : entries = []
  · rw [empty] at made ⊢
    exact made
  · cases target.symm.trans (sized empty)
    exact made

end Machine

end JustDb

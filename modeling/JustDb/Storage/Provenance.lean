import JustDb.Storage.Deeds
import JustDb.Storage.Chunks
import JustDb.Storage.CompactionReads
import JustDb.Storage.ScanReads
import JustDb.Storage.CleanShutdown
import JustDb.Library.Runs

/-!
# Where values come from

An entry is made by a write that has passed its checks, and from then on it is only
copied: from memtable to table file, from file to table, from tables through a merge to
other files.  So over the whole life of a data directory, with failing calls, crashes and
reopenings, what a read returns has been put there by a call that returned `Ok`.  A build
that panics leaves a file of which nothing is known: until the directory is opened again
no read sees it.
-/

namespace JustDb

open Stateful Machine

variable {World Table : Type}

/-! ## Tables that invent nothing -/

/-- All entries that a table shows are genuine, and shown under their keys. -/
structure TableOps.Shows (ops : TableOps Table) (genuine : Entry → Prop) (table : Table) :
    Prop where
  get : ∀ key entry, ops.get table key = .ok (some entry) → entry.key = key ∧ genuine entry
  range : ∀ start stop entries, ops.range table start stop = .ok entries →
    ∀ entry ∈ entries, genuine entry
  iter : ∀ entry, .ok entry ∈ ops.iter table → genuine entry

theorem TableOps.Shows.weaken {ops : TableOps Table} {genuine other : Entry → Prop}
    {table : Table} (shows : ops.Shows genuine table)
    (implies : ∀ entry, genuine entry → other entry) : ops.Shows other table where
  get := fun key entry found => (shows.get key entry found).imp_right (implies entry)
  range := fun start stop entries found entry listed =>
    implies entry (shows.range start stop entries found entry listed)
  iter := fun entry listed => implies entry (shows.iter entry listed)

/-- A table that has been built and opened shows the entries that it was built from and no
others.  Nothing is asked of a build that fails. -/
def Platform.Candid (platform : Platform World Table) : Prop :=
  ∀ (genuine : Entry → Prop) config path entries world reader reached,
    entries ≠ [] → Ascending entries → (∀ entry ∈ entries, genuine entry) →
    platform.makeTable config path entries world = .ok reader reached →
    platform.toTableOps.Shows genuine reader

/-- What the tables that are made show, and the files of a directory: `sound` says that the
files show genuine entries only. -/
structure Platform.Copies (platform : Platform World Table)
    (sound : (Entry → Prop) → World → Prop) : Prop where
  weaken : ∀ {genuine other : Entry → Prop} {world}, (∀ entry, genuine entry → other entry) →
    sound genuine world → sound other world
  clock : ∀ genuine, Upholds (sound genuine) platform.currentMicros
  make : ∀ genuine config path entries, entries ≠ [] → Ascending entries →
    (∀ entry ∈ entries, genuine entry) →
      Provides (sound genuine) (platform.toTableOps.Shows genuine)
        (platform.makeTable config path entries)
  remove : ∀ genuine path, Upholds (sound genuine) (platform.removeFile path)

/-- A platform whose files, also those that a build which returned an error has left, show
the entries that they were built from and no others.  Nothing is asked of a build that
panics. -/
structure Platform.Honest (platform : Platform World Table)
    (sound : (Entry → Prop) → World → Prop) : Prop where
  weaken : ∀ {genuine other : Entry → Prop} {world}, (∀ entry, genuine entry → other entry) →
    sound genuine world → sound other world
  clock : ∀ genuine, Upholds (sound genuine) platform.currentMicros
  build : ∀ genuine config path entries, entries ≠ [] → Ascending entries →
    (∀ entry ∈ entries, genuine entry) →
      Upholds (sound genuine) (platform.buildFromVec config path entries)
  open_ : ∀ genuine path mapped,
    Provides (sound genuine) (platform.toTableOps.Shows genuine) (platform.openTable path mapped)
  remove : ∀ genuine path, Upholds (sound genuine) (platform.removeFile path)
  list : ∀ genuine, Upholds (sound genuine) platform.readDir

theorem Platform.Honest.copies {platform : Platform World Table}
    {sound : (Entry → Prop) → World → Prop} (honest : platform.Honest sound) :
    platform.Copies sound where
  weaken := honest.weaken
  clock := honest.clock
  make := fun genuine config path entries nonempty ascending origin =>
    (honest.build genuine config path entries nonempty ascending origin).yields.bind fun _ _ =>
      honest.open_ genuine path config.useMmap
  remove := honest.remove

/-- What is in the files does not matter as long as the directory is not opened again. -/
theorem Platform.Candid.copies {platform : Platform World Table}
    (candid : platform.Candid) : platform.Copies fun _ _ => True where
  weaken := fun _ _ => trivial
  clock := fun _ _ _ => trivial
  make := by
    intro genuine config path entries nonempty ascending origin world _
    cases ran : platform.makeTable config path entries world with
    | ok reader reached =>
        exact ⟨trivial, candid genuine config path entries world reader reached nonempty
          ascending origin ran⟩
    | error fault reached => exact fun _ => trivial
  remove := by
    intro genuine path world _
    cases platform.removeFile path world with
    | ok _ reached => trivial
    | error fault reached => exact fun _ => trivial

/-! ## Histories -/

/-- A machine, and the pairs that calls which returned `Ok` have put so far. -/
structure History (World Table : Type) where
  machine : Machine World Table
  puts : List (Key × Value)

/-- The pair that a write call puts. -/
def Write.pair : Write → List (Key × Value)
  | .put key value => [(key, value)]
  | .delete _ => []

theorem Write.mem_pair {write : Write} {value : Value} (puts : write.value = some value) :
    (write.key, value) ∈ write.pair := by
  cases write with
  | put key other =>
      cases puts
      exact List.mem_singleton_self _
  | delete key => cases puts

/-- A deed that does not panic. -/
abbrev Deed.Calm (platform : Platform World Table) (machine : Machine World Table)
    (deed : Deed) : Prop :=
  panicked (deed.run platform machine) = false

namespace History

/-- What happens, whatever it returns. -/
def step (platform : Platform World Table) (history : History World Table) (deed : Deed) :
    History World Table :=
  let ran := deed.run platform history.machine
  { machine := final ran
    puts := history.puts ++
      match deed with
      | .write call => if succeeded ran then call.pair else []
      | .background | .close | .reopen _ => [] }

end History

/-! ## Genuine machines -/

/-- A value of the entry is among some pairs, under its key. -/
def Entry.From (pairs : List (Key × Value)) (entry : Entry) : Prop :=
  ∀ value, entry.value = some value → (entry.key, value) ∈ pairs

theorem Entry.From.append {pairs : List (Key × Value)} {entry : Entry} (origin : entry.From pairs)
    (more : List (Key × Value)) : entry.From (pairs ++ more) :=
  fun value held => List.mem_append_left more (origin value held)

/-- All entries of a memtable are genuine. -/
def MemTable.Holds (genuine : Entry → Prop) (memtable : MemTable) : Prop :=
  ∀ key entry, memtable.get key = some entry → genuine entry

/-- Memtables, tables and files have genuine entries only. -/
structure Machine.Genuine (ops : TableOps Table) (sound : (Entry → Prop) → World → Prop)
    (genuine : Entry → Prop) (machine : Machine World Table) : Prop where
  memtable : machine.engine.memtable.Holds genuine
  immutable : ∀ memtable ∈ machine.engine.immutableMemtables, memtable.Holds genuine
  tables : ∀ level, ∀ table ∈ machine.engine.tables level, ops.Shows genuine table
  world : sound genuine machine.world

namespace Machine

variable {platform : Platform World Table} {sound : (Entry → Prop) → World → Prop}
  {genuine : Entry → Prop}

/-- What a failure leaves of a genuine machine: after a panic nothing is known of its files. -/
def GenuineAfter (ops : TableOps Table) (sound : (Entry → Prop) → World → Prop)
    (genuine : Entry → Prop) (fault : Fault) : Machine World Table → Prop :=
  Genuine ops (fun genuine world => fault ≠ .panic → sound genuine world) genuine

theorem Genuine.after {ops : TableOps Table} {machine : Machine World Table}
    (holds : Genuine ops sound genuine machine) (fault : Fault) :
    GenuineAfter ops sound genuine fault machine :=
  ⟨holds.memtable, holds.immutable, holds.tables, fun _ => holds.world⟩

theorem GenuineAfter.of_ne_panic {ops : TableOps Table} {machine : Machine World Table}
    {fault : Fault} (left : GenuineAfter ops sound genuine fault machine)
    (calm : fault ≠ .panic) : Genuine ops sound genuine machine :=
  ⟨left.memtable, left.immutable, left.tables, left.world calm⟩

/-- The engine stays genuine whatever becomes of the files. -/
theorem GenuineAfter.engine {ops : TableOps Table} {machine : Machine World Table}
    {fault : Fault} (left : GenuineAfter ops sound genuine fault machine) :
    Genuine ops (fun _ _ => True) genuine machine :=
  ⟨left.memtable, left.immutable, left.tables, trivial⟩

/-- The action keeps a machine genuine, but for the files when it panics. -/
abbrev Preserves {α : Type} (platform : Platform World Table)
    (sound : (Entry → Prop) → World → Prop) (genuine : Entry → Prop)
    (action : Action World Table α) : Prop :=
  Ensures (Genuine platform.toTableOps sound genuine)
    (GenuineAfter platform.toTableOps sound genuine) action

/-- The action keeps a machine genuine and returns a value with a property. -/
abbrev Produces {α : Type} (platform : Platform World Table)
    (sound : (Entry → Prop) → World → Prop) (genuine : Entry → Prop) (property : α → Prop)
    (action : Action World Table α) : Prop :=
  Yields (Genuine platform.toTableOps sound genuine)
    (GenuineAfter platform.toTableOps sound genuine) property action

theorem ne_panic_of_calm {σ α : Type} {fault : Fault} {reached : σ}
    (calm : panicked (.error fault reached : EStateM.Result Fault σ α) = false) :
    fault ≠ .panic := by
  rintro rfl
  cases calm

theorem Preserves.final {α : Type} {action : Action World Table α}
    (kept : Preserves platform sound genuine action) {machine : Machine World Table}
    (holds : Genuine platform.toTableOps sound genuine machine)
    (calm : panicked (action machine) = false) :
    Genuine platform.toTableOps sound genuine (final (action machine)) := by
  have left := kept machine holds
  cases ran : action machine with
  | ok value reached =>
      rw [ran] at left
      exact left
  | error fault reached =>
      rw [ran] at left calm
      exact GenuineAfter.of_ne_panic left (ne_panic_of_calm calm)

theorem Preserves.final_engine {α : Type} {action : Action World Table α}
    (kept : Preserves platform (fun _ _ => True) genuine action) {machine : Machine World Table}
    (holds : Genuine platform.toTableOps (fun _ _ => True) genuine machine) :
    Genuine platform.toTableOps (fun _ _ => True) genuine (Stateful.final (action machine)) := by
  have left := kept machine holds
  cases ran : action machine with
  | ok value reached =>
      rw [ran] at left
      exact left
  | error fault reached =>
      rw [ran] at left
      exact GenuineAfter.engine left

theorem preserves_reportError {action : Action World Table Unit}
    (kept : Preserves platform sound genuine action) :
    Preserves platform sound genuine (reportError action) :=
  ensures_reportError (fun _ _ left => GenuineAfter.of_ne_panic left nofun) kept

theorem Genuine.weaken (copies : platform.Copies sound) {other : Entry → Prop}
    {machine : Machine World Table} (holds : Genuine platform.toTableOps sound genuine machine)
    (implies : ∀ entry, genuine entry → other entry) :
    Genuine platform.toTableOps sound other machine where
  memtable := fun key entry found => implies _ (holds.memtable key entry found)
  immutable := fun memtable member key entry found =>
    implies _ (holds.immutable memtable member key entry found)
  tables := fun level table member => (holds.tables level table member).weaken implies
  world := copies.weaken implies holds.world

/-- What keeps the files of a directory sound keeps a machine genuine. -/
theorem produces_onWorld {α : Type} {property : α → Prop} {action : EStateM Fault World α}
    (provides : Provides (sound genuine) property action) :
    Produces platform sound genuine property (onWorld action) := by
  intro machine holds
  have kept := provides machine.world holds.world
  rw [onWorld]
  cases ran : action machine.world with
  | ok value world =>
      rw [ran] at kept
      exact ⟨⟨holds.memtable, holds.immutable, holds.tables, kept.1⟩, kept.2⟩
  | error fault world =>
      rw [ran] at kept
      exact ⟨holds.memtable, holds.immutable, holds.tables, kept⟩

/-- The tables that a flush makes of a genuine memtable are genuine. -/
theorem provides_flushTable (copies : platform.Copies sound) (config : Config)
    {memtable : MemTable} (holds : memtable.Holds genuine) :
    Provides (sound genuine) (fun made => ∀ table ∈ made, platform.toTableOps.Shows genuine table)
      (platform.flushTable config memtable) := by
  have origin : ∀ entry ∈ memtable.entryList, genuine entry :=
    fun entry member => holds entry.key entry (MemTable.mem_entryList.mp member)
  refine Yields.ite (fun _ => yields_pure nofun) fun nonempty => ?_
  refine (copies.clock genuine).yields.bind fun micros _ => ?_
  refine (copies.make genuine config _ _ (MemTable.entryList_ne_nil nonempty)
    memtable.entryList_ascending origin).bind fun reader shows => yields_pure ?_
  rintro table ⟨⟩
  exact shows

/-- Changes of the engine that make nothing up. -/
theorem preserves_onEngine {change : StorageEngine Table → StorageEngine Table}
    (kept : ∀ machine : Machine World Table, Genuine platform.toTableOps sound genuine machine →
      Genuine platform.toTableOps sound genuine { machine with engine := change machine.engine }) :
    Preserves platform sound genuine (onEngine change) :=
  fun machine holds => kept machine holds

/-- A table of level 0 more. -/
theorem Genuine.pushLevel0 {machine : Machine World Table}
    (holds : Genuine platform.toTableOps sound genuine machine) {table : Table}
    (shows : platform.toTableOps.Shows genuine table) :
    Genuine platform.toTableOps sound genuine
      { machine with engine := machine.engine.pushLevel0 table } where
  memtable := holds.memtable
  immutable := holds.immutable
  tables := by
    intro level other member
    simp only [StorageEngine.pushLevel0, StorageEngine.tables_setLevel] at member
    split at member
    · rcases List.mem_append.mp member with old | new
      · exact holds.tables 0 other old
      · rwa [List.mem_singleton.mp new]
    · exact holds.tables level other member
  world := holds.world

theorem preserves_flushMemtable (copies : platform.Copies sound) {memtable : MemTable}
    (held : memtable.Holds genuine) :
    Preserves platform sound genuine (flushMemtable platform memtable) := by
  have flushes : Produces platform sound genuine (fun _ => True)
      (flushMemtable platform memtable) := by
    refine yields_get_bind fun machine _ => ?_
    refine (produces_onWorld (provides_flushTable copies _ held)).bind fun made shows => ?_
    cases made with
    | none => exact yields_pure trivial
    | some table =>
        exact (preserves_onEngine fun machine holds => holds.pushLevel0 (shows table rfl)).yields
  exact flushes.ensures

theorem preserves_flushExcess (copies : platform.Copies sound) (fuel : Nat) :
    Preserves platform sound genuine (flushExcess platform fuel) := by
  induction fuel with
  | zero => exact ensures_pure ()
  | succ fuel ih =>
      refine ensures_get_bind fun machine holds => ?_
      split
      next => exact ensures_pure ()
      next oldest rest listed =>
        have held : ∀ memtable ∈ oldest :: rest, memtable.Holds genuine := by
          rw [← listed]
          exact holds.immutable
        have taken : Preserves platform sound genuine
            (onEngine fun engine => engine.setImmutable rest) :=
          preserves_onEngine fun machine holds => ⟨holds.memtable,
            fun memtable member => held memtable (List.mem_cons_of_mem _ member),
            holds.tables, holds.world⟩
        exact .ite (taken.bind fun _ =>
          (preserves_flushMemtable copies (held oldest List.mem_cons_self)).bind fun _ => ih)
          (ensures_pure ())

theorem preserves_rotateMemtable (copies : platform.Copies sound) :
    Preserves platform sound genuine (rotateMemtable platform) := by
  intro machine holds
  rw [rotateMemtable_apply]
  apply preserves_flushExcess copies
  refine ⟨fun key entry found => ?_, fun memtable member => ?_, holds.tables, holds.world⟩
  · change (MemTable.withSequence _ _).get key = some entry at found
    rw [MemTable.get_withSequence] at found
    cases found
  · rcases List.mem_append.mp member with waiting | last
    · exact holds.immutable memtable waiting
    · rw [List.mem_singleton.mp last]
      exact holds.memtable

theorem preserves_checkRotateMemtable (copies : platform.Copies sound) :
    Preserves platform sound genuine (checkRotateMemtable platform) :=
  ensures_get_bind fun _ _ => .ite (preserves_rotateMemtable copies) (ensures_pure ())

/-- A write makes one entry. -/
theorem preserves_writeMemtable (copies : platform.Copies sound) {key : Key}
    {value : Option Value} (made : ∀ entry : Entry, entry.key = key → entry.value = value →
      genuine entry) :
    Preserves platform sound genuine (writeMemtable platform key value) := by
  refine (produces_onWorld (copies.clock genuine).yields).ensures.bind fun micros => ?_
  intro machine holds
  rw [bind_eq, get_apply]
  cases ran : machine.engine.memtable.write key value micros.toUInt64 with
  | error fault =>
      simp only [ran, lift_error, bind_eq]
      exact holds.after fault
  | ok written =>
      simp only [ran, lift_ok, bind_eq, onEngine_apply]
      refine ⟨fun other entry found => ?_, holds.immutable, holds.tables, holds.world⟩
      rw [StorageEngine.memtable_setMemtable, MemTable.get_write ran] at found
      split at found
      · cases found
        exact made _ rfl rfl
      · exact holds.memtable other entry found

/-! ## Merges -/

/-- A merge lists entries that the tables show. -/
theorem genuine_mergeSstables {ops : TableOps Table} {tables1 tables2 : List Table}
    {merged : List Entry} (shows : ∀ table ∈ tables1 ++ tables2, ops.Shows genuine table)
    (ran : StorageEngine.mergeSstables ops tables1 tables2 = .ok merged) :
    ∀ entry ∈ merged, genuine entry := by
  obtain ⟨kept, folded, returned⟩ := Result.bind_eq_ok.mp ran
  cases returned
  let Origin (kept : Newest.Table Key Entry) : Prop :=
    ∀ key entry, kept.lookup key = some entry → genuine entry
  have absorbed : ∀ before item after, (∀ entry, item = .ok entry → genuine entry) →
      Origin before → StorageEngine.absorbEntry before item = .ok after → Origin after := by
    intro before item after shown held stepped key entry found
    obtain ⟨arrived, returned, stored⟩ := Result.bind_eq_ok.mp stepped
    cases stored
    by_cases same : key = arrived.key
    · subst same
      rw [Newest.absorb_lookup_self, Option.some.injEq] at found
      subst found
      cases earlier : before.lookup arrived.key with
      | none => exact shown arrived returned
      | some old =>
          dsimp only
          split
          · exact held _ old earlier
          · exact shown arrived returned
    · rw [Newest.absorb_lookup_ne _ _ _ same] at found
      exact held key entry found
  have listed : ∀ before, ∀ table ∈ tables1 ++ tables2, ∀ after, Origin before →
      (ops.iter table).foldlM StorageEngine.absorbEntry before = .ok after → Origin after :=
    fun before table member after held ran => Result.foldlM_invariant_of_mem
      (fun before item shown after => absorbed before item after fun entry equal =>
        (shows table member).iter entry (equal ▸ shown)) held ran
  have none : Origin ∅ := by
    intro key entry found
    rw [AList.lookup_empty] at found
    cases found
  have origin : Origin kept := Result.foldlM_invariant_of_mem listed none folded
  intro entry member
  rw [List.mem_insertionSort, List.mem_filter] at member
  obtain ⟨item, listed, rfl⟩ := List.mem_map.mp member.1
  exact origin item.1 item.2 (AList.mem_lookup_iff.mpr listed)

theorem preserves_nextSequence :
    Preserves platform sound genuine
      (nextSequence : Action World Table SequenceNumber) :=
  ensures_get_bind fun _ _ => (preserves_onEngine fun _ holds =>
    ⟨holds.memtable, holds.immutable, holds.tables, holds.world⟩).bind fun _ => ensures_pure _

theorem produces_createSstable (copies : platform.Copies sound) (level : Nat)
    {entries : List Entry} (nonempty : entries ≠ []) (ascending : Ascending entries)
    (origin : ∀ entry ∈ entries, genuine entry) :
    Produces platform sound genuine (platform.toTableOps.Shows genuine)
      (createSstable platform level entries) :=
  (produces_onWorld (copies.clock genuine).yields).bind fun _ _ =>
    preserves_nextSequence.yields.bind fun _ _ => yields_get_bind fun _ _ =>
      produces_onWorld (copies.make genuine _ _ _ nonempty ascending origin)

theorem produces_createChunks (copies : platform.Copies sound) (level targetSize : Nat)
    {entries current : List Entry} {currentSize : Nat} {sstables : List Table}
    (ascending : Ascending (current ++ entries))
    (origin : ∀ entry ∈ current ++ entries, genuine entry)
    (shows : ∀ table ∈ sstables, platform.toTableOps.Shows genuine table) :
    Produces platform sound genuine
      (fun made => ∀ table ∈ made, platform.toTableOps.Shows genuine table)
      (createChunks platform level targetSize entries current currentSize sstables) := by
  have more : ∀ {sstables : List Table},
      (∀ table ∈ sstables, platform.toTableOps.Shows genuine table) →
        ∀ table, platform.toTableOps.Shows genuine table →
          ∀ other ∈ sstables ++ [table], platform.toTableOps.Shows genuine other := by
    intro sstables shows table made other member
    rcases List.mem_append.mp member with old | new
    · exact shows other old
    · rwa [List.mem_singleton.mp new]
  induction entries generalizing current currentSize sstables with
  | nil =>
      rw [createChunks]
      refine Yields.ite (fun _ => yields_pure shows) fun pending => ?_
      rw [List.append_nil] at ascending origin
      exact (produces_createSstable copies level (by simpa using pending) ascending origin).bind
        fun table made => yields_pure (more shows table made)
  | cons entry entries ih =>
      rw [createChunks]
      have currentOrigin : ∀ entry ∈ current, genuine entry :=
        fun entry member => origin entry (List.mem_append_left _ member)
      have restOrigin : ∀ other ∈ [entry] ++ entries, genuine other :=
        fun other member => origin other (List.mem_append_right _ member)
      have counted : Produces platform sound genuine (fun _ => True)
          (lift (checkedAdd currentSize entry.size) : Action World Table Nat) :=
        yields_lift (fun _ _ _ _ => trivial) fun fault _ _ holds => holds.after fault
      obtain ⟨currentAscending, restAscending, -⟩ := List.pairwise_append.mp ascending
      refine counted.bind fun grown _ => Yields.ite (fun full => ?_) fun _ => ?_
      · exact (produces_createSstable copies level (by simpa using full.2) currentAscending
          currentOrigin).bind fun table made =>
            ih restAscending restOrigin (more shows table made)
      · rw [← List.singleton_append, ← List.append_assoc] at ascending origin
        exact ih ascending origin shows

theorem produces_mergeInto (copies : platform.Copies sound) (level : Nat)
    {currentTables nextTables : List Table}
    (shows : ∀ table ∈ currentTables ++ nextTables, platform.toTableOps.Shows genuine table) :
    Produces platform sound genuine
      (fun made => ∀ table ∈ made, platform.toTableOps.Shows genuine table)
      (mergeInto platform level currentTables nextTables) := by
  have merging : Produces platform sound genuine
      (fun merged => Ascending merged ∧ ∀ entry ∈ merged, genuine entry)
      (lift (StorageEngine.mergeSstables platform.toTableOps currentTables nextTables)) :=
    yields_lift (fun _ _ _ ran =>
        ⟨StorageEngine.mergeSstables_ascending ran, genuine_mergeSstables shows ran⟩)
      fun fault _ _ holds => holds.after fault
  refine merging.bind fun entries merged => ?_
  refine Yields.ite (fun _ => yields_pure nofun) fun _ => yields_get_bind fun machine _ => ?_
  have sized : Produces platform sound genuine (fun _ => True)
      (lift (machine.engine.config.targetSize (level + 1)) : Action World Table Nat) :=
    yields_lift (fun _ _ _ _ => trivial) fun fault _ _ holds => holds.after fault
  exact sized.bind fun targetSize _ =>
    produces_createChunks copies _ _ merged.1 merged.2 nofun

/-- The new tables in the place of the old ones. -/
theorem preserves_swapIn (level : Nat) {tables : List Table}
    (shows : ∀ table ∈ tables, platform.toTableOps.Shows genuine table) :
    Preserves platform sound genuine
      (swapIn level tables : Action World Table Unit) := by
  refine preserves_onEngine fun machine holds =>
    ⟨holds.memtable, holds.immutable, fun other table member => ?_, holds.world⟩
  simp only [StorageEngine.tables_setLevel] at member
  split at member
  · exact shows table member
  · split at member
    · cases member
    · exact holds.tables other table member

theorem preserves_compactInto (copies : platform.Copies sound) (level : Nat) :
    Preserves platform sound genuine (compactInto platform level) := by
  refine ensures_get_bind fun machine holds => Ensures.ite (ensures_pure ()) ?_
  have shows : ∀ table ∈ machine.engine.tables level ++ machine.engine.tables (level + 1),
      platform.toTableOps.Shows genuine table := by
    intro table member
    rcases List.mem_append.mp member with upper | lower
    · exact holds.tables level table upper
    · exact holds.tables (level + 1) table lower
  have removing : Preserves platform sound genuine
      (deleteOldFiles platform
        (machine.engine.tables level ++ machine.engine.tables (level + 1))) :=
    Ensures.forM fun table _ => preserves_reportError
      (produces_onWorld (copies.remove genuine _).yields).ensures
  have replacing : Produces platform sound genuine (fun _ => True)
      (mergeInto platform level (machine.engine.tables level)
        (machine.engine.tables (level + 1)) >>= fun newTables => (do
          swapIn level newTables
          deleteOldFiles platform
            (machine.engine.tables level ++ machine.engine.tables (level + 1)))) :=
    (produces_mergeInto copies level shows).bind fun newTables made =>
      ((preserves_swapIn level made).bind fun _ => removing).yields
  exact replacing.ensures

theorem preserves_backgroundCompaction (copies : platform.Copies sound) :
    Preserves platform sound genuine (backgroundCompaction platform) :=
  ensures_background (fun _ _ left => GenuineAfter.of_ne_panic left nofun)
    (fun fault _ holds => holds.after fault) (preserves_compactInto copies)

theorem preserves_close (copies : platform.Copies sound) :
    Preserves platform sound genuine (close platform) := by
  refine ensures_get_bind fun machine holds => Ensures.ite (ensures_pure ()) ?_
  have current : machine.engine.memtable.makeImmutable.Holds genuine := holds.memtable
  have closing : Preserves platform sound genuine
      (onEngine fun engine => { engine with closed := true }) :=
    preserves_onEngine fun _ holds =>
      ⟨holds.memtable, holds.immutable, holds.tables, holds.world⟩
  have draining : Preserves platform sound genuine
      (onEngine fun engine => engine.setImmutable []) :=
    preserves_onEngine fun _ holds => ⟨holds.memtable, nofun, holds.tables, holds.world⟩
  refine closing.bind fun _ => draining.bind fun _ => Ensures.bind ?_ fun _ => ?_
  · exact Ensures.forM fun memtable member => preserves_reportError
      (preserves_flushMemtable copies (holds.immutable memtable member))
  · exact .ite (preserves_reportError (preserves_flushMemtable copies current)) (ensures_pure ())

/-! ## Opening -/

theorem produces_loadFile (honest : platform.Honest sound) {found : List (Nat × Table)}
    (shows : ∀ item ∈ found, platform.toTableOps.Shows genuine item.2) (name : FileName) :
    Produces platform sound genuine
      (fun found => ∀ item ∈ found, platform.toTableOps.Shows genuine item.2)
      (loadFile platform found name) := by
  intro machine holds
  have kept : Produces platform sound genuine (platform.toTableOps.Shows genuine)
      (onWorld (platform.openTable name machine.engine.config.useMmap)) :=
    produces_onWorld (honest.open_ genuine name machine.engine.config.useMmap)
  have left := kept machine holds
  have loads := loads_loadFile platform found name machine
  generalize loadFile platform found name machine = outcome at loads
  cases loads with
  | passed => exact ⟨holds, shows⟩
  | opened _ ran =>
      rw [ran] at left
      refine ⟨left.1, fun item member => ?_⟩
      rcases List.mem_append.mp member with old | last
      · exact shows item old
      · rw [List.mem_singleton.mp last]
        exact left.2
  | reported ran =>
      rw [ran] at left
      exact ⟨GenuineAfter.of_ne_panic left nofun, shows⟩
  | panicked ran =>
      rw [ran] at left
      exact left

/-- An engine without memtable entries and tables. -/
theorem genuine_fresh (ops : TableOps Table) (config : Config) {world : World}
    (holds : sound genuine world) :
    Genuine ops sound genuine { engine := .fresh config, world } := by
  refine ⟨fun key entry found => ?_, nofun, fun level table member => ?_, holds⟩
  · change (MemTable.new _).get key = some entry at found
    rw [MemTable.get_new] at found
    cases found
  · rw [StorageEngine.tables_fresh] at member
    cases member

/-- A newly opened engine shows what the files of its directory show. -/
theorem genuine_openEngine (honest : platform.Honest sound) (config : Config) {world : World}
    (holds : sound genuine world) :
    (∀ reached, openEngine platform config world = .ok () reached →
      Genuine platform.toTableOps sound genuine reached) ∧
    ∀ fault reached, openEngine platform config world = .error fault reached →
      GenuineAfter platform.toTableOps sound genuine fault reached := by
  have fresh := genuine_fresh platform.toTableOps config holds
  have loading : Produces platform sound genuine (fun _ => True) (loadSstables platform) := by
    refine (produces_onWorld (honest.list genuine).yields).bind fun names _ => ?_
    have none : ∀ item ∈ ([] : List (Nat × Table)),
        platform.toTableOps.Shows genuine item.2 := by simp
    refine (Yields.foldlM (fun found name _ shows => produces_loadFile honest shows name)
      none).bind fun found shows => Ensures.yields (preserves_onEngine fun machine holds =>
        ⟨holds.memtable, holds.immutable,
          fun level table member => shows _ (mem_of_mem_levelsOf member), holds.world⟩)
  rw [openEngine]
  cases config.validate with
  | error message =>
      refine ⟨nofun, fun fault reached refused => ?_⟩
      cases refused
      exact fresh.after _
  | ok _ =>
      have loaded : Preserves platform sound genuine (loadSstables platform) := loading.ensures
      exact ⟨fun reached => loaded.of_ok fresh, fun fault reached => loaded.of_error fresh⟩

/-- A write adds its own value only, and only when it returns `Ok`. -/
theorem Genuine.write (copies : platform.Copies sound) {pairs : List (Key × Value)}
    {machine : Machine World Table}
    (holds : Genuine platform.toTableOps sound (Entry.From pairs) machine) (call : Write) :
    match call.run platform machine with
    | .ok _ reached => Genuine platform.toTableOps sound (Entry.From (pairs ++ call.pair)) reached
    | .error fault reached =>
        GenuineAfter platform.toTableOps sound (Entry.From pairs) fault reached := by
  rw [Write.run_apply]
  cases call.rejection machine.engine with
  | some failure => exact holds.after _
  | none =>
      have room := preserves_checkRotateMemtable copies machine holds
      cases rotated : checkRotateMemtable platform machine with
      | error fault reached =>
          rw [rotated] at room
          simp only [bind_eq, rotated]
          exact room
      | ok _ middle =>
          rw [rotated] at room
          simp only [bind_eq, rotated]
          have widened : Genuine platform.toTableOps sound (Entry.From (pairs ++ call.pair))
              middle := Genuine.weaken copies room fun entry origin => origin.append call.pair
          have own : ∀ entry : Entry, entry.key = call.key → entry.value = call.value →
              entry.From (pairs ++ call.pair) := by
            intro entry keyed valued value held
            rw [keyed]
            exact List.mem_append_right _ (Write.mem_pair (valued.symm.trans held))
          have wrote := preserves_writeMemtable copies own middle widened
          have ticked := copies.clock (Entry.From pairs) middle.world room.world
          rw [writeMemtable_apply] at wrote ⊢
          cases stored : middle.engine.memtable.write call.key call.value
            (platform.now middle.world).1.toUInt64 with
          | ok written => simpa only [stored] using wrote
          | error fault => exact ⟨room.memtable, room.immutable, room.tables, fun _ => ticked⟩

/-! ## What reads answer -/

theorem shows_lookupTable {ops : TableOps Table} {table : Table}
    (shows : ops.Shows genuine table) {key : Key} {entry : Entry}
    (found : StorageEngine.lookupTable ops key table = .ok (some entry)) :
    entry.key = key ∧ genuine entry := by
  obtain ⟨maybe, _, looked⟩ := Result.bind_eq_ok.mp found
  cases maybe with
  | false => cases looked
  | true => exact shows.get key entry looked

/-- A value that a lookup finds is that of a genuine entry. -/
theorem Genuine.get {machine : Machine World Table} {ops : TableOps Table}
    (holds : Genuine ops sound genuine machine) {key : Key} {value : Value}
    (found : machine.engine.get ops key = .ok (some value)) :
    ∃ entry, (entry.key = key ∧ genuine entry) ∧ entry.value = some value := by
  rw [StorageEngine.get] at found
  split at found
  · cases found
  obtain ⟨answer, searched, returned⟩ := Result.bind_eq_ok.mp found
  obtain ⟨entry, rfl, valued⟩ := Option.bind_eq_some_iff.mp (Except.ok.inj returned)
  refine ⟨entry, ?_, valued⟩
  rcases List.mem_append.mp (Layered.mem_of_first searched) with memtables | levels
  · obtain ⟨memtable, member, held⟩ := List.mem_map.mp memtables
    have held : memtable.get key = some entry := Except.ok.inj held
    refine ⟨MemTable.key_of_get held, ?_⟩
    rcases List.mem_cons.mp member with rfl | waiting
    · exact holds.memtable key entry held
    · exact holds.immutable memtable (List.mem_reverse.mp waiting) key entry held
  · obtain ⟨level, _, held⟩ := List.mem_map.mp levels
    rw [StorageEngine.lookupLevel] at held
    split at held
    · obtain ⟨table, member, looked⟩ := List.mem_map.mp (Layered.mem_of_first held)
      exact shows_lookupTable (holds.tables 0 table (List.mem_reverse.mp member)) looked
    · split at held
      next table covering =>
        exact shows_lookupTable
          (holds.tables level table (List.mem_of_find?_eq_some covering)) held
      next => cases held

/-- What a scan has gathered: each pair that is not a delete marker is a genuine entry's. -/
def Gathered (genuine : Entry → Prop) (results : StorageEngine.ScanResults) : Prop :=
  ∀ key version, results.lookup key = some version → version.1 ≠ [] →
    ∃ entry, (entry.key = key ∧ genuine entry) ∧ entry.value = some version.1

theorem Gathered.insert {results : StorageEngine.ScanResults} (gathered : Gathered genuine results)
    {key : Key} {entry : Entry} (origin : entry.key = key ∧ genuine entry) :
    Gathered genuine (results.insert key (StorageEngine.scanVersion entry)) := by
  intro other version found nonempty
  by_cases same : other = key
  · subst same
    rw [AList.lookup_insert, Option.some.injEq] at found
    subst found
    refine ⟨entry, origin, ?_⟩
    cases valued : entry.value with
    | none => simp [StorageEngine.scanVersion, valued] at nonempty
    | some value => simp [StorageEngine.scanVersion, valued]
  · rw [AList.lookup_insert_ne same] at found
    exact gathered other version found nonempty

theorem Gathered.scanMemtable {results : StorageEngine.ScanResults}
    (gathered : Gathered genuine results) {entries : List (Key × Entry)}
    (origin : ∀ pair ∈ entries, pair.2.key = pair.1 ∧ genuine pair.2) :
    Gathered genuine (StorageEngine.scanMemtable results entries) := by
  induction entries generalizing results with
  | nil => exact gathered
  | cons pair entries ih =>
      exact ih (gathered.insert (origin pair List.mem_cons_self))
        fun other member => origin other (List.mem_cons_of_mem _ member)

theorem Gathered.scanOlder {results : StorageEngine.ScanResults}
    (gathered : Gathered genuine results) {entries : List (Key × Entry)}
    (origin : ∀ pair ∈ entries, pair.2.key = pair.1 ∧ genuine pair.2) :
    Gathered genuine (StorageEngine.scanOlder results entries) := by
  induction entries generalizing results with
  | nil => exact gathered
  | cons pair entries ih =>
      have absorbed : Gathered genuine (Newest.absorb Prod.snd results
          (pair.1, StorageEngine.scanVersion pair.2)) := by
        rw [Newest.absorb]
        split
        · split
          · exact gathered
          · exact gathered.insert (origin pair List.mem_cons_self)
        · exact gathered.insert (origin pair List.mem_cons_self)
      exact ih absorbed fun other member => origin other (List.mem_cons_of_mem _ member)

/-- The pairs that a memtable lists in a range are its entries under their keys. -/
theorem genuine_rangeIter {memtable : MemTable} (held : memtable.Holds genuine)
    {start stop : Key} {entries : List (Key × Entry)}
    (ran : memtable.rangeIter start stop = .ok entries) :
    ∀ pair ∈ entries, pair.2.key = pair.1 ∧ genuine pair.2 := by
  rw [MemTable.rangeIter] at ran
  split at ran
  · cases ran
  · cases ran
    intro pair member
    have found := (MemTable.mem_inRange.mp member).2
    exact ⟨MemTable.key_of_get found, held pair.1 pair.2 found⟩

/-- The pairs that a scan returns are those of genuine entries. -/
theorem Genuine.scan {machine : Machine World Table} {ops : TableOps Table}
    (holds : Genuine ops sound genuine machine) {start stop : Key} {pairs : List (Key × Value)}
    (ran : machine.engine.scan ops start stop = .ok pairs) :
    ∀ pair ∈ pairs, ∃ entry, (entry.key = pair.1 ∧ genuine entry) ∧ entry.value = some pair.2 := by
  rw [StorageEngine.scan] at ran
  split at ran
  · cases ran
  obtain ⟨current, listed, ran⟩ := Result.bind_eq_ok.mp ran
  obtain ⟨older, waited, ran⟩ := Result.bind_eq_ok.mp ran
  obtain ⟨results, stored, ran⟩ := Result.bind_eq_ok.mp ran
  cases ran
  have none : Gathered genuine ∅ := by
    intro key version found
    rw [AList.lookup_empty] at found
    cases found
  have first : Gathered genuine (StorageEngine.scanMemtable ∅ current) :=
    none.scanMemtable (genuine_rangeIter holds.memtable listed)
  have second : Gathered genuine older := by
    refine Result.foldlM_invariant_of_mem (fun before memtable member after held ran => ?_) first
      waited
    obtain ⟨entries, listed, returned⟩ := Result.bind_eq_ok.mp ran
    cases returned
    exact held.scanOlder
      (genuine_rangeIter (holds.immutable memtable (List.mem_reverse.mp member)) listed)
  have third : Gathered genuine results := by
    refine Result.foldlM_invariant_of_mem (fun before level _ after held ran => ?_) second stored
    refine Result.foldlM_invariant_of_mem (fun before table member after held ran => ?_) held ran
    obtain ⟨entries, listed, returned⟩ := Result.bind_eq_ok.mp ran
    cases returned
    refine held.scanOlder fun pair shown => ?_
    obtain ⟨entry, among, rfl⟩ := List.mem_map.mp shown
    exact ⟨rfl, (holds.tables level table member).range start stop entries listed entry among⟩
  intro pair member
  obtain ⟨sequence, found, nonempty⟩ := StorageEngine.mem_scanFinish.mp member
  exact third pair.1 (pair.2, sequence) found nonempty

end Machine

/-! ## Whole lives -/

namespace History

variable {platform : Platform World Table} {sound : (Entry → Prop) → World → Prop}

/-- All values of the machine have been put by calls that returned `Ok`. -/
def Sourced (platform : Platform World Table) (sound : (Entry → Prop) → World → Prop)
    (history : History World Table) : Prop :=
  Machine.Genuine platform.toTableOps sound (Entry.From history.puts) history.machine

theorem Sourced.step (honest : platform.Honest sound) {history : History World Table}
    (sourced : Sourced platform sound history) {deed : Deed}
    (calm : deed.Calm platform history.machine) :
    Sourced platform sound (history.step platform deed) := by
  cases deed with
  | write call =>
      have wrote := Machine.Genuine.write honest.copies sourced call
      cases ran : call.run platform history.machine with
      | ok _ reached =>
          rw [ran] at wrote
          simpa [Sourced, History.step, Deed.run, ran, succeeded] using wrote
      | error fault reached =>
          rw [ran] at wrote
          rw [Deed.Calm, Deed.run, ran] at calm
          simpa [Sourced, History.step, Deed.run, ran, succeeded] using
            GenuineAfter.of_ne_panic wrote (ne_panic_of_calm calm)
  | background =>
      have kept := (preserves_backgroundCompaction honest.copies).final sourced calm
      simpa [Sourced, History.step, Deed.run] using kept
  | close =>
      have kept := (preserves_close honest.copies).final sourced calm
      simpa [Sourced, History.step, Deed.run] using kept
  | reopen config =>
      have opened := genuine_openEngine honest config sourced.world
      cases ran : openEngine platform config history.machine.world with
      | ok _ reached =>
          simpa [Sourced, History.step, Deed.run, ran] using opened.1 reached ran
      | error fault reached =>
          simp only [Deed.Calm, Deed.run, ran] at calm
          have kept : Machine.Genuine platform.toTableOps sound (Entry.From history.puts)
              { history.machine with world := reached.world } :=
            ⟨sourced.memtable, sourced.immutable, sourced.tables,
              (opened.2 fault reached ran).world (ne_panic_of_calm calm)⟩
          simpa [Sourced, History.step, Deed.run, ran] using kept

/-- All files of an in-memory directory list genuine entries. -/
def memorySound (genuine : Entry → Prop) (world : MemoryWorld) : Prop :=
  ∀ file ∈ world.files, ∀ entry ∈ file.2, genuine entry

theorem memorySound_attempt (genuine : Entry → Prop) :
    Upholds (memorySound genuine) MemoryWorld.attempt := by
  intro world sound
  simp only [MemoryWorld.attempt]
  cases world.failures with
  | nil => exact sound
  | cons fails failures =>
      cases fails
      · exact sound
      · exact fun _ => sound

/-- File operations in memory may fail. -/
theorem memory_honest : MemoryWorld.platform.Honest memorySound where
  weaken := fun implies sound file member entry listed =>
    implies entry (sound file member entry listed)
  clock := fun _ _ sound => sound
  build := by
    intro genuine config path entries _ _ origin
    refine (memorySound_attempt genuine).bind fun _ => Ensures.bind ?_ fun _ => ensures_pure _
    intro world sound file member
    rcases List.mem_cons.mp member with rfl | old
    · exact origin
    · exact sound file (List.mem_filter.mp old).1
  open_ := by
    intro genuine path mapped
    refine (memorySound_attempt genuine).yields.bind fun _ _ => ?_
    have reading : Provides (memorySound genuine) (fun found => ∀ entry ∈ found, genuine entry)
        (MemoryWorld.find path) := by
      intro world sound
      rw [MemoryWorld.find]
      cases found : world.files.find? fun file => file.1 = path with
      | none => exact fun _ => sound
      | some file => exact ⟨sound, sound file (List.mem_of_find?_eq_some found)⟩
    refine reading.bind fun found origin => yields_get_bind fun world _ => yields_pure ?_
    refine ⟨fun key entry held => ?_, fun start stop listed ran entry member => ?_,
      fun entry member => ?_⟩
    · obtain ⟨member, keyed⟩ := mem_of_entryFor (Except.ok.inj held)
      exact ⟨keyed, origin entry member⟩
    · cases ran
      exact origin entry (List.mem_filter.mp member).1
    · obtain ⟨other, member, same⟩ := List.mem_map.mp member
      cases same
      exact origin entry member
  remove := by
    intro genuine path
    refine (memorySound_attempt genuine).bind fun _ => ?_
    exact ensures_modify fun world sound file member => sound file (List.mem_filter.mp member).1
  list := fun _ _ sound => sound

/-- All files on disk that can be opened show genuine entries. -/
def diskSound (external : External) (genuine : Entry → Prop) (disk : Disk) : Prop :=
  ∀ file ∈ disk.files, ∀ path mapped reader,
    SSTableReader.openFile path file.2 mapped = .ok reader →
      (SSTableReader.ops external).Shows genuine reader

/-- A table that the repository builds cannot be opened. -/
theorem disk_candid (external : External) (host : Host) : (Disk.platform external host).Candid :=
  fun _ _ _ _ _ _ _ nonempty _ _ ran => absurd ran (Disk.makeTable_ne_ok nonempty)

/-- The files that the repository builds cannot be opened, so they show nothing. -/
theorem disk_honest {external : External} (compresses : external.ZstdCompresses) (host : Host) :
    (Disk.platform external host).Honest (diskSound external) where
  weaken := fun implies sound file member path mapped reader opened =>
    (sound file member path mapped reader opened).weaken implies
  clock := fun _ _ sound => sound
  build := fun genuine config path entries nonempty ascending _ =>
    Disk.upholds_buildFromVec (fun contents => ∀ path mapped reader,
        SSTableReader.openFile path contents mapped = .ok reader →
          (SSTableReader.ops external).Shows genuine reader)
      (fun _ unreadable path mapped reader opened =>
        absurd opened (unreadable path mapped reader)) compresses config path nonempty ascending
  open_ := by
    intro genuine path mapped
    change Provides (diskSound external genuine) ((SSTableReader.ops external).Shows genuine)
      (Disk.openTable path mapped)
    intro disk sound
    rw [Disk.openTable, bind_of_ok (get_apply disk)]
    cases found : disk.find path with
    | none => exact fun _ => sound
    | some contents =>
        obtain ⟨file, held, rfl⟩ := Option.map_eq_some_iff.mp found
        dsimp only
        cases opened : SSTableReader.openFile path file.2 mapped with
        | error fault => exact fun _ => sound
        | ok reader =>
            exact ⟨sound, sound file (List.mem_of_find?_eq_some held) path mapped reader opened⟩
  remove := by
    intro genuine path
    change Upholds (diskSound external genuine) (Disk.removeFile path)
    intro disk sound
    rw [Disk.removeFile, bind_of_ok (get_apply disk)]
    cases disk.find path with
    | none => exact fun _ => sound
    | some contents => exact fun file member => sound file (List.mem_filter.mp member).1
  list := fun _ _ sound => sound

/-- Writes with flushes that fail, a crash and a close with a reopening each. -/
def eventful : List Deed :=
  [.write (.put [1] [10]), .write (.put [2] [20]), .write (.put [1] [11]), .write (.delete [2]),
    .reopen MemoryWorld.smallConfig, .write (.put [3] [30]), .background, .close,
    .reopen MemoryWorld.smallConfig]

private def earlyHost : Host where
  clock ticks := 1000000 + ticks
  order := id
  lists := .refl

/-- An engine on an empty directory. -/
private def emptyStart : History Disk SSTableReader where
  machine := { engine := .fresh MemoryWorld.smallConfig, world := { files := [], ticks := 0 } }
  puts := []

end History

end JustDb

import JustDb.SSTable.Iteration

/-!
# Iterating over a damaged table

What an iterator returns is decided by what reading its blocks gives, one after another.
A block that can be read is left behind once its entries have been returned; a block
that cannot be read is not, because the error leaves `next` before `current_block` is
counted on.  Every later call fails on the same block again.
-/

namespace JustDb

open Stateful

/-! ## A list of reads, taken apart by calls -/

/-- One call on the reads of the blocks ahead: what it returns, and the reads ahead
after it.  Behind a read that failed, later reads are not determined. -/
inductive ReadTurn : List (Result (List Entry)) → Option (Result Entry) →
    List (Result (List Entry)) → Prop
  | ended : ReadTurn [] none []
  | skip {reads left : List (Result (List Entry))} {item : Option (Result Entry)}
      (later : ReadTurn reads item left) : ReadTurn (.ok [] :: reads) item left
  | entry (entry : Entry) (entries : List Entry) (reads : List (Result (List Entry))) :
      ReadTurn (.ok (entry :: entries) :: reads) (some (.ok entry)) (.ok entries :: reads)
  | failed (fault : Fault) (reads others : List (Result (List Entry))) :
      ReadTurn (.error fault :: reads) (some (.error fault)) (.error fault :: others)

/-- Every read succeeded. -/
def AllRead (reads : List (Result (List Entry))) : Prop :=
  ∀ read ∈ reads, ∃ entries, read = .ok entries

/-- The entries of the reads that succeeded. -/
def readEntries (reads : List (Result (List Entry))) : List Entry :=
  reads.flatMap fun read => read.toOption.getD []

/-- With a failed read ahead, a call returns something, and leaves a failed read ahead. -/
theorem ReadTurn.of_failed {reads left : List (Result (List Entry))} {item : Option (Result Entry)}
    (turn : ReadTurn reads item left) (failed : ∃ fault, .error fault ∈ reads) :
    item ≠ none ∧ ∃ fault, .error fault ∈ left := by
  induction turn with
  | ended =>
      obtain ⟨fault, member⟩ := failed
      cases member
  | skip later ih =>
      obtain ⟨fault, member⟩ := failed
      apply ih
      exact ⟨fault, (List.mem_cons.mp member).resolve_left fun same => by cases same⟩
  | entry entry entries reads =>
      obtain ⟨fault, member⟩ := failed
      have behind := (List.mem_cons.mp member).resolve_left fun same => by cases same
      exact ⟨by simp, fault, List.mem_cons_of_mem _ behind⟩
  | failed fault reads others => exact ⟨by simp, fault, List.mem_cons_self⟩

/-- Without one, a call returns the next entry and leaves the others. -/
theorem ReadTurn.of_allRead {reads left : List (Result (List Entry))} {item : Option (Result Entry)}
    (turn : ReadTurn reads item left) (all : AllRead reads) :
    item = (readEntries reads).head?.map .ok ∧ AllRead left ∧
      readEntries left = (readEntries reads).tail := by
  induction turn with
  | ended => exact ⟨rfl, all, rfl⟩
  | skip later ih => exact ih fun read member => all read (List.mem_cons_of_mem _ member)
  | entry entry entries reads =>
      refine ⟨rfl, ?_, rfl⟩
      intro read member
      cases member with
      | head => exact ⟨entries, rfl⟩
      | tail _ behind => exact all read (List.mem_cons_of_mem _ behind)
  | failed fault reads others =>
      obtain ⟨entries, same⟩ := all _ List.mem_cons_self
      cases same

namespace SSTableReader

variable (external : External)

/-- Read a block and parse it, as the iterator does. -/
def loadBlock (indexEntry : IndexEntry) : Read (List Entry) := do
  let data ← readBlock external indexEntry
  lift (parseBlock data)

/-- What reading blocks one after another gives. -/
def blockReads : (index : List IndexEntry) → SSTableReader → List (Result (List Entry))
  | [], _ => []
  | indexEntry :: index, reader =>
      outcome (loadBlock external indexEntry reader) ::
        blockReads index (final (loadBlock external indexEntry reader))

variable {external}

/-- Reading a block changes the cache only. -/
theorem keeps_readBlock (external : External) {τ : Type} (view : SSTableReader → τ)
    (unseen : ∀ reader offset data, view (cacheBlock reader offset data) = view reader)
    (indexEntry : IndexEntry) : Keeps view (readBlock external indexEntry) := by
  apply keeps_get.bind
  intro reader
  split
  · exact keeps_pure _
  · apply (keeps_lift _).bind
    intro stored
    apply (keeps_lift _).bind
    intro data
    exact Keeps.bind (fun reader => unseen reader _ _) fun _ => keeps_pure _

theorem index_loadBlock (external : External) (indexEntry : IndexEntry) (reader : SSTableReader) :
    (final (loadBlock external indexEntry reader)).index = reader.index := by
  have kept : Keeps SSTableReader.index (loadBlock external indexEntry) :=
    (keeps_readBlock external SSTableReader.index (fun _ _ _ => rfl) indexEntry).bind
      fun _ => keeps_lift _
  exact kept reader

/-- A block as it stands in the file. -/
def fileBlock (external : External) (self : SSTableReader) (indexEntry : IndexEntry) :
    Result Bytes := do
  let stored ← self.readAt indexEntry.offset indexEntry.size
  unpackBlock external self.metadata.compression stored

theorem readBlock_of_cached {indexEntry : IndexEntry} {reader : SSTableReader} {data : Bytes}
    (held : reader.blockCache.lookup indexEntry.offset = some data) :
    readBlock external indexEntry reader = .ok data reader := by
  rw [readBlock, bind_of_ok (get_apply reader), held]
  rfl

theorem readBlock_of_missing {indexEntry : IndexEntry} {reader : SSTableReader}
    (missing : reader.blockCache.lookup indexEntry.offset = none) :
    readBlock external indexEntry reader =
      match reader.fileBlock external indexEntry with
      | .ok data => .ok data (reader.cacheBlock indexEntry.offset data)
      | .error fault => .error fault reader := by
  rw [readBlock, bind_of_ok (get_apply reader), missing, fileBlock]
  dsimp only
  cases reader.readAt indexEntry.offset indexEntry.size with
  | error fault => rfl
  | ok stored =>
      rw [bind_of_ok (lift_ok _ _), Result.ok_bind]
      cases unpackBlock external reader.metadata.compression stored <;> rfl

/-- A block that has been read is read again: from the cache, or, when that was full and
has been cleared, from the file. -/
theorem readBlock_again {indexEntry : IndexEntry} {reader reached : SSTableReader} {data : Bytes}
    (ran : readBlock external indexEntry reader = .ok data reached) :
    ∃ last, readBlock external indexEntry reached = .ok data last := by
  cases held : reader.blockCache.lookup indexEntry.offset with
  | some cached =>
      rw [readBlock_of_cached held] at ran
      cases ran
      exact ⟨reader, readBlock_of_cached held⟩
  | none =>
      rw [readBlock_of_missing held] at ran
      cases read : reader.fileBlock external indexEntry with
      | error fault =>
          rw [read] at ran
          cases ran
      | ok block =>
          rw [read] at ran
          cases ran
          by_cases full : (reader.blockCache.insert indexEntry.offset data).entries.length > 100
          · have cleared : (reader.cacheBlock indexEntry.offset data).blockCache = ∅ := if_pos full
            have same : (reader.cacheBlock indexEntry.offset data).fileBlock external indexEntry =
              .ok data := read
            refine
              ⟨(reader.cacheBlock indexEntry.offset data).cacheBlock indexEntry.offset data, ?_⟩
            rw [readBlock_of_missing (by rw [cleared, AList.lookup_empty]), same]
          · have kept : (reader.cacheBlock indexEntry.offset data).blockCache =
              reader.blockCache.insert indexEntry.offset data := if_neg full
            exact ⟨_, readBlock_of_cached (by rw [kept, AList.lookup_insert])⟩

/-- A block that could not be loaded cannot be loaded, for the same reason. -/
theorem loadBlock_again {indexEntry : IndexEntry} {reader reached : SSTableReader} {fault : Fault}
    (ran : loadBlock external indexEntry reader = .error fault reached) :
    outcome (loadBlock external indexEntry reached) = .error fault := by
  rcases bind_eq_error.mp ran with unread | ⟨data, middle, read, unparsed⟩
  · have same : reached = reader := by
      cases held : reader.blockCache.lookup indexEntry.offset with
      | some cached =>
          rw [readBlock_of_cached held] at unread
          cases unread
      | none =>
          rw [readBlock_of_missing held] at unread
          split at unread
          · cases unread
          · cases unread
            rfl
    rw [same, ran]
    rfl
  · obtain ⟨parse, rfl⟩ := lift_eq_error.mp unparsed
    obtain ⟨last, again⟩ := readBlock_again read
    rw [loadBlock, bind_of_ok again, parse]
    rfl

/-! ## Tables whose blocks can all be read -/

variable {stored : List Entry → Bytes}

/-- A block that is loaded and was not cached is read from the file, and cached. -/
theorem fileBlock_of_loadBlock {block : IndexEntry} {reader : SSTableReader}
    {entries : List Entry} (missing : reader.blockCache.lookup block.offset = none)
    (loaded : outcome (loadBlock external block reader) = .ok entries) :
    ∃ data, reader.fileBlock external block = .ok data ∧
      final (loadBlock external block reader) = reader.cacheBlock block.offset data := by
  have read : readBlock external block reader = _ := readBlock_of_missing missing
  rw [loadBlock] at loaded
  cases here : reader.fileBlock external block with
  | error fault =>
      rw [here] at read
      rw [bind_of_error read] at loaded
      cases loaded
  | ok data =>
      rw [here] at read
      refine ⟨data, rfl, ?_⟩
      rw [loadBlock, bind_of_ok read]
      cases parseBlock data <;> rfl

/-- Caching a block does not cache another. -/
theorem cacheBlock_lookup_of_ne {reader : SSTableReader} {offset other : Nat} (data : Bytes)
    (different : other ≠ offset) (missing : reader.blockCache.lookup other = none) :
    (reader.cacheBlock offset data).blockCache.lookup other = none := by
  rw [cacheBlock]
  dsimp only
  split
  · exact AList.lookup_empty other
  · rwa [AList.lookup_insert_ne different]

/-- Blocks at offsets of their own that can all be read stand in the file as they are. -/
theorem fileBlock_of_allRead {index : List IndexEntry} {reader : SSTableReader}
    (uncached : ∀ block ∈ index, reader.blockCache.lookup block.offset = none)
    (apart : index.Pairwise fun left right => left.offset ≠ right.offset)
    (all : AllRead (blockReads external index reader)) :
    ∀ block ∈ index, ∃ data, reader.fileBlock external block = .ok data := by
  induction index generalizing reader with
  | nil => simp
  | cons first index ih =>
      obtain ⟨entries, loaded⟩ := all _ List.mem_cons_self
      obtain ⟨data, here, reached⟩ :=
        fileBlock_of_loadBlock (uncached first List.mem_cons_self) loaded
      obtain ⟨distinct, apart⟩ := List.pairwise_cons.mp apart
      have missing : ∀ block ∈ index,
          (reader.cacheBlock first.offset data).blockCache.lookup block.offset = none :=
        fun block member => cacheBlock_lookup_of_ne data (distinct block member).symm
          (uncached block (List.mem_cons_of_mem _ member))
      rw [blockReads, reached] at all
      have later := ih missing apart fun read member => all read (List.mem_cons_of_mem _ member)
      intro block member
      cases member with
      | head => exact ⟨data, here⟩
      | tail _ behind => exact later block behind

/-- Blocks that are not empty stand at offsets of their own. -/
theorem pairwise_offset_indexFrom {groups : List (List Entry)}
    (nonempty : ∀ group ∈ groups, stored group ≠ []) :
    (indexFrom stored 0 groups).Pairwise fun left right => left.offset ≠ right.offset := by
  have located : ∀ {position : Nat} (inside : position < (indexFrom stored 0 groups).length),
      ((indexFrom stored 0 groups)[position]).offset = offsetOf stored groups position := by
    intro position inside
    have found := List.getElem?_eq_getElem inside
    rw [indexFrom_zero_getElem?] at found
    obtain ⟨group, -, entry⟩ := Option.map_eq_some_iff.mp found
    rw [← entry]
    rfl
  rw [List.pairwise_iff_getElem]
  intro left right leftInside rightInside below
  rw [located leftInside, located rightInside]
  rw [indexFrom_length] at rightInside
  exact (offsetOf_lt nonempty below rightInside.le).ne

/-- Blocks of a recovered reader that can all be read can be unpacked. -/
theorem Recovered.unpack_of_allRead {reader : SSTableReader} {groups : List (List Entry)}
    (recovered : Recovered reader stored groups) (nonempty : ∀ group ∈ groups, stored group ≠ [])
    (all : AllRead (blockReads external reader.index reader)) :
    ∀ group ∈ groups, ∃ data,
      unpackBlock external reader.metadata.compression (stored group) = .ok data := by
  have apart : reader.index.Pairwise fun left right => left.offset ≠ right.offset := by
    rw [recovered.index]
    exact pairwise_offset_indexFrom nonempty
  have uncached : ∀ block ∈ reader.index, reader.blockCache.lookup block.offset = none := by
    intro block _
    rw [recovered.fresh]
    exact AList.lookup_empty _
  intro group member
  obtain ⟨position, at_⟩ := List.getElem?_of_mem member
  have located : locate stored groups position group ∈ reader.index := by
    apply List.mem_of_getElem?
    rw [recovered.index, indexFrom_zero_getElem?, at_]
    rfl
  obtain ⟨data, read⟩ := fileBlock_of_allRead uncached apart all _ located
  obtain ⟨bytes, found, unpacked⟩ := Result.bind_eq_ok.mp read
  cases (readAt_offsetOf recovered.contents recovered.bounded at_).symm.trans found
  exact ⟨data, unpacked⟩

end SSTableReader

namespace SSTableIterator

open SSTableReader

variable {external : External}

/-- The reads ahead of an iterator: the rest of the block it has loaded, then the blocks
behind it. -/
def ahead (external : External) (self : SSTableIterator) : List (Result (List Entry)) :=
  match self.currentBlockData with
  | none => blockReads external (self.reader.index.drop self.currentBlock) self.reader
  | some _ =>
      .ok (self.currentBlockEntries.drop self.currentEntry) ::
        blockReads external (self.reader.index.drop (self.currentBlock + 1)) self.reader

/-- An iterator without a block has no entries of one. -/
def Clean (self : SSTableIterator) : Prop :=
  self.currentBlockData = none → self.currentBlockEntries = []

theorem clean_advance (self : SSTableIterator) : self.advance.Clean :=
  fun _ => rfl

/-- In front of a block that can be loaded, the iterator goes into it. -/
theorem ensureBlock_of_loads {self : SSTableIterator} {indexEntry : IndexEntry}
    {entries : List Entry} {reader : SSTableReader} (unloaded : self.currentBlockData = none)
    (here : self.reader.index[self.currentBlock]? = some indexEntry)
    (loads : loadBlock external indexEntry self.reader = .ok entries reader) :
    ∃ data, ensureBlock external self = .ok () { self with
      reader
      currentBlockData := some data
      currentBlockEntries := entries
      currentEntry := 0 } := by
  obtain ⟨data, middle, read, parsed⟩ := bind_eq_ok.mp loads
  obtain ⟨parse, rfl⟩ := lift_eq_ok.mp parsed
  have reading : onReader (readBlock external indexEntry) self =
      .ok data { self with reader := middle } := by
    rw [onReader, read]
  refine ⟨data, ?_⟩
  rw [ensureBlock, bind_of_ok (get_apply self), if_pos (by simp [unloaded]), loadCurrentBlock,
    bind_of_ok (get_apply self), here]
  refine (bind_of_ok reading).trans ?_
  rw [parse, bind_of_ok (lift_ok _ _), modify_apply]

/-- In front of a block that cannot be loaded, it stays there. -/
theorem ensureBlock_of_fails {self : SSTableIterator} {indexEntry : IndexEntry} {fault : Fault}
    {reader : SSTableReader} (unloaded : self.currentBlockData = none)
    (here : self.reader.index[self.currentBlock]? = some indexEntry)
    (fails : loadBlock external indexEntry self.reader = .error fault reader) :
    ensureBlock external self = .error fault { self with reader } := by
  rw [ensureBlock, bind_of_ok (get_apply self), if_pos (by simp [unloaded]), loadCurrentBlock,
    bind_of_ok (get_apply self), here]
  rcases bind_eq_error.mp fails with unread | ⟨data, middle, read, unparsed⟩
  · have reading : onReader (readBlock external indexEntry) self =
        .error fault { self with reader } := by
      rw [onReader, unread]
    exact bind_of_error reading
  · obtain ⟨parse, rfl⟩ := lift_eq_error.mp unparsed
    have reading : onReader (readBlock external indexEntry) self =
        .ok data { self with reader := middle } := by
      rw [onReader, read]
    refine (bind_of_ok reading).trans ?_
    rw [parse, bind_of_error (lift_error _ _)]

theorem ensureBlock_of_end {self : SSTableIterator}
    (past : self.reader.index[self.currentBlock]? = none) :
    ensureBlock external self = .ok () self := by
  rw [ensureBlock, bind_of_ok (get_apply self)]
  split
  · rw [loadCurrentBlock, bind_of_ok (get_apply self), past]
    rfl
  · rfl

/-- What a call of `next` returns, from the end of its loop. -/
def yielded : EStateM.Result Fault SSTableIterator (Option Entry) → Option (Result Entry)
  | .ok none _ => none
  | .ok (some entry) _ => some (.ok entry)
  | .error fault _ => some (.error fault)

theorem next_eq (self : SSTableIterator) :
    self.next external =
      (yielded (nextLoop external (self.reader.index.length + 1) self),
        final (nextLoop external (self.reader.index.length + 1) self)) := by
  rw [next]
  split
  next ran => rw [ran]; rfl
  next ran => rw [ran]; rfl
  next ran => rw [ran]; rfl

/-- The end of a loop answers one call on the reads ahead. -/
structure Answers (external : External) (reads : List (Result (List Entry)))
    (ended : EStateM.Result Fault SSTableIterator (Option Entry)) : Prop where
  turn : ReadTurn reads (yielded ended) (ahead external (final ended))
  clean : (final ended).Clean

theorem ahead_of_loaded {self : SSTableIterator} (loaded : self.currentBlockData ≠ none) :
    ahead external self =
      .ok (self.currentBlockEntries.drop self.currentEntry) ::
        blockReads external (self.reader.index.drop (self.currentBlock + 1)) self.reader := by
  obtain ⟨data, held⟩ := Option.ne_none_iff_exists'.mp loaded
  rw [ahead, held]

theorem ahead_of_unloaded {self : SSTableIterator} (unloaded : self.currentBlockData = none) :
    ahead external self =
      blockReads external (self.reader.index.drop self.currentBlock) self.reader := by
  rw [ahead, unloaded]

theorem ahead_advance (self : SSTableIterator) :
    ahead external self.advance =
      blockReads external (self.reader.index.drop (self.currentBlock + 1)) self.reader :=
  ahead_of_unloaded rfl

/-- A turn inside a block returns its next entry, or leaves it for the blocks behind. -/
theorem answers_of_loaded {self loaded : SSTableIterator} {fuel : Nat}
    (ensured : ensureBlock external self = .ok () loaded)
    (inside : loaded.currentBlockData ≠ none)
    (later : ¬ loaded.reader.index.length ≤ loaded.currentBlock + 1 →
      Answers external (ahead external loaded.advance) (nextLoop external fuel loaded.advance)) :
    Answers external (ahead external loaded) (nextLoop external (fuel + 1) self) := by
  rw [ahead_of_loaded inside]
  cases found : loaded.currentBlockEntries[loaded.currentEntry]? with
  | some entry =>
      obtain ⟨within, rfl⟩ := List.getElem?_eq_some_iff.mp found
      rw [nextLoop_of_entry fuel ensured found, List.drop_eq_getElem_cons within]
      have moved : ahead external { loaded with currentEntry := loaded.currentEntry + 1 } =
          .ok (loaded.currentBlockEntries.drop (loaded.currentEntry + 1)) ::
            blockReads external (loaded.reader.index.drop (loaded.currentBlock + 1))
              loaded.reader := ahead_of_loaded inside
      constructor
      · rw [final_ok, moved]
        exact .entry _ _ _
      · exact fun none_ => absurd none_ inside
  | none =>
      have passed := List.getElem?_eq_none_iff.mp found
      rw [nextLoop_of_exhausted fuel ensured found, List.drop_eq_nil_of_le passed,
        ← ahead_advance]
      split
      next last =>
        refine ⟨.skip ?_, clean_advance loaded⟩
        rw [final_ok, ahead_advance, List.drop_eq_nil_of_le last]
        exact .ended
      next more =>
        have rest := later more
        exact ⟨.skip rest.turn, rest.clean⟩

/-- A turn answers a call, or leaves it to the turn at the next block. -/
theorem answers_turn {self : SSTableIterator} {fuel : Nat} (clean : self.Clean)
    (later : ∀ reached : SSTableIterator, reached.Clean →
      reached.reader.index = self.reader.index →
      reached.currentBlock = self.currentBlock + 1 →
      ¬ self.reader.index.length ≤ self.currentBlock + 1 →
      Answers external (ahead external reached) (nextLoop external fuel reached)) :
    Answers external (ahead external self) (nextLoop external (fuel + 1) self) := by
  cases held : self.currentBlockData with
  | some data =>
      have inside : self.currentBlockData ≠ none := by simp [held]
      apply answers_of_loaded (ensureBlock_of_loaded inside) inside
      exact later self.advance self.clean_advance rfl rfl
  | none =>
      cases here : self.reader.index[self.currentBlock]? with
      | none =>
          have past := List.getElem?_eq_none_iff.mp here
          have exhausted : self.currentBlockEntries[self.currentEntry]? = none := by
            rw [clean held]
            rfl
          rw [nextLoop_of_exhausted fuel (ensureBlock_of_end here) exhausted,
            if_pos (Nat.le_succ_of_le past), ahead_of_unloaded held,
            List.drop_eq_nil_of_le past]
          refine ⟨?_, self.clean_advance⟩
          rw [final_ok, ahead_advance, List.drop_eq_nil_of_le (Nat.le_succ_of_le past)]
          exact .ended
      | some indexEntry =>
          obtain ⟨within, entry⟩ := List.getElem?_eq_some_iff.mp here
          have index := index_loadBlock external indexEntry self.reader
          rw [ahead_of_unloaded held, List.drop_eq_getElem_cons within, entry, blockReads]
          cases loads : loadBlock external indexEntry self.reader with
          | ok entries reader =>
              rw [loads, final_ok] at index
              obtain ⟨data, ensured⟩ := ensureBlock_of_loads held here loads
              have answers := answers_of_loaded ensured (by simp) fun more =>
                later _ (clean_advance _) index rfl (by rwa [← index])
              rw [ahead_of_loaded (by simp)] at answers
              dsimp only at answers
              rw [index, List.drop_zero] at answers
              exact answers
          | error fault reader =>
              rw [loads, final_error] at index
              rw [nextLoop, bind_of_error (ensureBlock_of_fails held here loads)]
              refine ⟨?_, clean⟩
              have stuck : ahead external { self with reader } =
                  blockReads external (reader.index.drop self.currentBlock) reader :=
                ahead_of_unloaded held
              simp only [final_error]
              rw [stuck, index, List.drop_eq_getElem_cons within, entry, blockReads,
                loadBlock_again loads]
              exact .failed fault _ _

/-- With fuel for the blocks ahead, the loop answers one call. -/
theorem answers_nextLoop (external : External) {self : SSTableIterator} (clean : self.Clean)
    (fuel : Nat)
    (enough : self.reader.index.length ≤ self.currentBlock + (fuel + 1)) :
    Answers external (ahead external self) (nextLoop external (fuel + 1) self) := by
  induction fuel generalizing self with
  | zero => exact answers_turn clean fun _ _ _ _ more => absurd enough more
  | succ fuel ih =>
      apply answers_turn clean
      intro reached cleared index block _
      apply ih cleared
      rw [index, block]
      omega

/-- Loading a block leaves the index and the position alone. -/
theorem keeps_ensureBlock (external : External) {τ : Type} (view : List IndexEntry → Nat → τ) :
    Keeps (fun self : SSTableIterator => view self.reader.index self.currentBlock)
      (ensureBlock external) := by
  apply keeps_get.bind
  intro self
  apply Keeps.ite _ (keeps_pure _)
  apply keeps_get.bind
  intro self
  split
  · exact keeps_pure _
  next indexEntry _ =>
    refine Keeps.bind (fun iterator => ?_) fun data => (keeps_lift _).bind fun entries _ => rfl
    have kept := keeps_readBlock external SSTableReader.index
      (fun _ _ _ => rfl) indexEntry iterator.reader
    rw [onReader]
    cases read : readBlock external indexEntry iterator.reader with
    | ok data reader => rw [read] at kept; exact congrArg (view · _) kept
    | error fault reader => rw [read] at kept; exact congrArg (view · _) kept

/-- Two amounts of fuel that agree from the next block on agree. -/
theorem nextLoop_congr {self : SSTableIterator} {fuel other : Nat}
    (later : ∀ loaded : SSTableIterator, loaded.reader.index = self.reader.index →
      loaded.currentBlock = self.currentBlock →
      ¬ self.reader.index.length ≤ self.currentBlock + 1 →
      nextLoop external fuel loaded.advance = nextLoop external other loaded.advance) :
    nextLoop external (fuel + 1) self = nextLoop external (other + 1) self := by
  cases ensured : ensureBlock external self with
  | error fault reached =>
      rw [nextLoop, nextLoop, bind_of_error ensured, bind_of_error ensured]
  | ok done loaded =>
      have kept := (keeps_ensureBlock external Prod.mk).of_ok ensured
      obtain ⟨index, block⟩ := Prod.mk.inj kept
      cases found : loaded.currentBlockEntries[loaded.currentEntry]? with
      | some entry => rw [nextLoop_of_entry _ ensured found, nextLoop_of_entry _ ensured found]
      | none =>
          rw [nextLoop_of_exhausted _ ensured found, nextLoop_of_exhausted _ ensured found]
          split
          next => rfl
          next more => exact later loaded index block (by rwa [← index, ← block])

/-- The loop of `next` never uses its fuel up: more of it changes nothing. -/
theorem nextLoop_of_enough {self : SSTableIterator} {fuel : Nat}
    (enough : self.reader.index.length ≤ self.currentBlock + (fuel + 1)) :
    nextLoop external (fuel + 2) self = nextLoop external (fuel + 1) self := by
  induction fuel generalizing self with
  | zero => exact nextLoop_congr fun _ _ _ more => absurd enough more
  | succ fuel ih =>
      apply nextLoop_congr
      intro loaded index block _
      apply ih
      change loaded.reader.index.length ≤ loaded.currentBlock + 1 + (fuel + 1)
      rw [index, block]
      omega

/-- A call of `next` is one call on the reads ahead. -/
theorem turn_next (external : External) {self : SSTableIterator} (clean : self.Clean) :
    ReadTurn (ahead external self) (self.next external).1 (ahead external (self.next external).2) ∧
      (self.next external).2.Clean := by
  have answers := answers_nextLoop external clean self.reader.index.length
    (by omega)
  rw [next_eq]
  exact ⟨answers.turn, answers.clean⟩

/-! ## All calls -/

/-- With a block ahead that cannot be read, no call returns `None`. -/
theorem item_of_failed {self : SSTableIterator} (clean : self.Clean)
    (failed : ∃ fault, .error fault ∈ ahead external self) (calls : Nat) :
    self.item external calls ≠ none := by
  induction calls generalizing self with
  | zero => exact ((turn_next external clean).1.of_failed failed).1
  | succ calls ih =>
      have turned := turn_next external clean
      exact ih turned.2 (turned.1.of_failed failed).2

theorem item_of_allRead {self : SSTableIterator} (clean : self.Clean)
    (all : AllRead (ahead external self)) (calls : Nat) :
    self.item external calls = (readEntries (ahead external self))[calls]?.map .ok := by
  induction calls generalizing self with
  | zero => rw [← List.head?_eq_getElem?]; exact ((turn_next external clean).1.of_allRead all).1
  | succ calls ih =>
      have turned := turn_next external clean
      obtain ⟨_, rest, left⟩ := turned.1.of_allRead all
      have later := ih turned.2 rest
      rw [left, List.getElem?_tail] at later
      exact later

/-- The number of calls that the blocks account for: one for each entry of a block that
can be read, one for each block that cannot. -/
def callsFor (reads : List (Result (List Entry))) : Nat :=
  (reads.map fun read =>
    match read with
    | .ok entries => entries.length
    | .error _ => 1).sum

/-- Calls of `next` reach `None` after no more calls than the blocks account for, and
have returned every entry of a readable block before. -/
def IterationEnds (external : External) (reader : SSTableReader) : Prop :=
  ∃ calls, calls ≤ callsFor (blockReads external reader.index reader) ∧
    (new reader).item external calls = none ∧
    ∀ entries, .ok entries ∈ blockReads external reader.index reader → ∀ entry ∈ entries,
      ∃ call < calls, (new reader).item external call = some (.ok entry)

theorem callsFor_of_allRead {reads : List (Result (List Entry))} (all : AllRead reads) :
    callsFor reads = (readEntries reads).length := by
  induction reads with
  | nil => rfl
  | cons read reads ih =>
      obtain ⟨entries, rfl⟩ := all read List.mem_cons_self
      have rest := ih fun other member => all other (List.mem_cons_of_mem _ member)
      rw [callsFor, List.map_cons, List.sum_cons, ← callsFor, rest]
      exact List.length_append.symm

theorem ahead_new (external : External) (reader : SSTableReader) :
    ahead external (new reader) = blockReads external reader.index reader :=
  ahead_of_unloaded rfl

theorem clean_new (reader : SSTableReader) : (new reader).Clean :=
  fun _ => rfl

/-- An iterator that comes to an end has read every block. -/
theorem allRead_of_item_none {reader : SSTableReader} {calls : Nat}
    (ended : (new reader).item external calls = none) :
    AllRead (blockReads external reader.index reader) := by
  intro read member
  cases read with
  | ok entries => exact ⟨entries, rfl⟩
  | error fault =>
      refine absurd ended (item_of_failed (clean_new reader) ⟨fault, ?_⟩ calls)
      rwa [ahead_new]

/-- Iterating a table ends exactly when every block of its index can be read. -/
theorem iterationEnds_iff (external : External) (reader : SSTableReader) :
    IterationEnds external reader ↔ AllRead (blockReads external reader.index reader) := by
  constructor
  · rintro ⟨calls, _, ended, _⟩
    exact allRead_of_item_none ended
  · intro all
    have items : ∀ calls, (new reader).item external calls =
        (readEntries (blockReads external reader.index reader))[calls]?.map .ok := by
      intro calls
      rw [← ahead_new external] at all ⊢
      exact item_of_allRead (clean_new reader) all calls
    refine ⟨_, (callsFor_of_allRead all).ge, ?_, ?_⟩
    · rw [items, List.getElem?_eq_none le_rfl]
      rfl
    · intro entries member entry inside
      have listed : entry ∈ readEntries (blockReads external reader.index reader) :=
        List.mem_flatMap.mpr ⟨_, member, inside⟩
      obtain ⟨call, within, found⟩ := List.getElem_of_mem listed
      refine ⟨call, within, ?_⟩
      rw [items, List.getElem?_eq_getElem within, found]
      rfl

/-- A table of one entry, with a byte of the block's checksum changed. -/
private def damagedFile : Bytes :=
  (final (({ compression := .none } : SSTableBuilder).build External.plain 0
    [{ key := [1], value := some [10], timestamp := 5, sequence := 1 }]
    { output := .spacious })).written.set 0 255

/-- The iterator of a table with a damaged block never ends. -/
theorem damaged_block_never_passed :
    ¬ ∀ (contents : Bytes) (reader : SSTableReader),
      recover [] contents true = .ok reader → IterationEnds External.plain reader := by
  intro ends
  have damaged : (recover [] damagedFile true).toOption.any (fun reader =>
      (blockReads External.plain reader.index reader).any fun read => read.toOption.isNone) =
        true := by decide +kernel
  cases opened : recover [] damagedFile true with
  | error fault =>
      rw [opened] at damaged
      cases damaged
  | ok reader =>
      rw [opened] at damaged
      obtain ⟨read, member, unread⟩ := List.any_eq_true.mp damaged
      cases read with
      | ok entries => cases unread
      | error fault =>
          obtain ⟨calls, _, ended, _⟩ := ends damagedFile reader opened
          refine item_of_failed (clean_new reader) ⟨fault, ?_⟩ calls ended
          rwa [ahead_new]

end SSTableIterator

end JustDb

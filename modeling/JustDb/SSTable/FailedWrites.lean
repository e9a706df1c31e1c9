import JustDb.Library.Runs
import JustDb.SSTable.BlockRoundTrip
import JustDb.SSTable.DamagedIteration
import JustDb.SSTable.TableRoundTrip

/-!
# Writing a table through failed writes

`add` notes the key of an entry before it makes room for the entry, and a flush moves on
between its two writes.  Callers may go on after an error, with the same entry or with
another.  The writer survives that as long as no write of a flush that `add` starts is
refused: then what it has written is read back, whatever else its callers do.  After the
first such refusal the entry that was to be added can never be added.
-/

namespace JustDb

open Stateful

/-- The writes of a block go through: first its checksum, then its compressed bytes. -/
def Sink.AcceptsBlock (self : Sink) (compressed : Bytes) : Prop :=
  self.output.accepts self.calls (self.written.length + 4) = true ∧
    self.output.accepts (self.calls + 1) (self.written.length + 4 + compressed.length) = true

namespace SSTableWriter

open SSTableReader

variable {external : External}

/-! ## Calls of `add` that may fail -/

/-- The same writer once the file system treats its file in another way. -/
def treatedBy (self : SSTableWriter) (output : Output) : SSTableWriter :=
  { self with writer := { self.writer with output } }

/-- What calls of `add` have come to: the writer they have reached, and the entries whose
`add` returned `Ok`. -/
structure Attempts where
  writer : SSTableWriter
  added : List Entry := []

variable (external) in
/-- Call `add`, and go on whether or not it returns `Ok`. -/
def attempt (attempts : Attempts) (entry : Entry) : Attempts :=
  match add external entry attempts.writer with
  | .ok _ writer => { writer, added := attempts.added ++ [entry] }
  | .error _ writer => { attempts with writer }

variable (external) in
/-- If adding the entry fails for a write error, adding it again succeeds under some
treatment of the file. -/
def Retriable (attempts : Attempts) (entry : Entry) : Prop :=
  ∀ failed, add external entry attempts.writer = .error (.error .io) failed →
    ∃ output retried, add external entry (failed.treatedBy output) = .ok () retried

variable (external) in
/-- A writer survives write errors under a list of calls: each entry whose `add` fails for
a write error may be retried with success, and if `finish` returns `Ok` after the calls,
the file gives back exactly the entries whose `add` returned `Ok`. -/
def SurvivesRefusals (writer : SSTableWriter) (calls : List Entry) : Prop :=
  Runs.Guarded (Retriable external) (attempt external) { writer } calls ∧
    ∀ metadata finished,
      finish external (Runs.run (attempt external) { writer } calls).writer =
        .ok metadata finished →
      IteratesBack external finished.writer.written
        (Runs.run (attempt external) { writer } calls).added

/-- The block in hand has entries and no room for one more. -/
def Full (self : SSTableWriter) (entry : Entry) : Prop :=
  self.currentBlock.length + (entryBytes entry).length > blockSize ∧ self.currentBlockEntries > 0

instance (self : SSTableWriter) (entry : Entry) : Decidable (self.Full entry) :=
  inferInstanceAs (Decidable (_ ∧ _))

/-- The key is above the keys before it. -/
def Above (self : SSTableWriter) (key : Key) : Prop :=
  ∀ maxKey, self.maxKey = some maxKey → maxKey < key

variable (external) in
/-- If adding the entry starts a flush, the file system accepts both its writes. -/
def WritesAccepted (self : SSTableWriter) (entry : Entry) : Prop :=
  self.Above entry.key → self.Full entry → ∀ compressed,
    compressBlock external self.compression self.compressionLevel
      (blockData self.currentBlockEntries self.currentBlock) = .ok compressed →
    self.writer.AcceptsBlock compressed

/-- Take an entry whose key is above the last one taken. -/
def takeAbove (taken : List Entry) (entry : Entry) : List Entry :=
  if ∀ last ∈ taken.getLast?, last.key < entry.key then taken ++ [entry] else taken

/-- The entries whose keys are above all keys before them. -/
def rising (calls : List Entry) : List Entry :=
  Runs.run takeAbove [] calls

/-- A table of these entries can be read back: its index counts its blocks, and zstd has
room to decompress each. -/
structure Restorable (compression : CompressionType) (entries : List Entry) : Prop where
  indexable : (splitBlocks entries).length < u32Size
  capacity : compression = .zstd → ∀ entry ∈ entries,
    (entryBytes entry).length + 4 ≤ decompressionCapacity

/-! ## What one write does -/

/-- Every block can be compressed. -/
theorem compressBlock_isOk (compresses : external.ZstdCompresses) (compression : CompressionType)
    (level : Int) (data : Bytes) :
    ∃ compressed, compressBlock external compression level data = .ok compressed := by
  by_cases plain : compression = .zstd
  · subst plain
    obtain ⟨compressed, made⟩ := compresses data level
    exact ⟨compressed, by rw [compressBlock, made]⟩
  · exact compressible plain level data

theorem emit_of_accepted {self : SSTableWriter} {data : Bytes} (placed : self.Placed)
    (bounded : self.writer.output.Bounded)
    (accepted : self.writer.output.accepts self.writer.calls
      (self.writer.written.length + data.length) = true) :
    emit data self = .ok () (self.emitted data) := by
  have room : self.writer.output.accepts self.writer.calls
      (self.writer.grown data).written.length = true := by
    rwa [Sink.grown, List.length_append]
  have small := bounded _ _ accepted
  rw [← placed] at small
  have counted : checkedAdd self.position data.length = .ok (self.position + data.length) :=
    checkedAdd_eq_ok.mpr ⟨lt_of_le_of_lt small (by decide), rfl⟩
  rw [emit, bind_of_ok (onWriter_writeAll_eq_ok.mpr ⟨room, rfl⟩), bind_of_ok (get_apply _),
    counted, bind_of_ok (lift_ok _ _)]
  rfl

theorem emit_of_refused {self : SSTableWriter} {data : Bytes}
    (refused : ¬ self.writer.output.accepts self.writer.calls
      (self.writer.written.length + data.length) = true) :
    emit data self = .error (.error .io) { self with writer := self.writer.turnedAway } := by
  have full : ¬ self.writer.output.accepts self.writer.calls
      (self.writer.grown data).written.length = true := by
    rwa [Sink.grown, List.length_append]
  apply bind_of_error
  rw [onWriter, Sink.writeAll, if_neg full]

theorem emit_checksum_of_accepted {self : SSTableWriter} {compressed : Bytes}
    (placed : self.Placed) (bounded : self.writer.output.Bounded)
    (accepted : self.writer.output.accepts self.writer.calls
      (self.writer.written.length + 4) = true) :
    emit (LittleEndian.encode 4 (external.crc32 compressed).toNat) self =
      .ok () (self.emitted (LittleEndian.encode 4 (external.crc32 compressed).toNat)) := by
  apply emit_of_accepted placed bounded
  rwa [LittleEndian.encode_length]

/-- A flush whose writes go through puts the block in hand into the file. -/
theorem flushCurrentBlock_of_accepted {self : SSTableWriter} {compressed : Bytes}
    (placed : self.Placed) (bounded : self.writer.output.Bounded)
    (nonempty : self.currentBlock ≠ [])
    (made : compressBlock external self.compression self.compressionLevel
      (blockData self.currentBlockEntries self.currentBlock) = .ok compressed)
    (accepted : self.writer.AcceptsBlock compressed) :
    flushCurrentBlock external self = .ok () (self.flushedAs external compressed) := by
  have checksum := @emit_checksum_of_accepted external self compressed placed bounded accepted.1
  have payload := @emit_of_accepted
    (self.emitted (LittleEndian.encode 4 (external.crc32 compressed).toNat)) compressed
    (placed.emitted _) bounded
    (by simpa [emitted, Sink.grown, LittleEndian.encode_length] using accepted.2)
  have small := bounded _ _ accepted.2
  have size : checkedAdd compressed.length 4 = .ok (compressed.length + 4) := by
    apply checkedAdd_eq_ok.mpr
    refine ⟨lt_of_le_of_lt ?_ (by decide : maxFileSize < wordSize), rfl⟩
    omega
  rw [flushCurrentBlock, bind_of_ok (get_apply self), if_neg (by simpa using nonempty), made,
    bind_of_ok (lift_ok _ _), bind_of_ok checksum, bind_of_ok payload, size,
    bind_of_ok (lift_ok _ _)]
  rfl

/-- A flush one of whose writes is refused fails, and leaves the largest key noted. -/
theorem flushCurrentBlock_of_refused {self : SSTableWriter} {compressed : Bytes}
    (placed : self.Placed) (bounded : self.writer.output.Bounded)
    (nonempty : self.currentBlock ≠ [])
    (made : compressBlock external self.compression self.compressionLevel
      (blockData self.currentBlockEntries self.currentBlock) = .ok compressed)
    (refused : ¬ self.writer.AcceptsBlock compressed) :
    ∃ failed, flushCurrentBlock external self = .error (.error .io) failed ∧
      failed.maxKey = self.maxKey := by
  rw [flushCurrentBlock, bind_of_ok (get_apply self), if_neg (by simpa using nonempty), made,
    bind_of_ok (lift_ok _ _)]
  by_cases checked : self.writer.output.accepts self.writer.calls
      (self.writer.written.length + 4) = true
  · have checksum := @emit_checksum_of_accepted external self compressed placed bounded checked
    have payload := @emit_of_refused
      (self.emitted (LittleEndian.encode 4 (external.crc32 compressed).toNat)) compressed (by
        intro accepted
        apply refused
        refine ⟨checked, ?_⟩
        simpa [emitted, Sink.grown, LittleEndian.encode_length] using accepted)
    rw [bind_of_ok checksum, bind_of_error payload]
    exact ⟨_, rfl, rfl⟩
  · have checksum : emit (LittleEndian.encode 4 (external.crc32 compressed).toNat) self =
        .error (.error .io) { self with writer := self.writer.turnedAway } := by
      apply emit_of_refused
      rwa [LittleEndian.encode_length]
    rw [bind_of_error checksum]
    exact ⟨_, rfl, rfl⟩

/-! ## What one call of `add` does -/

theorem checkOrder_of_above {self : SSTableWriter} {key : Key} (above : self.Above key) :
    checkOrder key self = .ok () self := by
  rw [checkOrder, bind_of_ok (get_apply self)]
  cases largest : self.maxKey with
  | none => rfl
  | some maxKey =>
      dsimp only
      rw [if_neg (not_le.mpr (above maxKey largest))]
      rfl

theorem add_of_not_above {self : SSTableWriter} {entry : Entry} (below : ¬ self.Above entry.key) :
    add external entry self = .error unsorted self := by
  apply bind_of_error
  rw [checkOrder, bind_of_ok (get_apply self)]
  cases largest : self.maxKey with
  | none => exact absurd (fun maxKey same => by simp [largest] at same) below
  | some maxKey =>
      have refused : entry.key ≤ maxKey := by
        by_contra higher
        apply below
        intro other same
        cases largest.symm.trans same
        exact not_le.mp higher
      dsimp only
      rw [if_pos refused]
      rfl

/-- What calls of `add` keep as long as their flushes go through, with the calls ahead:
the writer is as after successful calls for the entries added, and all entries that
will be taken are known. -/
structure Surviving (external : External) (start : SSTableWriter) (all : List Entry)
    (attempts : Attempts) (ahead : List Entry) : Prop where
  adding : Adding external start attempts.writer attempts.added
  bounded : start.writer.output.Bounded
  indexable : 0 < start.bloomFilter.bitCount
  room : attempts.added.length + ahead.length < wordSize
  limits : ∀ entry ∈ attempts.added ++ ahead, entry.WithinLimits
  takes : Runs.run takeAbove attempts.added ahead = all

namespace Surviving

variable {start : SSTableWriter} {all ahead : List Entry} {attempts : Attempts} {entry : Entry}

theorem roomFor (surviving : Surviving external start all attempts (entry :: ahead)) :
    attempts.added.length + 1 < wordSize := by
  have room := surviving.room
  rw [List.length_cons] at room
  omega

theorem output_bounded (surviving : Surviving external start all attempts (entry :: ahead)) :
    attempts.writer.writer.output.Bounded := by
  rw [surviving.adding.output]
  exact surviving.bounded

/-- Up to the flush, adding an entry in order cannot fail. -/
theorem add_of_above (surviving : Surviving external start all attempts (entry :: ahead))
    (above : attempts.writer.Above entry.key) :
    add external entry attempts.writer =
      (do
        makeRoom external (entryBytes entry)
        appendEntry entry.key (entryBytes entry) : Writing Unit)
        (attempts.writer.noted entry.key) := by
  have indexable : 0 < attempts.writer.bloomFilter.bitCount := by
    rw [surviving.adding.bloomFilter]
    exact surviving.indexable
  have countable : attempts.writer.bloomFilter.elementCount + 1 < wordSize := by
    rw [surviving.adding.bloomFilter]
    exact surviving.roomFor
  rw [add, bind_of_ok (checkOrder_of_above above),
    bind_of_ok (noteKey_of_room indexable countable entry.key)]

theorem makeRoom_noted (surviving : Surviving external start all attempts (entry :: ahead)) :
    makeRoom external (entryBytes entry) (attempts.writer.noted entry.key) =
      if attempts.writer.Full entry then
        flushCurrentBlock external (attempts.writer.noted entry.key)
      else .ok () (attempts.writer.noted entry.key) := by
  have limits : ∀ added ∈ attempts.added ++ [entry], added.WithinLimits := by
    intro added member
    apply surviving.limits
    rcases List.mem_append.mp member with earlier | last
    · exact List.mem_append_left _ earlier
    · rw [List.mem_singleton.mp last]
      simp
  apply makeRoom_of_small
  exact surviving.adding.currentBlock_room limits

/-- A full block has entries. -/
theorem currentBlock_ne_nil
    (surviving : Surviving external start all attempts (entry :: ahead))
    (full : attempts.writer.Full entry) : attempts.writer.currentBlock ≠ [] := by
  intro empty
  have none := surviving.adding.holds.currentBlock_eq_nil.mp empty
  have some := full.2
  rw [surviving.adding.holds.currentBlockEntries, none] at some
  exact lt_irrefl 0 some

/-- Adding an entry in order succeeds where its writes go through. -/
theorem add_of_accepted (surviving : Surviving external start all attempts (entry :: ahead))
    (compresses : external.ZstdCompresses) (above : attempts.writer.Above entry.key)
    (accepted : attempts.writer.WritesAccepted external entry) :
    ∃ after, add external entry attempts.writer = .ok () after := by
  have making : ∃ roomy, makeRoom external (entryBytes entry) (attempts.writer.noted entry.key) =
      .ok () roomy := by
    rw [surviving.makeRoom_noted]
    split
    next full =>
      obtain ⟨compressed, made⟩ := compressBlock_isOk compresses attempts.writer.compression
        attempts.writer.compressionLevel
        (blockData attempts.writer.currentBlockEntries attempts.writer.currentBlock)
      exact ⟨_, flushCurrentBlock_of_accepted (surviving.adding.holds.noted entry.key).placed
        surviving.output_bounded (surviving.currentBlock_ne_nil full) made
        (accepted above full compressed made)⟩
    next => exact ⟨_, rfl⟩
  obtain ⟨roomy, made⟩ := making
  rw [surviving.add_of_above above, bind_of_ok made,
    surviving.adding.appendEntry_of_room surviving.roomFor made]
  exact ⟨_, rfl⟩

/-- Adding an entry in order fails where a write is refused, and its key stays noted. -/
theorem add_of_refused (surviving : Surviving external start all attempts (entry :: ahead))
    (above : attempts.writer.Above entry.key) (full : attempts.writer.Full entry)
    {compressed : Bytes}
    (made : compressBlock external attempts.writer.compression attempts.writer.compressionLevel
      (blockData attempts.writer.currentBlockEntries attempts.writer.currentBlock) =
        .ok compressed)
    (refused : ¬ attempts.writer.writer.AcceptsBlock compressed) :
    ∃ failed, add external entry attempts.writer = .error (.error .io) failed ∧
      failed.maxKey = some entry.key := by
  have flushing : ∃ failed, flushCurrentBlock external (attempts.writer.noted entry.key) =
      .error (.error .io) failed ∧ failed.maxKey = (attempts.writer.noted entry.key).maxKey :=
    flushCurrentBlock_of_refused (surviving.adding.holds.noted entry.key).placed
      surviving.output_bounded (surviving.currentBlock_ne_nil full) made refused
  obtain ⟨failed, flushed, largest⟩ := flushing
  have making := surviving.makeRoom_noted
  rw [if_pos full, flushed] at making
  rw [surviving.add_of_above above, bind_of_error making]
  exact ⟨failed, rfl, largest⟩

/-- A call can be tried again with success exactly when it has no refused write. -/
theorem retriable_iff (surviving : Surviving external start all attempts (entry :: ahead))
    (compresses : external.ZstdCompresses) :
    Retriable external attempts entry ↔ attempts.writer.WritesAccepted external entry := by
  constructor
  · intro retriable above full compressed made
    by_contra refused
    obtain ⟨failed, ran, largest⟩ := surviving.add_of_refused above full made refused
    obtain ⟨output, retried, again⟩ := retriable failed ran
    have below : ¬ (failed.treatedBy output).Above entry.key := by
      intro higher
      exact lt_irrefl _ (higher entry.key largest)
    rw [add_of_not_above below] at again
    cases again
  · intro accepted failed ran
    by_cases above : attempts.writer.Above entry.key
    · obtain ⟨after, succeeded⟩ := surviving.add_of_accepted compresses above accepted
      rw [succeeded] at ran
      cases ran
    · rw [add_of_not_above above] at ran
      cases ran

/-- What the writer takes next is decided by the keys it has taken. -/
theorem above_iff (surviving : Surviving external start all attempts (entry :: ahead)) :
    attempts.writer.Above entry.key ↔
      ∀ last ∈ attempts.added.getLast?, last.key < entry.key := by
  rw [Above, surviving.adding.maxKey]
  constructor
  · intro above last final
    exact above last.key (Option.map_eq_some_iff.mpr ⟨last, final, rfl⟩)
  · intro above maxKey largest
    obtain ⟨last, final, rfl⟩ := Option.map_eq_some_iff.mp largest
    exact above last final

/-- A call whose writes go through keeps the writer surviving. -/
theorem step (surviving : Surviving external start all attempts (entry :: ahead))
    (compresses : external.ZstdCompresses)
    (accepted : attempts.writer.WritesAccepted external entry) :
    Surviving external start all (attempt external attempts entry) ahead := by
  have takes := surviving.takes
  have room := surviving.room
  rw [List.length_cons] at room
  rw [Runs.run_cons, takeAbove] at takes
  by_cases above : attempts.writer.Above entry.key
  · obtain ⟨after, ran⟩ := surviving.add_of_accepted compresses above accepted
    rw [if_pos (surviving.above_iff.mp above)] at takes
    rw [attempt, ran]
    refine ⟨surviving.adding.add ran, surviving.bounded, surviving.indexable, ?_, ?_, takes⟩
    · rw [List.length_append, List.length_singleton]
      omega
    · rw [List.append_assoc]
      exact surviving.limits
  · rw [if_neg (fun higher => above (surviving.above_iff.mpr higher))] at takes
    have same : attempt external attempts entry = attempts := by
      rw [attempt, add_of_not_above above]
    rw [same]
    refine ⟨surviving.adding, surviving.bounded, surviving.indexable, by omega, ?_, takes⟩
    intro added member
    apply surviving.limits
    rcases List.mem_append.mp member with earlier | later
    · exact List.mem_append_left _ earlier
    · exact List.mem_append_right _ (List.mem_cons_of_mem _ later)

end Surviving

/-! ## What is read back -/

/-- A stored block is not empty. -/
theorem stored_ne_nil (compresses : external.ZstdCompresses) (self : SSTableWriter)
    (group : List Entry) : self.stored external group ≠ [] := by
  obtain ⟨compressed, made⟩ := compressBlock_isOk compresses self.compression
    self.compressionLevel (blockBytes group)
  intro empty
  have length := congrArg List.length empty
  rw [stored, storedBlock, made, List.length_append, LittleEndian.encode_length,
    List.length_nil] at length
  omega

/-- What a stored block unpacks to. -/
theorem unpackBlock_stored {self : SSTableWriter} {group : List Entry} {compressed : Bytes}
    (made : compressBlock external self.compression self.compressionLevel (blockBytes group) =
      .ok compressed) :
    unpackBlock external self.compression (self.stored external group) =
      decompressBlock external self.compression compressed := by
  rw [stored, storedBlock, made, unpackBlock_checked]

/-- Whether a stored block unpacks to what it was made from. -/
theorem unpackBlock_stored_iff (lz4 : external.Lz4RoundTrips) (zstd : external.ZstdRoundTrips)
    (compresses : external.ZstdCompresses) (self : SSTableWriter) (group : List Entry) :
    unpackBlock external self.compression (self.stored external group) =
        .ok (blockBytes group) ↔
      self.compression ≠ .zstd ∨ (blockBytes group).length ≤ decompressionCapacity := by
  obtain ⟨compressed, made⟩ := compressBlock_isOk compresses self.compression
    self.compressionLevel (blockBytes group)
  rw [unpackBlock_stored made, decompressBlock_iff lz4 zstd made]

/-- A stored block that unpacks to anything fits the reader's buffer. -/
theorem fits_of_unpackBlock (zstd : external.ZstdRoundTrips)
    (compresses : external.ZstdCompresses) {self : SSTableWriter} {group : List Entry}
    {data : Bytes}
    (ran : unpackBlock external self.compression (self.stored external group) = .ok data) :
    self.compression ≠ .zstd ∨ (blockBytes group).length ≤ decompressionCapacity := by
  obtain ⟨compressed, made⟩ := compressBlock_isOk compresses self.compression
    self.compressionLevel (blockBytes group)
  rw [unpackBlock_stored made] at ran
  exact fits_of_decompressBlock zstd made ran

/-- A finished writer's file is recovered with the blocks that its index counts. -/
theorem Adding.recovered {start filled finished : SSTableWriter} {entries : List Entry}
    {metadata : SStableMeta} (adding : Adding external start filled entries)
    (bounded : start.writer.output.Bounded) (limits : ∀ entry ∈ entries, entry.WithinLimits)
    (ran : finish external filled = .ok metadata finished) (path : FileName) (mapped : Bool) :
    ∃ reader, recover path finished.writer.written mapped = .ok reader ∧
      reader.metadata.compression = filled.compression ∧
        Recovered reader (filled.stored external) (indexedBlocks entries) := by
  obtain ⟨written, -⟩ := adding.holds.finish_result ran
  refine recovered_of_fileBytes path mapped written.written (written.bounded ?_)
    written.addressable fun entry member => (limits entry member).encodable.key
  rw [adding.output]
  exact bounded

/-- The indexed blocks hold all entries only where there are few blocks. -/
theorem length_lt_of_perm {entries : List Entry}
    (same : (indexedBlocks entries).flatten.Perm entries) :
    (splitBlocks entries).length < u32Size := by
  obtain ⟨rest, whole⟩ := indexedBlocks_prefix_splitBlocks entries
  have total : (indexedBlocks entries).flatten ++ rest.flatten = entries := by
    rw [← List.flatten_append, whole, flatten_splitBlocks]
  have lengths := congrArg List.length total
  rw [List.length_append, same.length_eq] at lengths
  have empty : rest.flatten = [] := List.eq_nil_of_length_eq_zero (by omega)
  have none : rest = [] := by
    apply List.eq_nil_iff_forall_not_mem.mpr
    intro group member
    have block : group ∈ splitBlocks entries := by
      rw [← whole]
      exact List.mem_append_right _ member
    exact ne_nil_of_mem_splitBlocks block (List.flatten_eq_nil_iff.mp empty group member)
  rw [none, List.append_nil] at whole
  rw [← whole, indexedBlocks]
  exact lt_of_le_of_lt (List.length_take_le _ _) (Nat.mod_lt _ (by decide))

/-- Two lists that calls of `next` cannot tell apart are the same. -/
theorem eq_of_items {first second : List Entry}
    (same : ∀ call : Nat, first[call]?.map (Except.ok : Entry → Result Entry) =
      second[call]?.map .ok) : first = second := by
  apply List.ext_getElem?
  intro call
  exact Option.map_injective (fun _ _ equal => Except.ok.inj equal) (same call)

/-- A recovered reader serves its blocks where each fits its buffer. -/
theorem serves_of_fits (lz4 : external.Lz4RoundTrips) (zstd : external.ZstdRoundTrips)
    (compresses : external.ZstdCompresses) {filled : SSTableWriter} {entries : List Entry}
    {reader : SSTableReader} (compression : reader.metadata.compression = filled.compression)
    (recovered : Recovered reader (filled.stored external) (indexedBlocks entries))
    (limits : ∀ entry ∈ entries, entry.WithinLimits)
    (fits : ∀ group ∈ indexedBlocks entries,
      filled.compression ≠ .zstd ∨ (blockBytes group).length ≤ decompressionCapacity) :
    reader.Serves external (filled.stored external) (indexedBlocks entries) := by
  apply recovered.serves
  · intro group member
    rw [compression]
    exact (unpackBlock_stored_iff lz4 zstd compresses filled group).mpr (fits group member)
  · intro group member
    exact parsable_of_mem_indexedBlocks limits member

/-- Each block fits the buffer of a reader over which an iterator comes to an end. -/
theorem fits_of_ended (zstd : external.ZstdRoundTrips) (compresses : external.ZstdCompresses)
    {filled : SSTableWriter} {groups : List (List Entry)} {reader : SSTableReader}
    (compression : reader.metadata.compression = filled.compression)
    (recovered : Recovered reader (filled.stored external) groups) {calls : Nat}
    (ended : (SSTableIterator.new reader).item external calls = none) :
    ∀ group ∈ groups,
      filled.compression ≠ .zstd ∨ (blockBytes group).length ≤ decompressionCapacity := by
  intro group member
  obtain ⟨data, unpacked⟩ := recovered.unpack_of_allRead
    (fun group _ => stored_ne_nil compresses filled group)
    (SSTableIterator.allRead_of_item_none ended) group member
  rw [compression] at unpacked
  exact fits_of_unpackBlock zstd compresses unpacked

/-- A finished writer's file gives back its entries exactly where they can be restored. -/
theorem Adding.iteratesBack_iff {start filled finished : SSTableWriter} {entries : List Entry}
    {metadata : SStableMeta} (adding : Adding external start filled entries)
    (bounded : start.writer.output.Bounded) (lz4 : external.Lz4RoundTrips)
    (zstd : external.ZstdRoundTrips) (compresses : external.ZstdCompresses)
    (limits : ∀ entry ∈ entries, entry.WithinLimits)
    (ran : finish external filled = .ok metadata finished) :
    IteratesBack external finished.writer.written entries ↔
      Restorable filled.compression entries := by
  have nonempty : ∀ group ∈ indexedBlocks entries, group ≠ [] :=
    fun group member => ne_nil_of_mem_indexedBlocks member
  constructor
  · intro back
    obtain ⟨reader, sorted, opened, same, -, items⟩ := back [] true
    obtain ⟨other, again, compression, recovered⟩ := adding.recovered bounded limits ran [] true
    cases opened.symm.trans again
    have ended : (SSTableIterator.new reader).item external sorted.length = none := by
      rw [items, List.getElem?_eq_none le_rfl]
      rfl
    have fits := fits_of_ended zstd compresses compression recovered ended
    have serves := serves_of_fits lz4 zstd compresses compression recovered limits fits
    have read : sorted = (indexedBlocks entries).flatten := by
      apply eq_of_items
      intro call
      rw [← items, SSTableIterator.item_eq nonempty serves]
    rw [read] at same
    have few := length_lt_of_perm same
    refine ⟨few, fun plain => blocks_fit_iff.mp fun group member => ?_⟩
    rw [← indexedBlocks_of_lt few] at member
    exact (fits group member).resolve_left (not_not.mpr plain)
  · rintro ⟨few, capacity⟩ path mapped
    obtain ⟨reader, opened, compression, recovered⟩ :=
      adding.recovered bounded limits ran path mapped
    have fits : ∀ group ∈ indexedBlocks entries,
        filled.compression ≠ .zstd ∨ (blockBytes group).length ≤ decompressionCapacity := by
      intro group member
      rw [indexedBlocks_of_lt few] at member
      rw [← imp_iff_not_or]
      exact fun plain => blocks_fit_iff.mpr (capacity plain) group member
    have serves := serves_of_fits lz4 zstd compresses compression recovered limits fits
    refine ⟨reader, entries, opened, .refl _, adding.ascending, fun call => ?_⟩
    rw [SSTableIterator.item_eq nonempty serves, indexedBlocks_of_lt few, flatten_splitBlocks]

/-! ## Whole runs -/

/-- Before the first call, a new writer survives. -/
theorem surviving_start {output : Output} {expectedEntries : Nat} {compression : CompressionType}
    {level : Int} {rate : Float64} {createdAt : Timestamp} {writer : SSTableWriter}
    {opened : Sink} {calls : List Entry} (bounded : output.Bounded)
    (created : SSTableWriter.new external expectedEntries compression level rate createdAt
      { output } = .ok writer opened)
    (limits : ∀ entry ∈ calls, entry.WithinLimits) (room : calls.length < wordSize) :
    writer.compression = compression ∧
      Surviving external writer (rising calls) { writer } calls := by
  obtain ⟨adding, indexable, settings⟩ := adding_of_new created
  have target : writer.writer.output = output := congrArg Prod.fst settings
  refine ⟨congrArg (fun settings => settings.2.1) settings, adding, ?_, indexable, ?_, limits, rfl⟩
  · rw [target]
    exact bounded
  · rwa [List.length_nil, Nat.zero_add]

/-- A new writer survives write errors under a list of calls exactly when no flush that
`add` starts has a refused write and, if `finish` returns `Ok`, the entries that were in
order can be restored. -/
theorem survivesRefusals_iff {output : Output} {expectedEntries : Nat}
    {compression : CompressionType} {level : Int} {rate : Float64} {createdAt : Timestamp}
    {writer : SSTableWriter} {opened : Sink} {calls : List Entry} (bounded : output.Bounded)
    (lz4 : external.Lz4RoundTrips) (zstd : external.ZstdRoundTrips)
    (compresses : external.ZstdCompresses)
    (created : SSTableWriter.new external expectedEntries compression level rate createdAt
      { output } = .ok writer opened)
    (limits : ∀ entry ∈ calls, entry.WithinLimits) (room : calls.length < wordSize) :
    SurvivesRefusals external writer calls ↔
      Runs.Guarded (fun attempts entry => attempts.writer.WritesAccepted external entry)
          (attempt external) { writer } calls ∧
        ((∃ metadata finished,
            finish external (Runs.run (attempt external) { writer } calls).writer =
              .ok metadata finished) →
          Restorable compression (rising calls)) := by
  obtain ⟨settled, surviving⟩ := surviving_start bounded created limits room
  have step : ∀ attempts entry ahead,
      Surviving external writer (rising calls) attempts (entry :: ahead) →
      attempts.writer.WritesAccepted external entry →
      Surviving external writer (rising calls) (attempt external attempts entry) ahead :=
    fun _ _ _ held accepted => held.step compresses accepted
  have retriable := @Runs.guarded_congr Attempts Entry (Retriable external)
    (fun attempts entry => attempts.writer.WritesAccepted external entry) (attempt external)
    (Surviving external writer (rising calls)) (fun _ _ _ held => held.retriable_iff compresses)
    step { writer } calls surviving
  rw [SurvivesRefusals, retriable]
  apply and_congr_right
  intro guarded
  have reached := guarded.invariant_ahead step surviving
  have added : (Runs.run (attempt external) { writer } calls).added = rising calls :=
    reached.takes
  have adding := reached.adding
  have small := reached.limits
  rw [List.append_nil] at small
  rw [added] at adding small ⊢
  have restores : ∀ {metadata finished},
      finish external (Runs.run (attempt external) { writer } calls).writer =
        .ok metadata finished →
      (IteratesBack external finished.writer.written (rising calls) ↔
        Restorable compression (rising calls)) := by
    intro metadata finished ran
    rw [adding.iteratesBack_iff surviving.bounded lz4 zstd compresses small ran,
      adding.compression, settled]
  constructor
  · rintro back ⟨metadata, finished, ran⟩
    exact (restores ran).mp (back metadata finished ran)
  · intro restorable metadata finished ran
    exact (restores ran).mpr (restorable ⟨metadata, finished, ran⟩)

/-- The filter of a new table for two entries. -/
private def filterForTwo : BloomFilter :=
  { bits := List.replicate 56 0, bitCount := 64, hashCount := 10, elementCount := 0 }

private theorem filterForTwo_made :
    BloomFilter.new External.plain 2 (.finite (1 / 100)) = .ok filterForTwo := by
  decide +kernel

/-- Three calls, the second with a key that is not above the first. -/
private def disordered : List Entry :=
  [{ key := [2], value := none, timestamp := 5, sequence := 1 },
   { key := [1], value := none, timestamp := 6, sequence := 2 },
   { key := [3], value := none, timestamp := 7, sequence := 3 }]

theorem survivesRefusals_iff_disordered :
    SurvivesRefusals External.plain (initial { compression := .zstd } .spacious filterForTwo 0)
      disordered := by
  have limits : ∀ entry ∈ disordered, entry.WithinLimits := by
    intro entry member
    have small : ∀ entry ∈ disordered, entry.key.length ≤ maxKeySize ∧ entry.value = none := by
      decide
    refine ⟨(small entry member).1, fun value stored => ?_⟩
    rw [(small entry member).2] at stored
    cases stored
  have created := @SSTableBuilder.new_of_made External.plain { compression := .zstd } .spacious 2
    filterForTwo rfl filterForTwo_made 0
  apply (survivesRefusals_iff Output.spacious_bounded External.plain_lz4RoundTrips
    External.plain_zstdRoundTrips External.plain_zstdCompresses created limits (by decide)).mpr
  refine ⟨⟨?_, ?_, ?_, trivial⟩, fun _ => ⟨by decide +kernel, fun _ => by decide +kernel⟩⟩
  · exact fun _ full => absurd full (by decide +kernel)
  · exact fun _ full => absurd full (by decide +kernel)
  · exact fun _ full => absurd full (by decide +kernel)

/-- A file system that refuses the second write to a file and no other. -/
private def refusingSecond : Output where
  opens := true
  accepts call length := decide (call ≠ 1 ∧ length ≤ maxFileSize)
  syncs := true

private theorem refusingSecond_bounded : refusingSecond.Bounded :=
  fun _ _ accepted => (of_decide_eq_true accepted).2

/-- An entry that fills a block and does not fit the buffer of the file either, and one that
needs another block. -/
private def twoBlocks : List Entry :=
  [{ key := [1], value := some (List.replicate 9000 255), timestamp := 5, sequence := 1 },
   { key := [2], value := none, timestamp := 6, sequence := 2 }]

private theorem twoBlocks_withinLimits : ∀ entry ∈ twoBlocks, entry.WithinLimits := by
  intro entry member
  rcases List.mem_pair.mp member with rfl | rfl
  · refine ⟨by decide, fun value stored => ?_⟩
    cases stored
    rw [List.length_replicate]
    decide
  · exact ⟨by decide, fun value stored => by cases stored⟩

/-- Whether the file that `finish` leaves after some calls can be opened and yields an
error as its first entry. -/
private def yieldsError (writer : SSTableWriter) (calls : List Entry) : Bool :=
  match finish External.plain (Runs.run (attempt External.plain) { writer } calls).writer with
  | .error _ _ => false
  | .ok _ finished =>
      match recover [] finished.writer.written true with
      | .error _ => false
      | .ok reader =>
          match (SSTableIterator.new reader).item External.plain 0 with
          | some (.error _) => true
          | _ => false

private theorem not_survives_of_yieldsError {writer : SSTableWriter} {calls : List Entry}
    (yields : yieldsError writer calls = true) :
    ¬ SurvivesRefusals External.plain writer calls := by
  rintro ⟨-, reads⟩
  unfold yieldsError at yields
  split at yields
  · cases yields
  next metadata finished ran =>
    obtain ⟨reader, sorted, opened, -, -, items⟩ := reads metadata finished ran [] true
    rw [opened] at yields
    dsimp only at yields
    rw [items] at yields
    cases first : sorted[0]? <;> simp [first] at yields

/-- The second of two entries starts a flush whose checksum is written and whose payload
is refused.  Its caller gives up and finishes the table, which succeeds, but the table's
only block no longer stands where the index says. -/
theorem refused_payload_not_survived :
    ¬ ∀ (output : Output) (calls : List Entry) (writer : SSTableWriter) (opened : Sink),
      output.Bounded → (∀ entry ∈ calls, entry.WithinLimits) →
      SSTableWriter.new External.plain calls.length .none 1 (.finite (1 / 100)) 0 { output } =
        .ok writer opened →
      SurvivesRefusals External.plain writer calls := by
  intro survives
  have created := @SSTableBuilder.new_of_made External.plain { compression := .none }
    refusingSecond 2 filterForTwo rfl filterForTwo_made 0
  apply not_survives_of_yieldsError _
    (survives refusingSecond twoBlocks _ _ refusingSecond_bounded twoBlocks_withinLimits created)
  decide +kernel

end SSTableWriter

end JustDb

import JustDb.SSTable.Blocks

/-!
# What a writer lays out

The file of a table is its stored blocks, its bloom filter, its index and its
footer, in this order.  Each call of `add` keeps an invariant that ties the
writer's state to the split of the entries added so far, so a writer that comes
to `finish` has written exactly the blocks of that split.
-/

namespace JustDb

open Stateful

/-! ## Stored blocks and their index -/

/-- A block as it stands in the file: a checksum, then the compressed bytes. -/
def storedBlock (external : External) (compression : CompressionType) (level : Int)
    (group : List Entry) : Bytes :=
  match compressBlock external compression level (blockBytes group) with
  | .ok compressed => LittleEndian.encode 4 (external.crc32 compressed).toNat ++ compressed
  | .error _ => []

/-- The key under which a block is indexed. -/
def firstKey (group : List Entry) : Key :=
  (group.head?.map Entry.key).getD []

/-- The index of blocks stored one after another from an offset on. -/
def indexFrom (stored : List Entry → Bytes) : (offset : Nat) → List (List Entry) → List IndexEntry
  | _, [] => []
  | offset, group :: groups =>
      { key := firstKey group, offset, size := (stored group).length } ::
        indexFrom stored (offset + (stored group).length) groups

theorem indexFrom_append (stored : List Entry → Bytes) (offset : Nat)
    (before after : List (List Entry)) :
    indexFrom stored offset (before ++ after) =
      indexFrom stored offset before ++
        indexFrom stored (offset + (before.flatMap stored).length) after := by
  induction before generalizing offset with
  | nil => simp [indexFrom]
  | cons group groups ih =>
      rw [List.cons_append, indexFrom, indexFrom, ih, List.flatMap_cons, List.length_append,
        List.cons_append, Nat.add_assoc]

@[simp] theorem indexFrom_length (stored : List Entry → Bytes) (offset : Nat)
    (groups : List (List Entry)) : (indexFrom stored offset groups).length = groups.length := by
  induction groups generalizing offset with
  | nil => rfl
  | cons group groups ih => rw [indexFrom, List.length_cons, List.length_cons, ih]

namespace SSTableWriter

variable {external : External}

/-- The index entry of a block in hand: its size is not known yet. -/
def pendingIndex (position : Nat) (current : List Entry) : List IndexEntry :=
  if current = [] then [] else [{ key := firstKey current, offset := position, size := 0 }]

theorem setLastSize_append_singleton (size : Nat) (index : List IndexEntry) (last : IndexEntry) :
    setLastSize size (index ++ [last]) = index ++ [{ last with size }] := by
  induction index with
  | nil => rfl
  | cons entry entries ih =>
      obtain ⟨next, rest, equal⟩ := List.exists_cons_of_ne_nil
        (List.append_ne_nil_of_right_ne_nil entries (List.cons_ne_nil last []))
      rw [List.cons_append, equal, setLastSize, ← equal, ih]
      · rfl
      · simp

/-! ## What each step of the writer does -/

/-- A failure that the file system caused, with a file of no more than a given length. -/
def Refusal (output : Output) (limit : Nat) (fault : Fault) (self : SSTableWriter) : Prop :=
  fault = .error .io ∧ self.writer.refused = true ∧ output.Refuses limit

/-- The writer after bytes have gone to the file. -/
def emitted (self : SSTableWriter) (data : Bytes) : SSTableWriter :=
  { self with writer := self.writer.grown data, position := self.position + data.length }

/-- The position of a writer is the length of its file. -/
def Placed (self : SSTableWriter) : Prop :=
  self.position = self.writer.written.length

theorem Placed.emitted {self : SSTableWriter} (placed : self.Placed) (data : Bytes) :
    (self.emitted data).Placed := by
  change self.position + data.length = (self.writer.written ++ data).length
  rw [List.length_append, placed]

theorem onWriter_eq_ok {action : EStateM Fault Sink Unit} {self after : SSTableWriter} :
    onWriter action self = .ok () after ↔
      ∃ writer, action self.writer = .ok () writer ∧ after = { self with writer } := by
  unfold onWriter
  cases action self.writer with
  | ok value writer =>
      constructor
      · intro ran
        cases ran
        exact ⟨writer, rfl, rfl⟩
      · rintro ⟨other, same, rfl⟩
        cases same
        rfl
  | error fault writer => simp

theorem onWriter_writeAll_eq_ok {data : Bytes} {self after : SSTableWriter} :
    onWriter (Sink.writeAll data) self = .ok () after ↔
      self.writer.output.accepts self.writer.calls (self.writer.grown data).written.length ∧
        after = { self with writer := self.writer.grown data } := by
  rw [onWriter_eq_ok, Sink.writeAll]
  split
  next room =>
    constructor
    · rintro ⟨writer, same, rfl⟩
      cases same
      exact ⟨room, rfl⟩
    · rintro ⟨-, rfl⟩
      exact ⟨_, rfl, rfl⟩
  next full => simp [full]

theorem onWriter_writeAll_eq_error {output : Output} {limit : Nat} {data : Bytes}
    {self after : SSTableWriter} {fault : Fault} (target : self.writer.output = output)
    (fits : (self.writer.written ++ data).length ≤ limit)
    (ran : onWriter (Sink.writeAll data) self = .error fault after) :
    Refusal output limit fault after := by
  subst target
  unfold onWriter Sink.writeAll at ran
  split at ran
  next => cases ran
  next failed =>
    cases ran
    split at failed
    · cases failed
    next full =>
      cases failed
      exact ⟨rfl, rfl, .inr (.inr ⟨_, _, fits, Bool.eq_false_iff.mpr full⟩)⟩

theorem emit_eq_ok {data : Bytes} {self after : SSTableWriter}
    (ran : emit data self = .ok () after) :
    self.position + data.length < wordSize ∧ after = self.emitted data := by
  obtain ⟨⟨⟩, middle, wrote, moved⟩ := bind_eq_ok.mp ran
  obtain ⟨-, rfl⟩ := onWriter_writeAll_eq_ok.mp wrote
  rw [bind_of_ok (get_apply _)] at moved
  obtain ⟨position, _, sum, set⟩ := bind_eq_ok.mp moved
  obtain ⟨counted, rfl⟩ := lift_eq_ok.mp sum
  cases set
  rw [← (checkedAdd_eq_ok.mp counted).2]
  exact ⟨(checkedAdd_eq_ok.mp counted).1, rfl⟩

/-- Where the position is the length of the file, only the file system can fail. -/
theorem emit_eq_error {output : Output} {limit : Nat} {data : Bytes}
    {self after : SSTableWriter} {fault : Fault} (placed : self.Placed)
    (target : self.writer.output = output) (bounded : output.Bounded)
    (fits : (self.writer.written ++ data).length ≤ limit)
    (ran : emit data self = .error fault after) : Refusal output limit fault after := by
  subst target
  rcases bind_eq_error.mp ran with refused | ⟨⟨⟩, middle, wrote, failed⟩
  · exact onWriter_writeAll_eq_error rfl fits refused
  · obtain ⟨room, rfl⟩ := onWriter_writeAll_eq_ok.mp wrote
    have small := bounded _ _ room
    rw [Sink.grown, List.length_append, ← placed] at small
    have counted : checkedAdd self.position data.length = .ok (self.position + data.length) :=
      checkedAdd_eq_ok.mpr ⟨lt_of_le_of_lt small (by decide), rfl⟩
    rw [bind_of_ok (get_apply _), counted] at failed
    cases failed

/-- The writer after the block in hand has been flushed as given compressed bytes. -/
def flushedAs (external : External) (self : SSTableWriter) (compressed : Bytes) :
    SSTableWriter :=
  ((self.emitted (LittleEndian.encode 4 (external.crc32 compressed).toNat)).emitted
    compressed).blockFlushed (compressed.length + 4)

theorem flushCurrentBlock_of_empty {self : SSTableWriter} (empty : self.currentBlock = []) :
    flushCurrentBlock external self = .ok () self := by
  rw [flushCurrentBlock, bind_of_ok (get_apply self), if_pos (by simp [empty]), pure_apply]

theorem flushCurrentBlock_eq_ok {self after : SSTableWriter} (nonempty : self.currentBlock ≠ [])
    (ran : flushCurrentBlock external self = .ok () after) :
    ∃ compressed,
      compressBlock external self.compression self.compressionLevel
        (blockData self.currentBlockEntries self.currentBlock) = .ok compressed ∧
      after = self.flushedAs external compressed := by
  rw [flushCurrentBlock, bind_of_ok (get_apply self),
    if_neg (by simpa using nonempty)] at ran
  obtain ⟨compressed, _, squeezed, ran⟩ := bind_eq_ok.mp ran
  obtain ⟨made, rfl⟩ := lift_eq_ok.mp squeezed
  obtain ⟨⟨⟩, checked, checksum, ran⟩ := bind_eq_ok.mp ran
  cases (emit_eq_ok checksum).2
  obtain ⟨⟨⟩, stored, payload, ran⟩ := bind_eq_ok.mp ran
  cases (emit_eq_ok payload).2
  obtain ⟨size, _, sum, ran⟩ := bind_eq_ok.mp ran
  obtain ⟨counted, rfl⟩ := lift_eq_ok.mp sum
  cases ran
  rw [← (checkedAdd_eq_ok.mp counted).2]
  exact ⟨compressed, made, rfl⟩

/-- Flushing a block that can be compressed fails only where the file system does. -/
theorem flushCurrentBlock_eq_error {output : Output} {limit : Nat} {self after : SSTableWriter}
    {fault : Fault} {compressed : Bytes} (placed : self.Placed)
    (target : self.writer.output = output) (bounded : output.Bounded)
    (made : compressBlock external self.compression self.compressionLevel
      (blockData self.currentBlockEntries self.currentBlock) = .ok compressed)
    (fits : (self.flushedAs external compressed).writer.written.length ≤ limit)
    (ran : flushCurrentBlock external self = .error fault after) :
    Refusal output limit fault after := by
  subst target
  by_cases empty : self.currentBlock = []
  · rw [flushCurrentBlock_of_empty empty] at ran
    cases ran
  rw [flushCurrentBlock, bind_of_ok (get_apply self), if_neg (by simpa using empty), made,
    bind_of_ok (lift_ok _ _)] at ran
  change (self.writer.written ++ _ ++ compressed).length ≤ limit at fits
  rcases bind_eq_error.mp ran with refused | ⟨⟨⟩, checked, checksum, ran⟩
  · refine emit_eq_error placed rfl bounded (le_trans ?_ fits) refused
    exact (List.prefix_append _ compressed).length_le
  cases (emit_eq_ok checksum).2
  have placed := placed.emitted (LittleEndian.encode 4 (external.crc32 compressed).toNat)
  rcases bind_eq_error.mp ran with refused | ⟨⟨⟩, stored, payload, ran⟩
  · exact emit_eq_error placed rfl bounded fits refused
  obtain ⟨⟨⟩, _, wrote, _⟩ := bind_eq_ok.mp payload
  obtain ⟨room, -⟩ := onWriter_writeAll_eq_ok.mp wrote
  have small := bounded _ _ room
  rw [Sink.grown, List.length_append] at small
  have counted : checkedAdd compressed.length 4 = .ok (compressed.length + 4) :=
    checkedAdd_eq_ok.mpr ⟨by unfold maxFileSize at small; unfold wordSize UInt64.size; omega, rfl⟩
  rw [counted] at ran
  cases ran

/-- What a flush may change. -/
theorem flushCurrentBlock_frame {self after : SSTableWriter}
    (ran : flushCurrentBlock external self = .ok () after) :
    ∃ written calls position index currentBlock currentBlockEntries,
      after = { self with
        writer := { self.writer with written, calls }
        position, index, currentBlock, currentBlockEntries } := by
  by_cases empty : self.currentBlock = []
  · rw [flushCurrentBlock_of_empty empty] at ran
    cases ran
    exact ⟨_, _, _, _, _, _, rfl⟩
  · obtain ⟨compressed, _, rfl⟩ := flushCurrentBlock_eq_ok empty ran
    exact ⟨_, _, _, _, _, _, rfl⟩

/-- The writer after a key has been noted. -/
def noted (self : SSTableWriter) (key : Key) : SSTableWriter :=
  { self with
    minKey := if self.minKey.isNone then some key else self.minKey
    maxKey := some key
    bloomFilter :=
      { self.bloomFilter with elementCount := self.bloomFilter.elementCount + 1 } }

/-- The writer after an entry's bytes have joined the block in hand. -/
def appended (self : SSTableWriter) (key : Key) (entryData : Bytes) : SSTableWriter :=
  { self with
    index := (self.noteBlock key).index
    currentBlock := self.currentBlock ++ entryData
    currentBlockEntries := self.currentBlockEntries + 1
    entryCount := self.entryCount + 1 }

theorem noteBlock_eq (self : SSTableWriter) (key : Key) :
    self.noteBlock key = { self with index := (self.noteBlock key).index } := by
  unfold noteBlock
  split <;> rfl

theorem checkOrder_eq_ok {key : Key} {self after : SSTableWriter}
    (ran : checkOrder key self = .ok () after) :
    after = self ∧ ∀ maxKey, self.maxKey = some maxKey → maxKey < key := by
  rw [checkOrder, bind_of_ok (get_apply self)] at ran
  cases largest : self.maxKey with
  | none =>
      rw [largest] at ran
      cases ran
      exact ⟨rfl, by simp⟩
  | some maxKey =>
      rw [largest] at ran
      dsimp only at ran
      split at ran
      · cases ran
      next above =>
        cases ran
        refine ⟨rfl, fun other same => ?_⟩
        cases same
        exact not_le.mp above

theorem noteKey_eq_ok {key : Key} {self after : SSTableWriter}
    (ran : noteKey external key self = .ok () after) : after = self.noted key := by
  rw [noteKey, bind_of_ok (get_apply self)] at ran
  obtain ⟨bloomFilter, _, hashed, set⟩ := bind_eq_ok.mp ran
  obtain ⟨added, rfl⟩ := lift_eq_ok.mp hashed
  cases set
  rw [BloomFilter.eq_of_add external added]
  rfl

/-- Room is made by a flush exactly when the block in hand is full. -/
theorem makeRoom_eq_ok {entryData : Bytes} {self after : SSTableWriter}
    (ran : makeRoom external entryData self = .ok () after) :
    if self.currentBlock.length + entryData.length > blockSize ∧ self.currentBlockEntries > 0 then
      flushCurrentBlock external self = .ok () after
    else after = self := by
  rw [makeRoom, bind_of_ok (get_apply self)] at ran
  obtain ⟨needed, _, sum, ran⟩ := bind_eq_ok.mp ran
  obtain ⟨counted, rfl⟩ := lift_eq_ok.mp sum
  rw [← (checkedAdd_eq_ok.mp counted).2] at ran
  split at ran
  next full => rwa [if_pos full]
  next room =>
    cases ran
    rw [if_neg room]

theorem makeRoom_frame {entryData : Bytes} {self after : SSTableWriter}
    (ran : makeRoom external entryData self = .ok () after) :
    ∃ written calls position index currentBlock currentBlockEntries,
      after = { self with
        writer := { self.writer with written, calls }
        position, index, currentBlock, currentBlockEntries } := by
  have roomy := makeRoom_eq_ok ran
  split at roomy
  · exact flushCurrentBlock_frame roomy
  · exact ⟨_, _, _, _, _, _, roomy⟩

theorem appendEntry_eq_ok {key : Key} {entryData : Bytes} {self after : SSTableWriter}
    (ran : appendEntry key entryData self = .ok () after) :
    after = self.appended key entryData := by
  rw [appendEntry, bind_of_ok (modify_apply _ _), bind_of_ok (get_apply _)] at ran
  obtain ⟨entries, _, blockSum, ran⟩ := bind_eq_ok.mp ran
  obtain ⟨blockCounted, rfl⟩ := lift_eq_ok.mp blockSum
  obtain ⟨total, _, tableSum, ran⟩ := bind_eq_ok.mp ran
  obtain ⟨tableCounted, rfl⟩ := lift_eq_ok.mp tableSum
  cases ran
  rw [← (checkedAdd_eq_ok.mp blockCounted).2, ← (checkedAdd_eq_ok.mp tableCounted).2,
    noteBlock_eq]
  rfl

/-! ## The invariant of a run of `add` -/

/-- The blocks of a writer, as it stores them. -/
abbrev stored (external : External) (self : SSTableWriter) : List Entry → Bytes :=
  storedBlock external self.compression self.compressionLevel

/-- A writer holds a split: the full blocks are in its file and in its index, and the
block in hand is in its buffer. -/
structure Holds (external : External) (state : SSTableWriter) (split : Split) : Prop where
  placed : state.Placed
  written : state.writer.written = split.flushed.flatMap (state.stored external)
  index : state.index = indexFrom (state.stored external) 0 split.flushed ++
    pendingIndex state.position split.current
  currentBlock : state.currentBlock = bodyBytes split.current
  currentBlockEntries : state.currentBlockEntries = split.current.length

theorem bodyBytes_eq_nil {group : List Entry} : bodyBytes group = [] ↔ group = [] := by
  cases group with
  | nil => simp [bodyBytes]
  | cons entry group => simp [bodyBytes, entryBytes_ne_nil]

/-- The block in hand, flushed, joins the full blocks. -/
theorem Holds.flushedAs {self : SSTableWriter} {split : Split} {compressed : Bytes}
    (holds : self.Holds external split) (nonempty : split.current ≠ [])
    (made : compressBlock external self.compression self.compressionLevel
      (blockData self.currentBlockEntries self.currentBlock) = .ok compressed) :
    (self.flushedAs external compressed).Holds external
      { flushed := split.flushed ++ [split.current] } := by
  rw [holds.currentBlockEntries, holds.currentBlock] at made
  have bytes : self.stored external split.current =
      LittleEndian.encode 4 (external.crc32 compressed).toNat ++ compressed := by
    rw [stored, storedBlock, blockBytes, made]
  have size : (self.stored external split.current).length = compressed.length + 4 := by
    rw [bytes, List.length_append, LittleEndian.encode_length, Nat.add_comm]
  constructor
  · exact (holds.placed.emitted _).emitted _
  · change self.writer.written ++ _ ++ compressed = _
    rw [holds.written, List.append_assoc, ← bytes, List.flatMap_append]
    exact congrArg _ (List.append_nil _).symm
  · change setLastSize (compressed.length + 4) self.index =
      indexFrom (self.stored external) 0 _ ++ []
    rw [holds.index, pendingIndex, if_neg nonempty, setLastSize_append_singleton,
      indexFrom_append, List.append_nil, Nat.zero_add, ← holds.written, ← size,
      holds.placed]
    rfl
  · rfl
  · rfl

theorem Holds.currentBlock_eq_nil {self : SSTableWriter} {split : Split}
    (holds : self.Holds external split) : self.currentBlock = [] ↔ split.current = [] := by
  rw [holds.currentBlock, bodyBytes_eq_nil]

/-- A flush moves the block in hand to the full blocks. -/
theorem Holds.flush {self after : SSTableWriter} {split : Split}
    (holds : self.Holds external split) (nonempty : split.current ≠ [])
    (ran : flushCurrentBlock external self = .ok () after) :
    after.Holds external { flushed := split.flushed ++ [split.current] } := by
  obtain ⟨compressed, made, rfl⟩ :=
    flushCurrentBlock_eq_ok (fun empty => nonempty (holds.currentBlock_eq_nil.mp empty)) ran
  exact holds.flushedAs nonempty made

/-- After a flush only full blocks are left. -/
theorem Holds.finished {self after : SSTableWriter} {split : Split}
    (holds : self.Holds external split) (ran : flushCurrentBlock external self = .ok () after) :
    after.Holds external { flushed := split.blocks } := by
  unfold Split.blocks
  split
  next empty =>
    rw [flushCurrentBlock_of_empty (holds.currentBlock_eq_nil.mpr empty)] at ran
    cases ran
    rwa [show ({ flushed := split.flushed } : Split) = split by rw [← empty]]
  next nonempty => exact holds.flush nonempty ran

/-- Appending an entry adds it to the block in hand. -/
theorem Holds.append {self : SSTableWriter} {split : Split} (holds : self.Holds external split)
    (entry : Entry) :
    (self.appended entry.key (entryBytes entry)).Holds external
      { split with current := split.current ++ [entry] } := by
  constructor
  · exact holds.placed
  · exact holds.written
  · change (self.noteBlock entry.key).index = indexFrom (self.stored external) 0 split.flushed ++
      pendingIndex self.position (split.current ++ [entry])
    rw [noteBlock, holds.currentBlockEntries]
    cases current : split.current with
    | nil =>
        rw [if_pos List.length_nil]
        change self.index ++ _ = _
        rw [holds.index, current]
        simp [pendingIndex, firstKey]
    | cons first rest =>
        rw [if_neg (by simp), holds.index, current]
        simp [pendingIndex, firstKey]
  · change self.currentBlock ++ entryBytes entry = bodyBytes (split.current ++ [entry])
    rw [holds.currentBlock]
    simp [bodyBytes]
  · change self.currentBlockEntries + 1 = (split.current ++ [entry]).length
    rw [holds.currentBlockEntries, List.length_append, List.length_singleton]

/-- Noting a key does not touch the blocks. -/
theorem Holds.noted {self : SSTableWriter} {split : Split} (holds : self.Holds external split)
    (key : Key) : (self.noted key).Holds external split :=
  ⟨holds.placed, holds.written, holds.index, holds.currentBlock, holds.currentBlockEntries⟩

/-- Making room and appending an entry adds it to the split. -/
theorem Holds.add {self middle : SSTableWriter} {split : Split}
    (holds : self.Holds external split) {entry : Entry}
    (ran : makeRoom external (entryBytes entry) self = .ok () middle) :
    (middle.appended entry.key (entryBytes entry)).Holds external (split.add entry) := by
  have roomy := makeRoom_eq_ok ran
  have nonempty : self.currentBlockEntries > 0 ↔ split.current ≠ [] := by
    rw [holds.currentBlockEntries]
    exact List.length_pos_iff
  simp only [nonempty, holds.currentBlock] at roomy
  unfold Split.add
  split at roomy
  next full =>
    rw [if_pos full]
    exact (holds.flush full.2 roomy).append entry
  next room =>
    rw [if_neg room, roomy]
    exact holds.append entry

end SSTableWriter

end JustDb

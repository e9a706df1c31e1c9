import JustDb.SSTable.Build

/-!
# The faults of a build

Past its order check, `add` fails only where the file or the compressor does, or with a
panic, and so does `finish`.  The steps are gone through once, for any invariant of the
file that is kept by successful writes.
-/

namespace JustDb

open Stateful

namespace SSTableWriter

variable {external : External} {invariant : SSTableWriter → Prop} {allowed : Fault → Prop}

/-- From the invariant, the action keeps it or fails with one of the faults allowed. -/
abbrev FailsWithin (invariant : SSTableWriter → Prop) (allowed : Fault → Prop) {α : Type}
    (action : Writing α) : Prop :=
  Ensures invariant (fun fault _ => allowed fault) action

/-- An invariant that looks at the file only, with the faults that writing it, compressing a
block and overflows end with. -/
structure Contained (external : External) (invariant : SSTableWriter → Prop)
    (allowed : Fault → Prop) : Prop where
  framed : ∀ {before after : SSTableWriter}, invariant before →
    after.writer = before.writer → invariant after
  panics : allowed .panic
  writes : ∀ data, FailsWithin invariant allowed (onWriter (Sink.writeAll data))
  syncs : FailsWithin invariant allowed (onWriter Sink.sync)
  compresses : ∀ {compression level data fault},
    compressBlock external compression level data = .error fault → allowed fault

namespace Contained

variable (contained : Contained external invariant allowed)

include contained

theorem checkedAdd (a b : Nat) : FailsWithin invariant allowed (lift (JustDb.checkedAdd a b)) := by
  apply ensures_lift
  intro fault _ failed _
  rw [checkedAdd_eq_error failed]
  exact contained.panics

theorem emit (data : Bytes) : FailsWithin invariant allowed (SSTableWriter.emit data) :=
  (contained.writes data).bind fun _ => ensures_get_bind fun _ kept =>
    (contained.checkedAdd _ _).bind fun _ => ensures_set (contained.framed kept rfl)

theorem flushCurrentBlock :
    FailsWithin invariant allowed (SSTableWriter.flushCurrentBlock external) := by
  apply ensures_get_bind
  intro self _
  apply Ensures.ite (ensures_pure ())
  have compressed : FailsWithin invariant allowed (lift (compressBlock external
      self.compression self.compressionLevel
      (blockData self.currentBlockEntries self.currentBlock))) :=
    ensures_lift fun _ _ failed _ => contained.compresses failed
  exact compressed.bind fun _ => (contained.emit _).bind fun _ => (contained.emit _).bind
    fun _ => (contained.checkedAdd _ _).bind fun _ =>
      ensures_modify fun _ kept => contained.framed kept rfl

theorem noteKey (key : Key) :
    FailsWithin invariant allowed (SSTableWriter.noteKey external key) := by
  apply ensures_get_bind
  intro self kept
  have added : FailsWithin invariant allowed (lift (self.bloomFilter.add external key)) := by
    apply ensures_lift
    intro fault _ failed _
    rw [BloomFilter.panic_of_add external failed]
    exact contained.panics
  exact added.bind fun _ => ensures_set (contained.framed kept rfl)

theorem makeRoom (entryData : Bytes) :
    FailsWithin invariant allowed (SSTableWriter.makeRoom external entryData) :=
  ensures_get_bind fun _ _ => (contained.checkedAdd _ _).bind fun _ =>
    contained.flushCurrentBlock.ite (ensures_pure ())

theorem appendEntry (key : Key) (entryData : Bytes) :
    FailsWithin invariant allowed (SSTableWriter.appendEntry key entryData) := by
  have noted : ∀ self : SSTableWriter, invariant self → invariant (self.noteBlock key) := by
    intro self kept
    rw [noteBlock_eq]
    exact contained.framed kept rfl
  exact (ensures_modify noted).bind fun _ => ensures_get_bind fun _ kept =>
    (contained.checkedAdd _ _).bind fun _ => (contained.checkedAdd _ _).bind fun _ =>
      ensures_set (contained.framed kept rfl)

/-- The steps of `add` after the order check. -/
theorem afterCheck (entry : Entry) : FailsWithin invariant allowed (do
    SSTableWriter.noteKey external entry.key
    SSTableWriter.makeRoom external (entryBytes entry)
    SSTableWriter.appendEntry entry.key (entryBytes entry)) :=
  (contained.noteKey _).bind fun _ => (contained.makeRoom _).bind fun _ =>
    contained.appendEntry _ _

theorem finish : FailsWithin invariant allowed (SSTableWriter.finish external) := by
  refine contained.flushCurrentBlock.bind fun _ => ensures_get_bind fun flushed _ =>
    (contained.emit _).bind fun _ => (contained.emit _).bind fun _ => Ensures.bind ?_ fun _ =>
      contained.syncs.bind fun _ => ensures_pure _
  intro self kept
  rw [writeFooter_eq]
  exact contained.writes _ self kept

/-- Successful calls of `add` keep the invariant. -/
theorem of_adds {start state : SSTableWriter} {done : List Entry} (initially : invariant start)
    (ran : done.forM (SSTableWriter.add external) start = .ok ⟨⟩ state) : invariant state := by
  apply @forM_ok_induction _ _ _ (SSTableWriter.add external) (fun _ state => invariant state)
    _ done [] start state initially ran
  intro _ entry before after kept added
  obtain ⟨⟨⟩, checked, ordered, later⟩ := bind_eq_ok.mp added
  obtain ⟨rfl, _⟩ := checkOrder_eq_ok ordered
  exact (contained.afterCheck entry).of_ok kept later

/-- Adding ascending entries and finishing fails with no other fault. -/
theorem addAll {start after : SSTableWriter} {entries : List Entry} {fault : Fault}
    (adding : Adding external start start []) (initially : invariant start)
    (ascending : Ascending entries)
    (ran : SSTableWriter.addAll external entries start = .error fault after) : allowed fault := by
  rcases bind_eq_error.mp ran with failed | ⟨⟨⟩, filled, succeeded, finishing⟩
  · obtain ⟨done, entry, rest, before, split, succeeded, stopped⟩ := forM_eq_error failed
    rcases bind_eq_error.mp stopped with disordered | ⟨⟨⟩, checked, ordered, later⟩
    · have broken := ((adding.addAll succeeded).checkOrder_eq_error disordered).2
      rw [split, ← List.singleton_append, ← List.append_assoc] at ascending
      exact absurd (List.pairwise_append.mp ascending).1 broken
    · obtain ⟨rfl, _⟩ := checkOrder_eq_ok ordered
      exact (contained.afterCheck entry).of_error (contained.of_adds initially succeeded) later
  · exact contained.finish.of_error (contained.of_adds initially succeeded) finishing

end Contained

/-! ## The order check of a build -/

/-- A file that fails reports an I/O error. -/
theorem ne_unsorted_onWriter {action : EStateM Fault Sink Unit}
    (io : ∀ sink fault after, action sink = .error fault after → fault = .error .io) :
    FailsWithin (fun _ => True) (· ≠ unsorted) (onWriter action) := by
  intro self _
  rw [onWriter]
  cases ran : action self.writer with
  | ok done writer => trivial
  | error fault writer =>
      have reported : fault ≠ unsorted := by
        rw [io _ _ _ ran]
        decide
      exact reported

/-- On any file system, no step past the order check reports a key out of order. -/
theorem contained_ne_unsorted (external : External) :
    Contained external (fun _ => True) (· ≠ unsorted) where
  framed := fun kept _ => kept
  panics := by decide
  writes := by
    intro data
    apply ne_unsorted_onWriter
    intro sink fault after failed
    unfold Sink.writeAll at failed
    split at failed
    · cases failed
    · cases failed
      rfl
  syncs := by
    apply ne_unsorted_onWriter
    intro sink fault after failed
    unfold Sink.sync at failed
    split at failed
    · cases failed
    · cases failed
      rfl
  compresses := by
    intro compression level data fault failed
    unfold compressBlock at failed
    split at failed
    · cases failed
    · cases failed
    · split at failed
      · cases failed
      · cases failed
        simp [unsorted]

end SSTableWriter

namespace SSTableBuilder

variable {external : External}

/-- A build of ascending entries is never refused for their order. -/
theorem ne_unsorted_of_build {builder : SSTableBuilder} {output : Output}
    {createdAt : Timestamp} {entries : List Entry} {fault : Fault} {after : Sink}
    (ascending : Ascending entries)
    (ran : builder.build external createdAt entries { output } = .error fault after) :
    fault ≠ SSTableWriter.unsorted := by
  rcases bind_eq_error.mp ran with creating | ⟨writer, created, creating, consuming⟩
  · rcases bind_eq_error.mp creating with unopened | ⟨⟨⟩, opened, _, making⟩
    · unfold Sink.create at unopened
      split at unopened
      · cases unopened
      · cases unopened
        decide
    · rw [bind_of_ok (get_apply opened)] at making
      rcases bind_eq_error.mp making with unmade | ⟨bloomFilter, _, _, made⟩
      · rw [BloomFilter.panic_of_new external (lift_eq_error.mp unmade).1]
        exact nofun
      · cases made
  · obtain ⟨bloomFilter, made, rfl⟩ := new_eq_ok creating
    obtain ⟨reached, failing, _⟩ := consume_eq_error consuming
    have start := SSTableWriter.adding_initial external builder output
      (BloomFilter.elementCount_of_new external made) createdAt
    exact (SSTableWriter.contained_ne_unsorted external).addAll start trivial ascending failing

/-- `build_from_vec` sorts, so it refuses no entries of different keys for their order. -/
theorem ne_unsorted_of_buildFromVec {builder : SSTableBuilder} {output : Output}
    {createdAt : Timestamp} {entries : List Entry} {fault : Fault} {after : Sink}
    (apart : entries.Pairwise fun left right => left.key ≠ right.key)
    (ran : builder.buildFromVec external createdAt entries { output } = .error fault after) :
    fault ≠ SSTableWriter.unsorted :=
  ne_unsorted_of_build (ascending_sortedByKey_iff.mpr apart) ran

end SSTableBuilder

end JustDb

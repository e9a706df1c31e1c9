import JustDb.Errors
import JustDb.SSTable.Faults
import JustDb.SSTable.Reader

/-!
# Tables never blame the client

Whatever bytes a table file holds, opening and reading it ends in a value, in a panic or in
an error of the system.  So does a build of ascending entries, on any file system.
-/

namespace JustDb

open Stateful Result Deserializer

/-! ## Decoding -/

theorem failsInternally_corruption {σ α : Type} (message : String) :
    FailsInternally (throw (.error (.corruption message)) : EStateM Fault σ α) :=
  fun _ _ => rfl

namespace Deserializer

theorem failsInternally_ensureByte (n : Nat) : FailsInternally (ensureByte n) := by
  refine ensures_get_bind fun self _ => (failsInternally_checkedAdd _ _).lift.bind fun needed => ?_
  exact (failsInternally_corruption _).ite (ensures_pure _)

theorem failsInternally_readBytes (len : Nat) : FailsInternally (readBytes len) :=
  (failsInternally_ensureByte len).bind fun _ => ensures_get_bind fun _ _ =>
    (ensures_set trivial).bind fun _ => ensures_pure _

theorem failsInternally_readWord (width : Nat) : FailsInternally (readWord width) :=
  (failsInternally_readBytes width).bind fun _ => ensures_pure _

theorem failsInternally_readU8 : FailsInternally readU8 :=
  (failsInternally_readWord 1).bind fun _ => ensures_pure _

theorem failsInternally_readU32 : FailsInternally readU32 :=
  (failsInternally_readWord 4).bind fun _ => ensures_pure _

theorem failsInternally_readU64 : FailsInternally readU64 :=
  (failsInternally_readWord 8).bind fun _ => ensures_pure _

theorem failsInternally_skip (n : Nat) : FailsInternally (skip n) :=
  (failsInternally_ensureByte n).bind fun _ => ensures_modify fun _ _ => trivial

theorem failsInternally_decodeFrom {α : Type} {decoder : Decode α}
    (internal : FailsInternally decoder) (data : Bytes) :
    (decodeFrom data decoder).FailsInternally := by
  intro fault failed
  rw [decodeFrom] at failed
  split at failed
  · cases failed
  next ran =>
    cases failed
    exact internal.of_error ran

end Deserializer

theorem failsInternally_readKey : FailsInternally readKey :=
  failsInternally_readU32.bind fun _ => failsInternally_readBytes _

theorem failsInternally_readVersion (key : Key) : FailsInternally (readVersion key) := by
  have value : FailsInternally readValue :=
    failsInternally_readU8.bind fun _ => .ite (failsInternally_readU32.bind fun _ =>
      (failsInternally_readBytes _).bind fun _ => ensures_pure _) (ensures_pure _)
  exact value.bind fun _ => failsInternally_readU64.bind fun _ =>
    failsInternally_readU64.bind fun _ => ensures_pure _

theorem failsInternally_skipVersion : FailsInternally skipVersion := by
  have value : FailsInternally skipValue :=
    failsInternally_readU8.bind fun _ => .ite (failsInternally_readU32.bind fun _ =>
      failsInternally_skip _) (ensures_pure _)
  exact value.bind fun _ => failsInternally_skip 16

theorem failsInternally_searchInBlock (data : Bytes) (key : Key) :
    (searchInBlock data key).FailsInternally := by
  have records : ∀ entryCount, FailsInternally (searchRecords key entryCount) := by
    intro entryCount
    induction entryCount with
    | zero => exact ensures_pure none
    | succ entryCount ih =>
        exact failsInternally_readKey.bind fun _ => .ite
          ((failsInternally_readVersion _).bind fun _ => ensures_pure _)
          (failsInternally_skipVersion.bind fun _ => ih)
  exact failsInternally_decodeFrom (failsInternally_readU32.bind fun _ => records _) data

theorem failsInternally_getEntriesInRangeFromBlock (data : Bytes) (start stop : Key) :
    (getEntriesInRangeFromBlock data start stop).FailsInternally := by
  have records : ∀ entryCount, FailsInternally (rangeRecords start stop entryCount) := by
    intro entryCount
    induction entryCount with
    | zero => exact ensures_pure []
    | succ entryCount ih =>
        exact failsInternally_readKey.bind fun _ => .ite
          ((failsInternally_readVersion _).bind fun _ => ih.bind fun _ => ensures_pure _)
          (failsInternally_skipVersion.bind fun _ => ih)
  exact failsInternally_decodeFrom (failsInternally_readU32.bind fun _ => records _) data

theorem failsInternally_readFooter : FailsInternally readFooter := by
  have compression : FailsInternally readCompression :=
    failsInternally_readU8.bind fun _ => .ite (ensures_pure _) (.ite (ensures_pure _)
      (.ite (ensures_pure _) (failsInternally_corruption _)))
  refine failsInternally_readU64.bind fun _ => failsInternally_readU64.bind fun _ =>
    failsInternally_readU64.bind fun _ => failsInternally_readU64.bind fun _ =>
      failsInternally_readU64.bind fun _ => failsInternally_readU64.bind fun _ =>
        compression.bind fun _ => failsInternally_readU32.bind fun _ =>
          failsInternally_readU32.bind fun _ => ?_
  exact .ite (failsInternally_corruption _) (.ite (failsInternally_corruption _) (ensures_pure _))

theorem failsInternally_readIndex : FailsInternally readIndex := by
  have entry : FailsInternally readIndexEntry :=
    failsInternally_readKey.bind fun _ => failsInternally_readU64.bind fun _ =>
      failsInternally_readU64.bind fun _ => ensures_pure _
  exact failsInternally_readU32.bind fun _ => Parsing.ensures_repeated entry _

/-! ## Opening -/

theorem BloomFilter.failsInternally_fromBytes (data : Bytes) : (fromBytes data).FailsInternally :=
  .ite (failsInternally_error rfl) (.ite (failsInternally_error rfl) (failsInternally_ok _))

theorem BloomFilter.failsInternally_mightContain (external : External) (self : BloomFilter)
    (element : Bytes) : (self.mightContain external element).FailsInternally := by
  have index : ∀ hash, (self.bitIndex hash).FailsInternally :=
    fun _ => .ite (failsInternally_error trivial) (failsInternally_ok _)
  rw [mightContain]
  induction self.hashElement external element with
  | nil => exact failsInternally_ok true
  | cons hash hashes ih => exact (index hash).bind fun _ => .ite ih (failsInternally_ok false)

namespace SSTableReader

variable (external : External)

theorem failsInternally_readAt (self : SSTableReader) (offset size : Nat) :
    (self.readAt offset size).FailsInternally :=
  .ite ((failsInternally_checkedAdd _ _).bind fun _ =>
      .ite (failsInternally_error rfl) (failsInternally_ok _))
    (.ite (failsInternally_error rfl) (.ite (failsInternally_error trivial)
      (.ite (failsInternally_error rfl) (failsInternally_ok _))))

/-- Whatever a file holds, opening it blames nobody but the system. -/
theorem failsInternally_openFile (path : FileName) (contents : Bytes) (mapped : Bool) :
    (openFile path contents mapped).FailsInternally := by
  have metadata : ∀ self : SSTableReader, self.loadMetadata.FailsInternally :=
    fun self => .ite (failsInternally_error rfl) ((failsInternally_readAt _ _ _).bind fun _ =>
      (failsInternally_decodeFrom failsInternally_readFooter _).bind fun _ => failsInternally_ok _)
  have index : ∀ self : SSTableReader, self.loadIndex.FailsInternally :=
    fun self => (failsInternally_checkedAdd _ _).bind fun _ =>
      (failsInternally_readAt _ _ _).bind fun _ =>
        (failsInternally_decodeFrom failsInternally_readIndex _).bind fun _ => failsInternally_ok _
  have filter : ∀ self : SSTableReader, self.loadBloomFilter.FailsInternally :=
    fun self => .ite (failsInternally_ok _) ((failsInternally_readAt _ _ _).bind fun _ =>
      (BloomFilter.failsInternally_fromBytes _).bind fun _ => failsInternally_ok _)
  exact ((metadata _).bind index).bind filter

/-! ## Reading -/

theorem failsInternally_unpackBlock (compression : CompressionType) (stored : Bytes) :
    (unpackBlock external compression stored).FailsInternally := by
  have decompressed : ∀ data, (decompressBlock external compression data).FailsInternally := by
    intro data
    unfold decompressBlock
    split
    · exact failsInternally_ok data
    · split
      · exact failsInternally_ok _
      · exact failsInternally_error rfl
    · split
      · exact failsInternally_ok _
      · exact failsInternally_error rfl
  exact .ite (failsInternally_error rfl) (.ite (failsInternally_error rfl) (decompressed _))

theorem failsInternally_readBlock (indexEntry : IndexEntry) :
    FailsInternally (readBlock external indexEntry) := by
  refine ensures_get_bind fun self _ => ?_
  split
  · exact ensures_pure _
  · exact (failsInternally_readAt _ _ _).lift.bind fun _ =>
      (failsInternally_unpackBlock external _ _).lift.bind fun _ =>
        (ensures_modify fun _ _ => trivial).bind fun _ => ensures_pure _

theorem failsInternally_mightContain (self : SSTableReader) (key : Key) :
    (self.mightContain external key).FailsInternally := by
  rw [mightContain]
  split
  · exact BloomFilter.failsInternally_mightContain external _ key
  · exact failsInternally_ok true

theorem failsInternally_get (key : Key) : FailsInternally (get external key) := by
  have looking : FailsInternally (lookup external key) := by
    refine ensures_get_bind fun self _ => ?_
    split
    · exact ensures_pure none
    · split
      · exact fun _ _ => trivial
      · exact (failsInternally_readBlock external _).bind fun _ =>
          (failsInternally_searchInBlock _ key).lift
  exact ensures_get_bind fun self _ => (failsInternally_mightContain external self key).lift.bind
    fun _ => .ite looking (ensures_pure none)

theorem failsInternally_range (start stop : Key) : FailsInternally (range external start stop) := by
  have blocks : ∀ positions, FailsInternally (rangeBlocks external start stop positions) := by
    intro positions
    induction positions with
    | nil => exact ensures_pure []
    | cons position positions ih =>
        refine ensures_get_bind fun self _ => ?_
        split
        · exact fun _ _ => trivial
        · exact .ite (ensures_pure []) ((failsInternally_readBlock external _).bind fun _ =>
            (failsInternally_getEntriesInRangeFromBlock _ start stop).lift.bind fun _ =>
              ih.bind fun _ => ensures_pure _)
  exact ensures_get_bind fun self _ => blocks _

end SSTableReader

/-! ## Building -/

namespace SSTableWriter

theorem internal_onWriter {action : EStateM Fault Sink Unit} (internal : FailsInternally action) :
    FailsWithin (fun _ => True) Fault.Internal (onWriter action) := by
  intro self _
  rw [onWriter]
  cases ran : action self.writer with
  | ok done writer => trivial
  | error fault writer => exact internal.of_error ran

/-- Past the order check only the system fails. -/
theorem contained_internal (external : External) :
    Contained external (fun _ => True) Fault.Internal where
  framed := fun kept _ => kept
  panics := trivial
  writes := by
    refine fun data => internal_onWriter fun sink _ => ?_
    rw [Sink.writeAll]
    by_cases accepted :
        sink.output.accepts sink.calls (sink.grown data).written.length = true
    · rw [if_pos accepted]
      trivial
    · rw [if_neg accepted]
      exact rfl
  syncs := by
    refine internal_onWriter fun sink _ => ?_
    rw [Sink.sync]
    by_cases synced : sink.output.syncs = true
    · rw [if_pos synced]
      trivial
    · rw [if_neg synced]
      exact rfl
  compresses := by
    intro compression level data fault failed
    unfold compressBlock at failed
    split at failed
    · cases failed
    · cases failed
    · split at failed
      · cases failed
      · cases failed
        exact rfl

end SSTableWriter

/-- A build of entries of different keys blames nobody but the system. -/
theorem SSTableBuilder.internal_of_buildFromVec {external : External} {builder : SSTableBuilder}
    {output : Output} {createdAt : Timestamp} {entries : List Entry} {fault : Fault}
    {after : Sink} (apart : entries.Pairwise fun left right => left.key ≠ right.key)
    (ran : builder.buildFromVec external createdAt entries { output } = .error fault after) :
    fault.Internal := by
  have ascending := ascending_sortedByKey_iff.mpr apart
  rcases bind_eq_error.mp ran with creating | ⟨writer, created, creating, consuming⟩
  · rcases bind_eq_error.mp creating with unopened | ⟨⟨⟩, opened, _, making⟩
    · unfold Sink.create at unopened
      split at unopened
      · cases unopened
      · cases unopened
        exact rfl
    · rw [bind_of_ok (get_apply opened)] at making
      rcases bind_eq_error.mp making with unmade | ⟨bloomFilter, _, _, made⟩
      · rw [BloomFilter.panic_of_new external (lift_eq_error.mp unmade).1]
        trivial
      · cases made
  · obtain ⟨bloomFilter, made, rfl⟩ := new_eq_ok creating
    obtain ⟨reached, failing, _⟩ := consume_eq_error consuming
    have start := SSTableWriter.adding_initial external builder output
      (BloomFilter.elementCount_of_new external made) createdAt
    exact (SSTableWriter.contained_internal external).addAll start trivial ascending failing

end JustDb

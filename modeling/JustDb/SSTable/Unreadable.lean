import JustDb.SSTable.Faults
import JustDb.SSTable.Recovery

/-!
# Tables that cannot be opened

The bloom filter section of every table with entries has a length that
`from_bytes` refuses, so no such table opens.  On a file system that refuses
nothing, a build of ascending entries either leaves such a file or panics.
-/

namespace JustDb

open Stateful

/-- A file that `SSTableReader::open` never opens, whatever its name and mapped or not. -/
def Unreadable (contents : Bytes) : Prop :=
  ∀ path mapped reader, SSTableReader.openFile path contents mapped ≠ .ok reader

/-! ## Builds on a reliable file system -/

namespace SSTableWriter

variable {external : External}

/-- The writer's file refuses nothing. -/
def Reliable (self : SSTableWriter) : Prop :=
  self.writer.output = .reliable

/-- On a reliable file system the action fails only by a panic. -/
abbrev OnlyPanics {α : Type} (action : Writing α) : Prop :=
  Ensures Reliable (fun fault _ => fault = .panic) action

theorem onlyPanics_writeAll (data : Bytes) : OnlyPanics (onWriter (Sink.writeAll data)) := by
  intro self reliable
  have accepted : self.writer.output.accepts self.writer.calls
      (self.writer.grown data).written.length = true := by
    rw [reliable]
    rfl
  rw [onWriter, Sink.writeAll, if_pos accepted]
  exact reliable

theorem onlyPanics_sync : OnlyPanics (onWriter Sink.sync) := by
  intro self reliable
  have synced : self.writer.output.syncs = true := by
    rw [reliable]
    rfl
  rw [onWriter, Sink.sync, if_pos synced]
  exact reliable

/-- With a compressor that does not fail, panics are the only faults. -/
theorem contained_reliable (compresses : external.ZstdCompresses) :
    Contained external Reliable (· = .panic) where
  framed := by
    intro before after reliable same
    rw [Reliable, same]
    exact reliable
  panics := rfl
  writes := onlyPanics_writeAll
  syncs := onlyPanics_sync
  compresses := by
    intro compression level data fault failed
    unfold compressBlock at failed
    split at failed
    · cases failed
    · cases failed
    · obtain ⟨compressed, made⟩ := compresses data level
      rw [made] at failed
      cases failed

end SSTableWriter

namespace SSTableBuilder

variable {external : External}

/-- On a reliable file system a build of ascending entries fails only by a panic. -/
theorem panic_of_build {builder : SSTableBuilder} {createdAt : Timestamp}
    {entries : List Entry} {fault : Fault} {after : Sink} (compresses : external.ZstdCompresses)
    (ascending : Ascending entries)
    (ran : builder.build external createdAt entries { output := .reliable } =
      .error fault after) : fault = .panic := by
  cases made : BloomFilter.new external entries.length builder.bloomFalsePositiveRate with
  | error failure =>
      have creating : SSTableWriter.new external entries.length builder.compression
          builder.compressionLevel builder.bloomFalsePositiveRate createdAt
          { output := .reliable } = .error failure { output := .reliable } := by
        have created : Sink.create { output := .reliable } = .ok () { output := .reliable } := rfl
        rw [SSTableWriter.new, bind_of_ok created, bind_of_ok (get_apply _), made]
        rfl
      rw [build, bind_of_error creating] at ran
      cases ran
      exact BloomFilter.panic_of_new external made
  | ok bloomFilter =>
      rw [build, bind_of_ok (new_of_made rfl made createdAt)] at ran
      obtain ⟨reached, failing, _⟩ := consume_eq_error ran
      have start := SSTableWriter.adding_initial external builder .reliable
        (BloomFilter.elementCount_of_new external made) createdAt
      exact (SSTableWriter.contained_reliable compresses).addAll start rfl ascending failing

/-! ## No table with entries opens -/

/-- The file of a table with entries does not open. -/
theorem Built.unreadable {builder : SSTableBuilder} {createdAt : Timestamp}
    {entries : List Entry} {sink : Sink} {bloomFilter : BloomFilter}
    (built : Built external builder createdAt entries sink bloomFilter)
    (nonempty : entries ≠ []) : Unreadable sink.written := by
  intro path mapped reader opened
  have count : entries.length ≠ 0 := by simpa using nonempty
  have addressable := built.addressable
  have header : ({ bloomFilter with elementCount := entries.length } : BloomFilter).toBytes ≠
      [] := by
    intro empty
    have length := congrArg List.length empty
    rw [BloomFilter.toBytes_length] at length
    simp at length
  obtain ⟨filter, read⟩ :=
    SSTableReader.openFile_eq_ok built.written (by omega) header opened
  exact BloomFilter.fromBytes_toBytes_ne_ok external built.made count entries.length filter read

/-- Building from some entries leaves a file that does not open. -/
theorem unreadable_of_buildFromVec {builder : SSTableBuilder} {output : Output}
    {createdAt : Timestamp} {entries : List Entry} {metadata : SStableMeta} {sink : Sink}
    (nonempty : entries ≠ [])
    (ran : builder.buildFromVec external createdAt entries { output } = .ok metadata sink) :
    Unreadable sink.written := by
  obtain ⟨bloomFilter, built, _⟩ := build_eq_ok ran
  apply built.unreadable
  intro empty
  have same := (sortedByKey_perm entries).length_eq
  rw [empty] at same
  exact nonempty (List.length_eq_zero_iff.mp same.symm)

/-- On a reliable file system, building from entries in key order fails only by a panic. -/
theorem panic_of_buildFromVec {builder : SSTableBuilder} {createdAt : Timestamp}
    {entries : List Entry} {fault : Fault} {sink : Sink} (compresses : external.ZstdCompresses)
    (ascending : Ascending entries)
    (ran : builder.buildFromVec external createdAt entries { output := .reliable } =
      .error fault sink) : fault = .panic :=
  panic_of_build compresses
    (ascending_sortedByKey_iff.mpr (ascending.imp fun below => below.ne)) ran

end SSTableBuilder

end JustDb

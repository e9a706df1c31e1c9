import JustDb.Library.Stateful
import JustDb.Library.Layered
import JustDb.Library.Newest
import JustDb.Library.LittleEndian
import JustDb.Library.Runs
import JustDb.Library.Traced
import JustDb.Library.Parsing
import JustDb.Library.BinarySearch
import JustDb.Library.Pieces
import JustDb.Library.Base128
import JustDb.Library.Conveyor
import JustDb.Library.Memo
import JustDb.Library.Words
import JustDb.Library.WriteBehind
import JustDb.Basic
import JustDb.Config
import JustDb.External
import JustDb.Errors
import JustDb.Serialization
import JustDb.TypedSerialization
import JustDb.AcceptedBytes
import JustDb.VariableInts
import JustDb.CursorBounds
import JustDb.Bloom
import JustDb.BloomBytes
import JustDb.BloomMerge
import JustDb.MemTable
import JustDb.MemTableSize
import JustDb.ConcurrentWrites
import JustDb.SSTable.Format
import JustDb.SSTable.Writer
import JustDb.SSTable.Reader
import JustDb.SSTable.BlockParsers
import JustDb.SSTable.Blocks
import JustDb.SSTable.Layout
import JustDb.SSTable.Build
import JustDb.SSTable.Faults
import JustDb.SSTable.InternalFaults
import JustDb.SharedMemTable
import JustDb.MemTableIterators
import JustDb.SSTable.Recovery
import JustDb.SSTable.Opening
import JustDb.SSTable.Accepted
import JustDb.SSTable.Unreadable
import JustDb.SSTable.Serving
import JustDb.SSTable.BlockRoundTrip
import JustDb.SSTable.ConcurrentReads
import JustDb.SSTable.PointLookup
import JustDb.SSTable.TableRoundTrip
import JustDb.SSTable.FailedWrites
import JustDb.SSTable.RangeRead
import JustDb.SSTable.Iteration
import JustDb.SSTable.DamagedIteration
import JustDb.Storage.Platform
import JustDb.Storage.Engine
import JustDb.Storage.ReadPath
import JustDb.Storage.InMemory
import JustDb.Storage.ReadYourWrites
import JustDb.Storage.FailedFlush
import JustDb.Storage.ScanReads
import JustDb.Storage.RangeQueries
import JustDb.Storage.PagedScans
import JustDb.Storage.Versions
import JustDb.Storage.Compaction
import JustDb.Storage.LevelCapacities
import JustDb.Storage.Chunks
import JustDb.Storage.CompactionReads
import JustDb.Storage.Merging
import JustDb.Storage.Levels
import JustDb.Storage.Readable
import JustDb.Storage.Sequences
import JustDb.Storage.Interleaving
import JustDb.Storage.ConcurrentGet
import JustDb.Storage.Rotations
import JustDb.Storage.ConcurrentClose
import JustDb.Storage.Deeds
import JustDb.Storage.MemoryBound
import JustDb.Storage.Provenance
import JustDb.Storage.Statistics
import JustDb.Storage.Invariants
import JustDb.Storage.Disk
import JustDb.Storage.Directory
import JustDb.Storage.Reload
import JustDb.Storage.StoppedCompaction
import JustDb.Storage.ReopenedReads
import JustDb.Storage.Checkpoints
import JustDb.Storage.CrashConsistency
import JustDb.Storage.CrashRecovery
import JustDb.Storage.ClosedRecovery
import JustDb.Storage.Lives
import JustDb.Storage.CleanShutdown
import JustDb.Storage.Routing
import JustDb.Storage.TablePaths
import JustDb.Storage.LiveFiles
import JustDb.Storage.ClientErrors
import JustDb.Cli.Lines
import JustDb.Cli.Session
import JustDb.Cli.Benchmark
import JustDb.Cli.Process

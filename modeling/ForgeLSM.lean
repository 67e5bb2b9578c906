import ForgeLSM.Util.OrdMap
import ForgeLSM.Util.Bytes
import ForgeLSM.Util.Run
import ForgeLSM.Util.WriteAll
import ForgeLSM.Util.Probe
import ForgeLSM.Util.KMerge
import ForgeLSM.Util.StdSort
import ForgeLSM.Util.StdQueue
import ForgeLSM.Basic
import ForgeLSM.VersionEdit
import ForgeLSM.EditReader
import ForgeLSM.VersionSet
import ForgeLSM.ManifestReplay
import ForgeLSM.ManifestSnapshot
import ForgeLSM.Util.Decimal
import ForgeLSM.Util.Ring
import ForgeLSM.Util.ShiftRegister
import ForgeLSM.Util.SortedChain
import ForgeLSM.OrphanPurge
import ForgeLSM.Bloom
import ForgeLSM.SSTable
import ForgeLSM.Compaction
import ForgeLSM.MergeLoop
import ForgeLSM.LevelShape
import ForgeLSM.CompactionCommit
import ForgeLSM.Lsm
import ForgeLSM.CompactionLoop
import ForgeLSM.VLog
import ForgeLSM.History
import ForgeLSM.KVStore
import ForgeLSM.Engine
import ForgeLSM.LsmEntries
import ForgeLSM.Pipeline
import ForgeLSM.VlogsGrow
import ForgeLSM.Batch
import ForgeLSM.Pointed
import ForgeLSM.Covered
import ForgeLSM.Cells
import ForgeLSM.Visible
import ForgeLSM.Overlap
import ForgeLSM.Reads
import ForgeLSM.WalSuffix
import ForgeLSM.WalOrder
import ForgeLSM.LsmRecovery
import ForgeLSM.Layers
import ForgeLSM.Durable
import ForgeLSM.Recovered
import ForgeLSM.Buffered
import ForgeLSM.Segments
import ForgeLSM.Shutdown
import ForgeLSM.QuietGc
import ForgeLSM.VLogScan
import ForgeLSM.UnreadableTables
import ForgeLSM.CompactionFailures
import ForgeLSM.FlushFailures
import ForgeLSM.VlogReaders
import ForgeLSM.HandOff
import ForgeLSM.TableRanges
import ForgeLSM.Scan
import ForgeLSM.Crc32
import ForgeLSM.TableFormat
import ForgeLSM.TableReader
import ForgeLSM.TableLookup
import ForgeLSM.BloomLoad
import ForgeLSM.TableBounds
import ForgeLSM.PowerLoss
import ForgeLSM.TableIterator
import ForgeLSM.WalFile
import ForgeLSM.SyncPut
import ForgeLSM.WalTail
import ForgeLSM.WalReplay
import ForgeLSM.ValuesFirst
import ForgeLSM.GroupCommit
import ForgeLSM.VersionRefs
import ForgeLSM.SplitRead
import ForgeLSM.ManifestTail
import ForgeLSM.VlogFailures
import ForgeLSM.Wakeups
import ForgeLSM.BackgroundPool
import ForgeLSM.PanicStop
import ForgeLSM.SkipList
import ForgeLSM.SkipListMap
import ForgeLSM.SkipListSteps
import ForgeLSM.SkipListReads
import ForgeLSM.Checksums
import ForgeLSM.IteratorBounds
import ForgeLSM.TableBlocks
import ForgeLSM.Cache
import ForgeLSM.CachedReads
import ForgeLSM.FlushRing
import ForgeLSM.Arena
import ForgeLSM.Stall
import ForgeLSM.UserBytes
import ForgeLSM.Util.Linearizability
import ForgeLSM.Clients
import ForgeLSM.Util.Simulation
import ForgeLSM.Util.Relators
import ForgeLSM.FileTree
import ForgeLSM.FileStore
import ForgeLSM.FileSteps
import ForgeLSM.FileRuns

import TypeDB.Durability.WalLoad
import TypeDB.Durability.Fsync
import TypeDB.Storage.CommitView
import TypeDB.Storage.Watermark
import TypeDB.Storage.Deadlock
import TypeDB.Storage.Eviction
import TypeDB.Storage.Faults
import TypeDB.Storage.Reset
import TypeDB.Common.KMerge
import TypeDB.Database.ResetReservation
import TypeDB.Database.QueryCache
import TypeDB.Database.ObjectIds
import TypeDB.Concept.Embedded
import TypeDB.Concept.UniqueCommits
import TypeDB.Storage.ReadErrors
import TypeDB.Storage.RangeSelection
import TypeDB.Durability.TornTail
import TypeDB.Compiler.RecursionAnalyser
import TypeDB.Encoding.DurationText
import TypeDB.Encoding.DecimalText
import TypeDB.Executor.AdvancePast
import TypeDB.Executor.Modifiers
import TypeDB.Storage.SnapshotBytes
import TypeDB.Encoding.ValueLookup
import TypeDB.Encoding.EqualHashes
import TypeDB.Encoding.ValueOrder
import TypeDB.Encoding.SchemaIDAllocator
import TypeDB.Concept.StatisticsCodec
import TypeDB.Database.DryRun
import TypeDB.Database.ImportedState

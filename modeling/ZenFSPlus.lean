import ZenFSPlus.Cache.CacheScan
import ZenFSPlus.Cache.LRUCacheInvariant
import ZenFSPlus.Db.FlushOrder
import ZenFSPlus.Db.LogTailing
import ZenFSPlus.Db.LogTruncation
import ZenFSPlus.Db.MultiGetSearch
import ZenFSPlus.Db.PipelinedWrite
import ZenFSPlus.Db.PointLookupSpec
import ZenFSPlus.Db.ProtectionInfo
import ZenFSPlus.Db.RangeTombstoneCoverage
import ZenFSPlus.Db.RecoveredSequences
import ZenFSPlus.Db.SubcompactionBoundaries
import ZenFSPlus.Db.VersionBuilderLinks
import ZenFSPlus.Db.VersionBuilderRefinement
import ZenFSPlus.Db.VersionEditRoundTrip
import ZenFSPlus.Env.EncryptedSequentialFile
import ZenFSPlus.File.PrefetchedBytes
import ZenFSPlus.File.WrittenContent
import ZenFSPlus.Table.HashIndexSeek
import ZenFSPlus.Table.MergingCursor
import ZenFSPlus.Table.PartitionedFilterLookup
import ZenFSPlus.Transactions.DeadlockDetection
import ZenFSPlus.Transactions.Visibility
import ZenFSPlus.Util.EnvZone
import ZenFSPlus.Util.HeapContents
import ZenFSPlus.Util.RateLimiter
import ZenFSPlus.Util.RibbonSolution
import ZenFSPlus.Utilities.WriteBatchSubBatches
import ZenFSPlus.Zoad.Calls
import ZenFSPlus.Zoad.Isolation
import ZenFSPlus.Zoad.OpenZones
import ZenFSPlus.Zoad.ReadYourWrites
import ZenFSPlus.Zoad.SyncDurability
import ZenFSPlus.Zoad.UnitOrder
import ZenFSPlus.Zoad.WriteBounds
import ZenFSPlus.Zoad.WritePointers
import ZenFSPlus.Zoad.ZoneReport
import ZenFSPlus.ZoadEnv.ReadExtent

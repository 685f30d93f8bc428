import NvMalloc.Durable
import NvMalloc.Crash
import NvMalloc.CommitOrder
import NvMalloc.Framing
import NvMalloc.AsyncCkpt
import NvMalloc.Paths
import NvMalloc.Names
import NvMalloc.Indexes
import NvMalloc.ChunkCache
import NvMalloc.Volatile
import NvMalloc.CacheFlush
import NvMalloc.AddrCache
import NvMalloc.ShadowCopy
import NvMalloc.CommitSize
import NvMalloc.FailedDelete
import NvMalloc.NumericId
import NvMalloc.RecordRoom
import NvMalloc.PrivateCopy
import NvMalloc.Recover
import NvMalloc.VmaCache
import NvMalloc.ProcCache
import NvMalloc.LogNesting
import NvMalloc.LogExtent
import NvMalloc.WordIndex
import NvMalloc.LogViews
import NvMalloc.Restarts
import NvMalloc.MmapCache
import NvMalloc.Parsing
import NvMalloc.LocalCkpt
import NvMalloc.RegionSearch
import NvMalloc.Spinlock
import NvMalloc.Isolation
import NvMalloc.Bitmap
import NvMalloc.Rounding
import NvMalloc.SizeClasses
import NvMalloc.RunLayout
import NvMalloc.MapBits
import NvMalloc.RunRegions
import NvMalloc.BinRuns

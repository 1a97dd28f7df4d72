import Swift.Order.LastWriterWins
import Swift.Common.Timestamp
import Swift.Container.ShardRange
import Swift.Container.ShardRangeMerge
import Swift.Hashing.Md5
import Swift.Ring.Ring
import Swift.Ring.Handoff
import Swift.Ring.Builder
import Swift.Common.Namespace
import Swift.Container.GetNamespaces
import Swift.Proxy.UpdateShard
import Swift.Data.Bitmap
import Swift.Ring.Rebalance
import Swift.Ring.MinPartHours
import Swift.Proxy.ContainerUpdates
import Swift.Common.EncodeTimestamps
import Swift.Obj.Ssync
import Swift.Proxy.EcRange
import Swift.Data.Slice
import Swift.Middleware.Slo
import Swift.Data.PySet
import Swift.Obj.Diskfile
import Swift.Obj.DiskfileContract
import Swift.Obj.SuffixHash
import Swift.Db.Listing
import Swift.Proxy.ResumedGet
import Swift.Common.RangeGuard
import Swift.Data.Bisect
import Swift.Common.FindNamespace
import Swift.Common.Memcached
import Swift.Common.RateLimiter
import Swift.Data.PySort
import Swift.Container.Reconciler
import Swift.Ring.TierDiversity
import Swift.Ring.HandoffWalk
import Swift.Container.FindPaths
import Swift.Container.PathGaps
import Swift.Container.Compaction
import Swift.Common.FileLikeIter
import Swift.Common.MimeHeaders
import Swift.Common.Multipart
import Swift.Common.MultipartRoundTrip
import Swift.Data.PyDict
import Swift.Data.Run
import Swift.Obj.Hashes
import Swift.Obj.HashesSafety
import Swift.Container.FindShardRanges
import Swift.Container.YieldObjects
import Swift.Container.MoveObjects

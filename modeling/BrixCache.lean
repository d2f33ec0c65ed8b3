import BrixCache.SdCache.SliceVersions
import BrixCache.SdCache.Follow
import BrixCache.SdCache.Workers
import BrixCache.Csi.FlushRuns
import BrixCache.Cache.EvictLock
import BrixCache.Cache.Purge
import BrixCache.Cas.PackReopen
import BrixCache.Pblock.PackRuns
import BrixCache.Pblock.Csi
import BrixCache.Pblock.StagedAtomic
import BrixCache.Pblock.RefsRuns
import BrixCache.Pblock.NameCacheRuns
import BrixCache.Auth.Discharges
import BrixCache.Auth.IssueRoundTrip
import BrixCache.Root.SigverRuns
import BrixCache.S3.ChunkedSound
import BrixCache.Manager.LocCache
import BrixCache.S3.MultipartRuns
import BrixCache.Core.HttpCond
import BrixCache.Webdav.LockRuns
import BrixCache.S3.SigV4Binds
import BrixCache.SdCache.PeerOwner
import BrixCache.Meta.Stock
import BrixCache.Meta.PathSave
import BrixCache.Shm.RateLimit
import BrixCache.Cache.HeaderLoad
import BrixCache.SdCache.BlockCopy
import BrixCache.Root.ReadvRuns
import BrixCache.Cvmfs.Gc
import BrixCache.Oci.GcKeeps
import BrixCache.Oci.FlattenRuns
import BrixCache.Core.Range
import BrixCache.Auth.AuthDbRules
import BrixCache.Core.WVerifyRuns
import BrixCache.Pblock.Usage
import BrixCache.Vfs.ResolveConfined
import BrixCache.Pblock.Striped
import BrixCache.Pblock.RenameAtomic
import BrixCache.Cms.Rrdata
import BrixCache.Manager.SpaceLatch
import BrixCache.Manager.SelectTiers
import BrixCache.Manager.Tried
import BrixCache.Cms.CnsInventory
import BrixCache.Cms.ReqidMap
import BrixCache.Cms.FanoutRuns
import BrixCache.Cvmfs.XorfMember
import BrixCache.Cvmfs.PathidxRoundTrip
import BrixCache.Cvmfs.PublishStatistics
import BrixCache.Cvmfs.Bundle
import BrixCache.Core.NegcachePacing
import BrixCache.Core.JsonLookup
import BrixCache.Cvmfs.WalkSubtree
import BrixCache.Root.XrootPread
import BrixCache.Auth.ScopeText
import BrixCache.Root.Wrts

import BlobCache.Ranking
import BlobCache.Node.Lengths
import BlobCache.Node.Reads
import BlobCache.Node.Notes
import BlobCache.Node.Advertise
import BlobCache.Node.Rebuild
import BlobCache.Node.OneKey
import BlobCache.Node.Cold
import BlobCache.Node.Followers
import BlobCache.Node.Directory
import BlobCache.Node.Hits
import BlobCache.Node.Versions
import BlobCache.Node.Skips
import BlobCache.Node.Stampede
import BlobCache.Node.LruRefinement
import BlobCache.Node.SubRange
import BlobCache.Cluster.Freshness
import BlobCache.Cluster.Fingerprint
import BlobCache.Cluster.DeathHook
import BlobCache.Cluster.Incarnation
import BlobCache.BloomWire
import BlobCache.Ucx.Generations
import BlobCache.Ucx.Safety
import BlobCache.Ucx.Inbound
import BlobCache.Http.ChunkUrl
import BlobCache.Azure.Retry
import BlobCache.Fetcher.ByteBound
import BlobCache.Hydrate.Ring
import BlobCache.Hydrate.Grid
import BlobCache.Fuse.Paging
import BlobCache.Fuse.Origin
import BlobCache.Hydrate.Drain
import BlobCache.Hydrate.RingTotals
import BlobCache.Hydrate.Arithmetic
import BlobCache.Sharing.Rdma
import BlobCache.Hydrate.Complete
import BlobCache.Ucx.Requests

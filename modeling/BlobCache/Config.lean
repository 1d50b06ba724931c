import BlobCache.Data.Sorted
import BlobCache.Fetcher.State
import Mathlib.Data.String.Basic

/-!
The configuration, as far as `validate` and `cluster_hash` read it. A node
advertises the hash in gossip and merges only with nodes that advertise the same
one.
-/

namespace BlobCache.Conf

structure Config where
  chunkSize : Nat
  poolMaxIdlePerHost : Nat
  workers : Nat
  mainWorkerThreads : Nat
  blockSize : Nat
  mounts : List MountConfig
  transportKind : String

namespace Config

/-- `debugText` is the format `{:?}` of a string. -/
def validate (debugText : String → String) (c : Config) : Except BcError Unit :=
  if c.chunkSize = 0 ∨ ¬4096 ∣ c.chunkSize then
    .error (.config "cache.chunk_size must be multiple of 4096")
  else if c.poolMaxIdlePerHost = 0 then
    .error (.config "azure.pool_max_idle_per_host must be >= 1")
  else if c.workers = 0 then
    .error (.config "azure.workers must be >= 1")
  else if c.mainWorkerThreads = 0 then
    .error (.config "azure.main_worker_threads must be >= 1")
  else if c.blockSize ≠ 0 ∧ c.blockSize < c.chunkSize then
    .error (.config "azure.block_size must be >= cache.chunk_size when set")
  else if c.blockSize ≠ 0 ∧ ¬c.chunkSize ∣ c.blockSize then
    .error (.config "azure.block_size must be a multiple of cache.chunk_size")
  else if c.mounts = [] then
    .error (.config "at least one mount required")
  else
    match c.mounts.find? fun m => m.name = "" ∨ m.account = "" ∨ m.container = "" with
    | some m =>
        let name := m.name
        .error (.config s!"mount {name}: name/account/container required")
    | none =>
        if c.transportKind ∈ ["tcp", "rdma"] then .ok ()
        else
          let got := debugText c.transportKind
          .error (.config s!"transport.kind must be \"tcp\" or \"rdma\", got {got}")

/-- What `cluster_hash` hashes for one mount. -/
def mountRecord (m : MountConfig) : Bytes :=
  utf8 m.name ++ [0] ++ utf8 m.account ++ [0] ++ utf8 m.container ++ [0] ++
    utf8 m.pathPrefix ++ [0]

/-- The bytes that `cluster_hash` hashes. Names are compared byte by byte, which
is the order of strings by code points. -/
def preimage (c : Config) : Bytes :=
  leBytes 8 c.chunkSize ++ utf8 c.transportKind ++ [0] ++
    (Sorted.sortBy MountConfig.name c.mounts).flatMap mountRecord

def clusterHash (sha256 : Bytes → Digest) (c : Config) : Digest := sha256 c.preimage

/-- `hex32` of the hash, which the node advertises. -/
def clusterHashHex (sha256 : Bytes → Digest) (c : Config) : String :=
  hex (c.clusterHash sha256).toList

/-- The map `mounts` that `main` collects: of mounts of one name the last one
counts. -/
def mountTable (c : Config) : FinMap String MountConfig :=
  c.mounts.foldl (fun t m => t.insert m.name m) ∅

end Config

end BlobCache.Conf

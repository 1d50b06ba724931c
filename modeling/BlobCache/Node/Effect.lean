import BlobCache.Conc.Program
import BlobCache.Cache.Disk
import BlobCache.Fetcher.State

/-!
One node: the disk cache, the peer index and the fetcher as one shared state,
the operations on it and the jobs that run over it. Peers, the origin, the
file system's failures and the clock are the environment; each of them
decides its part of an operation through the choice.
-/

namespace BlobCache.Node

open Cache Conc

structure NodeConfig where
  sha256 : Bytes → Digest
  base64Decode : String → Option Bytes
  maxBytes : Nat
  pid : Nat
  meId : String
  bloomBits : Nat
  rdma : Bool
  chunkSize : Nat
  peerMaxYesAttempts : Nat
  peerMaxMaybeAttempts : Nat
  stampedeWaitMs : Nat
  mounts : FinMap String MountConfig
  prefetchDepth : Nat
  prefetchThreshold : Nat
  prefetchOriginOnly : Bool
  cacheOnPeerFetch : Bool
  peerLruBytes : Nat

namespace NodeConfig

def disk (cfg : NodeConfig) : DiskConfig := ⟨cfg.sha256, cfg.maxBytes, cfg.pid⟩

def index (cfg : NodeConfig) : PeerIndexConfig := ⟨cfg.sha256, cfg.meId, cfg.bloomBits⟩

/-- The part of `Config::validate` about chunks. -/
def chunkSizeValid (cfg : NodeConfig) : Bool := cfg.chunkSize ≠ 0 ∧ 4096 ∣ cfg.chunkSize

end NodeConfig

structure Choice where
  disk : DiskChoice
  fetch : FetchChoice

/-- Nothing fails, nobody else is in the cluster and the origin has nothing. -/
def Choice.benign : Choice := ⟨.benign, ⟨.error (.notFound ""), .error (.notFound ""), false, []⟩⟩

structure State where
  disk : Disk
  index : PeerIndex
  fetch : FetchState

def State.new (cfg : NodeConfig) : State :=
  ⟨.opened, .new cfg.index, .new cfg.peerLruBytes⟩

/-- `snapshotKeys` is `live_keys` as `rebuild_local_from_cache` calls it. -/
inductive Op where
  | disk (o : DiskOp)
  | index (o : IndexOp)
  | fetch (o : FetchOp)
  | snapshotKeys
  deriving DecidableEq

def Op.Resp : Op → Type
  | .disk o => o.Resp
  | .index o => o.Resp
  | .fetch o => o.Resp
  | .snapshotKeys => List ChunkKey

/-- The jobs of a node. The methods of `DiskCache` also run on their own; a
`chunkTask` is a task of `fetch_range`, a `prefetchTask` one of
`maybe_trigger_prefetch`, an `insertTask` the one of `spawn_insert`.
`rebuildWork` is the closure of the rebuild loop and `externalLoss` a file
that disappears behind the daemon's back. -/
inductive Job where
  | tryGet (key : ChunkKey)
  | tryGetRange (key : ChunkKey) (rangeOffset rangeLen : Nat)
  | tryGetIntoSlice (key : ChunkKey) (dstLen : Nat)
  | insert (key : ChunkKey) (data : Bytes)
  | remove (key : ChunkKey)
  | reconcileWithDisk
  | clearAll
  | externalLoss (name : String)
  | fetchChunk (mount : MountConfig) (blob : String) (offset expectedLen : Nat)
  | fetchChunkOriginOnly (mount : MountConfig) (blob : String) (offset expectedLen : Nat)
  | fetchChunkRange (mount : MountConfig) (blob : String)
      (chunkOffset subOffset subLen expectedChunkLen : Nat)
  | servePeerChunk (key : ChunkKey) (expectedLen waitMs : Nat)
  | pullChunkFromPeerWait (mount : MountConfig) (blob : String) (offset expectedLen : Nat)
      (peerId transportUrl : String) (workerAddr : Option Bytes) (waitMs : Nat)
  | fetchRange (mount : MountConfig) (blob : String) (offset length fileSize : Nat)
  | chunkTask (mount : MountConfig) (blob : String)
      (chunkOffset takeStart subLen chunkLen : Nat)
  | prefetchTask (mount : MountConfig) (blob : String) (offset chunkLen : Nat)
  | insertTask (key : ChunkKey) (data : Bytes)
  | insertReceivedChunk (key : ChunkKey) (data : Bytes)
  | rebuildWork
  | bloomRebuildTick
  | clearLocalState
  deriving DecidableEq

inductive Val where
  | unit
  | cached (r : Option Bytes)
  | filled (r : Option (Nat × Bytes))
  | done (r : Except BcError Unit)
  | reconciled (dropped reclaimed : Nat)
  | cleared (r : Except BcError (Nat × Nat))
  | fetched (r : Fetched)
  | chunk (r : Except BcError (Nat × Bytes))
  | served (r : Option Bytes)
  | version (v : Nat)
  deriving DecidableEq

def effect : Effect := ⟨Op, Op.Resp, Job, Val⟩

instance : DecidableEq effect.Job := inferInstanceAs (DecidableEq Job)

instance : DecidableEq effect.Val := inferInstanceAs (DecidableEq Val)

abbrev NodeM := Program effect

/-- One operation of thread `t`. -/
def exec (cfg : NodeConfig) (t : Nat) (o : Op) (c : Choice) (s : State) :
    Option (o.Resp × State) :=
  match o with
  | .disk o =>
      let (r, disk) := s.disk.exec cfg.disk t c.disk o
      some (r, { s with disk := disk })
  | .index o =>
      let (r, index) := s.index.exec cfg.index t o
      some (r, { s with index := index })
  | .fetch o =>
      match s.fetch.exec cfg.rdma t c.fetch o with
      | none => none
      | some (r, fetch) => some (r, { s with fetch := fetch })
  | .snapshotKeys =>
      let keys := s.disk.inner.entries.keys
      some (keys, { s with
        index := { s.index with snapshots := s.index.snapshots.insert t keys } })

section Inversion

variable {cfg : NodeConfig} {t : Nat} {c : Choice} {s s' : State}

theorem exec_disk {o : DiskOp} {r : o.Resp} (h : exec cfg t (.disk o) c s = some (r, s')) :
    s.disk.exec cfg.disk t c.disk o = (r, s'.disk) ∧ s'.index = s.index ∧ s'.fetch = s.fetch := by
  have heq : ((s.disk.exec cfg.disk t c.disk o).1,
      { s with disk := (s.disk.exec cfg.disk t c.disk o).2 }) = (r, s') := Option.some.inj h
  cases heq
  exact ⟨rfl, rfl, rfl⟩

theorem exec_index {o : IndexOp} {r : o.Resp} (h : exec cfg t (.index o) c s = some (r, s')) :
    s.index.exec cfg.index t o = (r, s'.index) ∧ s'.disk = s.disk ∧ s'.fetch = s.fetch := by
  have heq : ((s.index.exec cfg.index t o).1,
      { s with index := (s.index.exec cfg.index t o).2 }) = (r, s') := Option.some.inj h
  cases heq
  exact ⟨rfl, rfl, rfl⟩

theorem exec_fetch {o : FetchOp} {r : o.Resp} (h : exec cfg t (.fetch o) c s = some (r, s')) :
    s.fetch.exec cfg.rdma t c.fetch o = some (r, s'.fetch) ∧
      s'.disk = s.disk ∧ s'.index = s.index := by
  simp only [exec] at h
  cases hf : s.fetch.exec cfg.rdma t c.fetch o with
  | none => simp [hf] at h
  | some rf =>
      simp only [hf] at h
      have heq : (rf.1, { s with fetch := rf.2 }) = (r, s') := Option.some.inj h
      cases heq
      exact ⟨rfl, rfl, rfl⟩

theorem exec_snapshotKeys {r : List ChunkKey} (h : exec cfg t .snapshotKeys c s = some (r, s')) :
    r = s.disk.inner.entries.keys ∧ s'.disk = s.disk ∧ s'.fetch = s.fetch ∧
      s'.index = { s.index with snapshots := s.index.snapshots.insert t r } := by
  have heq : (s.disk.inner.entries.keys, { s with
      index := { s.index with
        snapshots := s.index.snapshots.insert t s.disk.inner.entries.keys } }) = (r, s') :=
    Option.some.inj h
  cases heq
  exact ⟨rfl, rfl, rfl, rfl⟩

end Inversion

end BlobCache.Node

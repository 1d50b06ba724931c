import BlobCache.Cluster.Membership
import BlobCache.Paths

/-!
What `run_coordinator` makes of a listing: the chunks of every blob, the
round-robin buckets of the targets, and the requests that `run_broadcast_phase`
and `run_ring_phase` send. Statistics and timings are left out.
-/

namespace BlobCache.Hydrate

structure ChunkSpec where
  blob : String
  offset : Nat
  len : Nat
  deriving DecidableEq, Repr

structure ListedBlob where
  name : String
  contentLength : Nat
  deriving DecidableEq, Repr

/-- The loop of `run_coordinator` over the chunks of one blob. -/
def chunksFrom (chunkSize : Nat) (blob : String) (contentLength : Nat) :
    Nat → Nat → List ChunkSpec
  | 0, _ => []
  | fuel + 1, off =>
      if off < contentLength then
        let len := min chunkSize (contentLength - off)
        ⟨blob, off, len⟩ :: chunksFrom chunkSize blob contentLength fuel (off + len)
      else []

/-- A positive chunk size makes at least one byte of progress in each round. -/
def blobChunks (chunkSize : Nat) (blob : String) (contentLength : Nat) : List ChunkSpec :=
  chunksFrom chunkSize blob contentLength contentLength 0

/-- The prefix that is listed. -/
def combinedPrefix (mount : MountConfig) (path : String) : String :=
  if mount.pathPrefix.isEmpty then path
  else if path.isEmpty then mount.pathPrefix
  else Node.trimEndSlashes mount.pathPrefix ++
    if path.toList.head? = some '/' then path else "/" ++ path

/-- The path under which the chunks of a listed blob are requested. -/
def blobPath (mount : MountConfig) (name : String) : String :=
  if ¬mount.pathPrefix.isEmpty ∧ mount.pathPrefix.toList.isPrefixOf name.toList then
    trimStartSlashes (String.ofList (name.toList.drop mount.pathPrefix.toList.length))
  else name

def allChunks (chunkSize : Nat) (mount : MountConfig) (listed : List ListedBlob) :
    List ChunkSpec :=
  listed.flatMap fun b =>
    if b.contentLength = 0 then []
    else blobChunks chunkSize (blobPath mount b.name) b.contentLength

/-! ## Targets and buckets -/

structure Target where
  nodeId : String
  transportUrl : Option String
  ucxWorkerAddrB64 : Option String
  deriving DecidableEq, Repr

/-- The node itself comes first, then the other members that are alive. -/
def targets (meId : String) (members : List Cluster.NodeInfo) : List Target :=
  ⟨meId, none, (members.find? fun n => n.id = meId).bind (·.ucxWorkerAddrB64)⟩ ::
    (members.filter fun n => n.state = .alive ∧ n.id ≠ meId).map fun n =>
      ⟨n.id, some n.transportUrl, n.ucxWorkerAddrB64⟩

/-- `buckets[i % n_targets].push(c)` for every chunk. -/
def buckets (nTargets : Nat) (chunks : List ChunkSpec) : List (List ChunkSpec) :=
  chunks.zipIdx.foldl (fun bs ci => bs.modify (ci.2 % nTargets) (· ++ [ci.1]))
    (List.replicate nTargets [])

structure BroadcastSource where
  nodeId : String
  transportUrl : String
  ucxWorkerAddrB64 : Option String
  chunks : List ChunkSpec
  deriving DecidableEq, Repr

def plan (meTransportUrl : String) (targets : List Target) (chunks : List ChunkSpec) :
    List BroadcastSource :=
  List.zipWith
    (fun t cs => ⟨t.nodeId, t.transportUrl.getD meTransportUrl, t.ucxWorkerAddrB64, cs⟩)
    targets (buckets targets.length chunks)

/-! ## The requests of Phase B -/

structure BroadcastShardRequest where
  mount : String
  sources : List BroadcastSource
  deriving DecidableEq, Repr

/-- A request for one receiver, with the number of chunks that is reported as
assigned to it. -/
structure Dispatch (Body : Type) where
  receiverId : String
  assigned : Nat
  body : Body
  deriving DecidableEq

def assigned (sources : List BroadcastSource) : Nat := (sources.map (·.chunks.length)).sum

def others (plan : List BroadcastSource) (id : String) : List BroadcastSource :=
  plan.filter fun s => s.nodeId ≠ id

def broadcastPhase (mount : String) (plan : List BroadcastSource) :
    List (Dispatch BroadcastShardRequest) :=
  plan.map fun receiver =>
    let sources := others plan receiver.nodeId
    ⟨receiver.nodeId, assigned sources, ⟨mount, sources⟩⟩

structure RingStepRequest where
  mount : String
  step : Nat
  sourceNodeId : String
  prevNodeId : String
  prevTransportUrl : String
  prevUcxWorkerAddrB64 : Option String
  chunks : List ChunkSpec
  deriving DecidableEq, Repr

def prevRank {world : Nat} (recv : Fin world) : Fin world :=
  ⟨(recv + world - 1) % world, Nat.mod_lt _ recv.pos⟩

def sourceRank {world : Nat} (k : Nat) (recv : Fin world) : Fin world :=
  ⟨(recv + world - k) % world, Nat.mod_lt _ recv.pos⟩

def ringBody (mount : String) (sorted : List BroadcastSource) (k : Nat)
    (recv : Fin sorted.length) : RingStepRequest :=
  let prev := sorted.get (prevRank recv)
  let source := sorted.get (sourceRank k recv)
  ⟨mount, k, source.nodeId, prev.nodeId, prev.transportUrl, prev.ucxWorkerAddrB64,
    source.chunks⟩

/-- The requests of one step, all of which the coordinator waits for. -/
def ringStep (mount : String) (sorted : List BroadcastSource) (k : Nat) :
    List (Dispatch RingStepRequest) :=
  List.ofFn fun recv : Fin sorted.length =>
    let receiver := sorted.get recv
    ⟨receiver.nodeId, assigned (others sorted receiver.nodeId), ringBody mount sorted k recv⟩

def sortedPlan (plan : List BroadcastSource) : List BroadcastSource :=
  plan.insertionSort fun a b => a.nodeId ≤ b.nodeId

def ringPhase (mount : String) (plan : List BroadcastSource) :
    List (List (Dispatch RingStepRequest)) :=
  let sorted := sortedPlan plan
  if sorted.length < 2 then []
  else (List.range' 1 (sorted.length - 1)).map (ringStep mount sorted)

/-! ## The pulls of the workers -/

/-- The arguments of `pull_chunk_from_peer_wait`. -/
structure Pull where
  peerId : String
  transportUrl : String
  workerAddr : Option Bytes
  chunk : ChunkSpec
  deriving DecidableEq

variable (base64Decode : String → Option Bytes)

/-- A worker address that does not decode is left out. -/
def pullOf (src : BroadcastSource) (c : ChunkSpec) : Pull :=
  ⟨src.nodeId, src.transportUrl, src.ucxWorkerAddrB64.bind base64Decode, c⟩

/-- One round of the scheduling loop of `run_broadcast_shard`: the next chunk
of every source that has one left. -/
def nextPulls (sources : List BroadcastSource) : List Pull :=
  sources.filterMap fun s => s.chunks.head?.map (pullOf base64Decode s)

def roundRobin : Nat → List BroadcastSource → List Pull
  | 0, _ => []
  | fuel + 1, sources =>
      match nextPulls base64Decode sources with
      | [] => []
      | pulls =>
          pulls ++ roundRobin fuel (sources.map fun s => { s with chunks := s.chunks.tail })

/-- Every round but the last takes a chunk. -/
def broadcastPulls (req : BroadcastShardRequest) : List Pull :=
  roundRobin base64Decode (assigned req.sources + 1) req.sources

end BlobCache.Hydrate

import BlobCache.Data.Table
import BlobCache.Hydrate.Worker

/-!
What the coordinator makes of the answers in Phase B: the statistics of each
peer that `run_broadcast_phase` and `run_ring_phase` return. How the request to a
worker ends is up to the network, the worker and the runtime. Timings are left
out, and so are the statistics of the single steps of the ring.
-/

namespace BlobCache.Hydrate

structure PerPeerStats where
  nodeId : String
  assignedChunks : Nat
  fetched : Nat
  bytes : Nat
  errors : List String
  deriving DecidableEq, Repr

/-! ## The broadcast -/

/-- The end of a task of `run_broadcast_phase`. The coordinator works through its own
request itself; the others answer over HTTP. -/
inductive ShardEnd where
  | ran (r : BroadcastShardResponse)
  | answered (s : BroadcastShardResponse)
  | decodeFailed (cause : String)
  | postFailed (cause : String)
  | joinFailed (cause : String)
  deriving DecidableEq

/-- The errors of an answer after the coordinator has compared it with what it assigned. -/
def crossCheck (assigned : Nat) (s : BroadcastShardResponse) : List String :=
  let receiver := s.assigned
  let fetched := s.fetched
  let errors :=
    if receiver ≠ 0 ∧ receiver ≠ assigned then
      s!"protocol skew: coordinator assigned={assigned} receiver assigned={receiver}" :: s.errors
    else s.errors
  let reported := errors.length
  let accounted := saturatingAdd fetched reported
  if accounted < assigned then
    let lost := assigned - accounted
    errors ++ ["coordinator silent-loss check: " ++
      s!"assigned={assigned} fetched={fetched} reported_errors={reported} lost={lost}"]
  else errors

def shardStats (d : Dispatch BroadcastShardRequest) : ShardEnd → PerPeerStats
  | .ran r => ⟨d.receiverId, d.assigned, r.fetched, r.bytes, r.errors⟩
  | .answered s => ⟨d.receiverId, d.assigned, s.fetched, s.bytes, crossCheck d.assigned s⟩
  | .decodeFailed cause => ⟨d.receiverId, d.assigned, 0, 0, ["decode: " ++ cause]⟩
  | .postFailed cause => ⟨d.receiverId, d.assigned, 0, 0, ["post: " ++ cause]⟩
  | .joinFailed cause => ⟨"unknown", 0, 0, 0, ["join: " ++ cause]⟩

/-- `run_broadcast_phase`, for the end of the task at each place; without any when the
phase takes longer than `timeout` seconds. -/
def runBroadcastPhase (mount : String) (plan : List BroadcastSource) (timeout : Nat) :
    Option (Nat → ShardEnd) → List PerPeerStats
  | some ends => (broadcastPhase mount plan).zipIdx.map fun d => shardStats d.1 (ends d.2)
  | none => [⟨"coordinator", 0, 0, 0,
      [s!"phase-b coordinator timeout after {timeout}s; aborted outstanding shards"]⟩]

/-! ## The ring -/

/-- The end of a task of a ring step. -/
inductive RingEnd where
  | answered (r : RingStepResponse)
  | decodeFailed (cause : String)
  | postFailed (cause : String)
  | joinFailed (cause : String)
  deriving DecidableEq

/-- The answer that goes into the totals, with the node it is counted for. -/
def ringResult (receiverId : String) : RingEnd → String × RingStepResponse
  | .answered r => (receiverId, r)
  | .decodeFailed cause => (receiverId, ⟨0, 0, ["decode: " ++ cause]⟩)
  | .postFailed cause => (receiverId, ⟨0, 0, ["post: " ++ cause]⟩)
  | .joinFailed cause => ("unknown", ⟨0, 0, ["join: " ++ cause]⟩)

/-- How a step ends: the time is over before it begins or while it waits for its tasks, or
all of them were awaited. -/
inductive StepEnd where
  | timeoutBefore
  | timeoutDuring
  | joined (ends : Nat → RingEnd)

/-- `per_pod`, where each entry is under its own id. -/
abbrev PerPod := Table PerPeerStats.nodeId

def PerPod.setup (sorted : List BroadcastSource) : PerPod :=
  sorted.foldl (fun pods s =>
    pods.insert ⟨s.nodeId, assigned (others sorted s.nodeId), 0, 0, []⟩) Table.empty

/-- The answer of a step added to the totals of its node; the sums wrap around as they do in
a release build. -/
def PerPeerStats.add (ps : PerPeerStats) (r : RingStepResponse) : PerPeerStats :=
  { ps with
    fetched := (ps.fetched + r.fetched) % 2 ^ 64
    bytes := (ps.bytes + r.bytes) % 2 ^ 64
    errors := r.errors.foldl pushError ps.errors }

/-- One turn of the fold over the results of a step; there may be no entry for the node. -/
def PerPod.add (pods : PerPod) (result : String × RingStepResponse) : PerPod :=
  match pods.get? result.1 with
  | none => pods
  | some ps => pods.insert (ps.add result.2)

/-- An error for everybody, which is not bounded. -/
def PerPod.pushAll (pods : PerPod) (e : String) : PerPod :=
  pods.modify (fun ps => { ps with errors := ps.errors ++ [e] }) fun _ => rfl

/-- The results of step `k` when all of its tasks were awaited. -/
def stepResults (mount : String) (sorted : List BroadcastSource) (k : Nat)
    (ends : Nat → RingEnd) : List (String × RingStepResponse) :=
  (ringStep mount sorted k).zipIdx.map fun d => ringResult d.1.receiverId (ends d.2)

/-- The loop of `run_ring_phase` over the steps. -/
def ringLoop (mount : String) (sorted : List BroadcastSource) (steps : Nat → StepEnd) :
    List Nat → PerPod → PerPod
  | [], pods => pods
  | k :: ks, pods =>
      match steps k with
      | .timeoutBefore => pods.pushAll s!"ring coordinator timeout before step {k}"
      | .timeoutDuring => pods.pushAll s!"ring coordinator timeout at step {k}"
      | .joined ends =>
          ringLoop mount sorted steps ks
            ((stepResults mount sorted k ends).foldl PerPod.add pods)

def runRingPhase (mount : String) (plan : List BroadcastSource) (steps : Nat → StepEnd) :
    List PerPeerStats :=
  let sorted := sortedPlan plan
  if sorted.length < 2 then []
  else
    let pods := ringLoop mount sorted steps (List.range' 1 (sorted.length - 1)) (.setup sorted)
    pods.values.insertionSort fun a b => a.nodeId ≤ b.nodeId

end BlobCache.Hydrate

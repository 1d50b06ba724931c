import BlobCache.Conc.Extend
import BlobCache.Hydrate.Plan
import BlobCache.Node.Programs

/-!
The worker side of hydration: `run_shard`, `run_broadcast_shard` and
`run_ring_step` as jobs beside those of the node. Each starts one task for every
chunk, awaits the tasks in order and then the writes in flight. Timings and the
semaphores of the tasks are left out.

Any thread can be lost between two of its steps: at an await when its future is
dropped, anywhere when it panics.
-/

namespace BlobCache

/-- `take_insert_failures`. -/
def FetchState.takeInsertFailures (f : FetchState) : List (ChunkKey × String) × FetchState :=
  (f.insertFailures, { f with insertFailures := [] })

namespace Hydrate

open Conc

structure ShardRequest where
  mount : String
  chunks : List ChunkSpec
  deriving DecidableEq, Repr

structure ShardResponse where
  fetched : Nat
  bytes : Nat
  errors : List String
  deriving DecidableEq, Repr

structure BroadcastShardResponse where
  fetched : Nat
  bytes : Nat
  errors : List String
  assigned : Nat
  deriving DecidableEq, Repr

structure RingStepResponse where
  fetched : Nat
  bytes : Nat
  errors : List String
  deriving DecidableEq, Repr

inductive Op where
  | takeInsertFailures
  deriving DecidableEq

def Op.Resp : Op → Type
  | .takeInsertFailures => List (ChunkKey × String)

inductive Job where
  | runShard (req : ShardRequest)
  | runBroadcastShard (req : BroadcastShardRequest)
  | runRingStep (req : RingStepRequest)
  deriving DecidableEq

inductive Val where
  | shard (resp : ShardResponse)
  | broadcastShard (resp : BroadcastShardResponse)
  | ringStep (resp : RingStepResponse)
  deriving DecidableEq

def Val.errors : Val → List String
  | .shard resp => resp.errors
  | .broadcastShard resp => resp.errors
  | .ringStep resp => resp.errors

def effect : Effect := ⟨Op, Op.Resp, Job, Val⟩

instance : DecidableEq effect.Job := inferInstanceAs (DecidableEq Job)

instance : DecidableEq effect.Val := inferInstanceAs (DecidableEq Val)

abbrev WorkerM := Program (Node.effect.extend effect)

def exec (o : Op) (s : Node.State) : Option (o.Resp × Node.State) :=
  match o with
  | .takeInsertFailures =>
      let (failures, fetch) := s.fetch.takeInsertFailures
      some (failures, { s with fetch := fetch })

/-! ## The tasks of a request -/

/-- A task and the way in which an error of it is reported. -/
structure Task where
  job : Node.Job
  report : String → String

/-- The errors of a response are bounded. -/
def pushError (errors : List String) (e : String) : List String :=
  if errors.length < 32 then errors ++ [e] else errors

structure Collected where
  fetched : Nat
  bytes : Nat
  errors : List String

/-- Count what a task returned, or report that it did not return. -/
def Collected.add (acc : Collected) (report : String → String) (lost : String) :
    Option (Node.Val ⊕ Val) → Collected
  | some (.inl (.fetched (.ok b))) =>
      { acc with fetched := acc.fetched + 1, bytes := acc.bytes + b.length }
  | some (.inl (.fetched (.error e))) =>
      { acc with errors := pushError acc.errors (report e.text) }
  | _ => { acc with errors := pushError acc.errors lost }

def spawnTasks : List Task →
    WorkerM (List (Handle (Node.effect.extend effect) × (String → String)))
  | [] => return []
  | task :: tasks => do
      let h ← .spawn (.inl task.job) .ret
      let hs ← spawnTasks tasks
      return (h, task.report) :: hs

def awaitTasks (lost : String) : Collected →
    List (Handle (Node.effect.extend effect) × (String → String)) → WorkerM Collected
  | acc, [] => return acc
  | acc, (h, report) :: hs => do
      let got ← .join h .ret
      awaitTasks lost (acc.add report lost got) hs

def collect (lost : String) (tasks : List Task) : WorkerM Collected := do
  let handles ← spawnTasks tasks
  awaitTasks lost ⟨0, 0, []⟩ handles

def awaitInsertsDrained : WorkerM Unit :=
  Program.perform (E := Node.effect.extend effect) (.inl (.fetch .waitDrained))

def takeInsertFailures : WorkerM (List (ChunkKey × String)) :=
  Program.perform (E := Node.effect.extend effect) (.inr .takeInsertFailures)

/-! ## The requests -/

def unknownMount (mount : String) : String := s!"unknown mount {mount}"

/-- How a failed chunk is named in a response. -/
def atChunk (blob : String) (offset : Nat) (cause : String) : String :=
  s!"{blob}@{offset}: {cause}"

/-- The text of a task that panicked. -/
def joinError : String := "join: task panicked"

/-- A worker address that is not base64; the text comes from the decoder. -/
def badWorkerAddr : String := "bad prev worker addr: decode error"

variable (cfg : Node.NodeConfig)

def shardTask (mount : MountConfig) (c : ChunkSpec) : Task :=
  ⟨.fetchChunkOriginOnly mount c.blob c.offset c.len, atChunk c.blob c.offset⟩

def runShard (req : ShardRequest) : WorkerM ShardResponse := do
  match cfg.mounts.get? req.mount with
  | none => return ⟨0, 0, [unknownMount req.mount]⟩
  | some mount =>
      let got ← collect joinError (req.chunks.map (shardTask mount))
      awaitInsertsDrained
      let failures ← takeInsertFailures
      return ⟨got.fetched, got.bytes,
        failures.foldl (fun errors f => pushError errors
          ("insert: " ++ atChunk f.1.blob f.1.offset f.2)) got.errors⟩

def pullTask (mount : MountConfig) (p : Pull) (report : String → String) : Task :=
  ⟨.pullChunkFromPeerWait mount p.chunk.blob p.chunk.offset p.chunk.len p.peerId p.transportUrl
    p.workerAddr 0, report⟩

def broadcastTask (mount : MountConfig) (p : Pull) : Task :=
  pullTask mount p fun cause =>
    "from " ++ p.peerId ++ " " ++ atChunk p.chunk.blob p.chunk.offset cause

/-- `Silent-loss detection`: chunks that are neither fetched nor reported. -/
def reportLoss (assigned fetched : Nat) (errors : List String) : List String :=
  let reported := errors.length
  let accounted := saturatingAdd fetched reported
  if accounted < assigned then
    let lost := assigned - accounted
    errors ++ [
      s!"silent loss: assigned={assigned} fetched={fetched} reported_errors={reported} lost={lost}"]
  else errors

def runBroadcastShard (req : BroadcastShardRequest) : WorkerM BroadcastShardResponse := do
  match cfg.mounts.get? req.mount with
  | none => return ⟨0, 0, [unknownMount req.mount], 0⟩
  | some mount =>
      let got ← collect joinError
        ((broadcastPulls cfg.base64Decode req).map (broadcastTask mount))
      awaitInsertsDrained
      return ⟨got.fetched, got.bytes,
        reportLoss (assigned req.sources) got.fetched got.errors, assigned req.sources⟩

/-- The worker address of the previous node, when there is one. -/
def prevWorkerAddr (req : RingStepRequest) : Option (Option Bytes) :=
  match req.prevUcxWorkerAddrB64 with
  | none => some none
  | some encoded => (cfg.base64Decode encoded).map some

def ringTask (mount : MountConfig) (req : RingStepRequest) (workerAddr : Option Bytes)
    (c : ChunkSpec) : Task :=
  pullTask mount ⟨req.prevNodeId, req.prevTransportUrl, workerAddr, c⟩ fun cause =>
    let step := req.step
    s!"step {step} from " ++ req.prevNodeId ++ " " ++ atChunk c.blob c.offset cause

def runRingStep (req : RingStepRequest) : WorkerM RingStepResponse := do
  match cfg.mounts.get? req.mount with
  | none => return ⟨0, 0, [unknownMount req.mount]⟩
  | some mount =>
      match prevWorkerAddr cfg req with
      | none => return ⟨0, 0, [badWorkerAddr]⟩
      | some workerAddr =>
          let step := req.step
          let got ← collect s!"step {step} {joinError}"
            (req.chunks.map (ringTask mount req workerAddr))
          awaitInsertsDrained
          return ⟨got.fetched, got.bytes, got.errors⟩

def body : Job → WorkerM Val
  | .runShard req => do return .shard (← runShard cfg req)
  | .runBroadcastShard req => do return .broadcastShard (← runBroadcastShard cfg req)
  | .runRingStep req => do return .ringStep (← runRingStep cfg req)

def workers : Extension (Node.machine cfg) effect where
  exec _ o _ s := exec o s
  body := body cfg
  cancellable _ p :=
    match p with
    | .ret _ => false
    | _ => true

/-- The node with its workers. -/
def machine : Machine (Node.effect.extend effect) := (Node.machine cfg).extend (workers cfg)

/-- The response of a thread, from the moment it is built. -/
def response (c : Config (machine cfg)) (t : Nat) : Option Val :=
  match c.threads[t]? with
  | some ⟨_, _, .running (.ret (.inr v))⟩ => some v
  | some ⟨_, _, .done (.inr v)⟩ => some v
  | _ => none

/-- The chunks that a request assigns to the worker. -/
def Job.chunks : Job → List ChunkSpec
  | .runShard req => req.chunks
  | .runBroadcastShard req => req.sources.flatMap (·.chunks)
  | .runRingStep req => req.chunks

def Job.mount : Job → String
  | .runShard req => req.mount
  | .runBroadcastShard req => req.mount
  | .runRingStep req => req.mount

/-- The keys of the chunks that are assigned. -/
def Job.assigned (j : Job) : List ChunkKey :=
  match cfg.mounts.get? j.mount with
  | none => []
  | some mount => j.chunks.map fun c => ⟨mount.name, c.blob, c.offset⟩

end Hydrate

end BlobCache

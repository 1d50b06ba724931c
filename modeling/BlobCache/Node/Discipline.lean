import BlobCache.Conc.Protocol
import BlobCache.Node.Programs

/-!
The discipline that the programs of a node keep to. A thread's local state
says what it is doing with a file, which slot it leads or waits for, and how
far an insert or a rebuild has come. Before an operation the thread has to be
in the right local state; afterwards it may rely on what the operation is
allowed to answer.

What counts as a good value for a key is a parameter, and so is whether the
origin, the disk and the peers may fail. The results about reads, lengths,
races and outcomes are instances of one development.
-/

namespace BlobCache.Node

open Cache Conc

/-- What a thread is doing with a file between two operations. -/
inductive FileUse where
  | idle
  | named (tmp : String)
  | writing (tmp : String) (fd : Nat)
  | written (tmp : String) (fd : Nat) (data : Bytes)
  | renamed (key : ChunkKey) (data : Bytes)
  | reading (key : ChunkKey) (fd : Nat)
  | unlinked (key : ChunkKey)
  deriving DecidableEq

/-- The local state of a thread: the file it works on; the key whose slot it
leads, whether it has asked the origin and what it has handed to
`inflight_writes`; the slot it waits for and what it heard there; the last job
it started, whether an awaited job was lost; for inserts, whether the index
section is done and how far the note is; for rebuilds, the snapshot. -/
structure Loc where
  job : Job
  file : FileUse := .idle
  lead : Option ChunkKey := none
  asked : Bool := false
  stored : Option Bytes := none
  rx : Option (ChunkKey × Nat) := none
  heard : Option (ChunkKey × Nat × Received) := none
  child : Option Nat := none
  lostJoin : Bool := false
  landed : Bool := false
  pushed : Bool := false
  noted : Bool := false
  snap : Option (List ChunkKey) := none
  dead : Bool := false

/-- The length that a request asks for. A chunk that is pushed to the node
brings its own. -/
def Job.expectedLen : Job → Option Nat
  | .fetchChunk _ _ _ expectedLen => some expectedLen
  | .fetchChunkOriginOnly _ _ _ expectedLen => some expectedLen
  | .fetchChunkRange _ _ _ _ _ expectedChunkLen => some expectedChunkLen
  | .servePeerChunk _ expectedLen _ => some expectedLen
  | .pullChunkFromPeerWait _ _ _ expectedLen _ _ _ _ => some expectedLen
  | .chunkTask _ _ _ _ _ chunkLen => some chunkLen
  | .prefetchTask _ _ _ chunkLen => some chunkLen
  | .insertReceivedChunk _ data => some data.length
  | _ => none

/-- What a development about runs assumes: the keys in use, the good values,
which keys with one file name have to share, whether jobs of the network run
at all and which parties may fail. -/
structure Env (cfg : NodeConfig) where
  keys : Set ChunkKey
  good : ChunkKey → Bytes → Prop
  shared : ∀ k ∈ keys, ∀ k' ∈ keys, cfg.disk.nameOf k = cfg.disk.nameOf k' →
    ∀ d, good k' d → good k d
  net : Prop
  originErr : Prop
  peerHit : Prop
  ioErr : Prop

variable {cfg : NodeConfig} (env : Env cfg)

/-- The keys of a file's chunks are in use, with those that a prefetch reaches
when its offset wraps around. -/
def Env.covers (mount : MountConfig) (blob : String) (fileSize : Nat) : Prop :=
  ∀ n, n * cfg.chunkSize % 2 ^ 64 < fileSize →
    (⟨mount.name, blob, n * cfg.chunkSize % 2 ^ 64⟩ : ChunkKey) ∈ env.keys

theorem Env.covers.chunk {mount : MountConfig} {blob : String} {fileSize o : Nat}
    (h : env.covers mount blob fileSize) (hmax : fileSize ≤ u64Max) (ho : o < fileSize)
    (hdvd : cfg.chunkSize ∣ o) : (⟨mount.name, blob, o⟩ : ChunkKey) ∈ env.keys := by
  obtain ⟨n, rfl⟩ := hdvd
  have hwrap : n * cfg.chunkSize % 2 ^ 64 = cfg.chunkSize * n := by
    rw [Nat.mul_comm, Nat.mod_eq_of_lt]
    simp only [u64Max] at hmax
    omega
  rw [← hwrap] at ho ⊢
  exact h n ho

def Env.jobOk : Job → Prop
  | .tryGet key | .tryGetRange key _ _ | .tryGetIntoSlice key _ | .remove key => key ∈ env.keys
  | .insert key data => key ∈ env.keys ∧ env.good key data
  | .reconcileWithDisk | .clearAll | .externalLoss _ | .rebuildWork | .bloomRebuildTick => True
  | .fetchChunk mount blob offset _ | .fetchChunkOriginOnly mount blob offset _
  | .fetchChunkRange mount blob offset _ _ _ | .pullChunkFromPeerWait mount blob offset _ _ _ _ _
  | .chunkTask mount blob offset _ _ _ | .prefetchTask mount blob offset _ =>
      env.net ∧ (⟨mount.name, blob, offset⟩ : ChunkKey) ∈ env.keys
  | .servePeerChunk key _ _ => env.net ∧ key ∈ env.keys
  | .fetchRange mount blob _ _ fileSize =>
      env.net ∧ 0 < cfg.chunkSize ∧ fileSize ≤ u64Max ∧ env.covers mount blob fileSize
  | .insertTask key data | .insertReceivedChunk key data => key ∈ env.keys ∧ env.good key data
  | .clearLocalState => True

/-- A good value of another length than the one asked for. -/
def Env.wrongLen (key : ChunkKey) (expectedLen : Nat) : Prop :=
  ∃ d, env.good key d ∧ d.length ≠ expectedLen

/-- Why a fetch of `key` may have failed. -/
def Env.blame (l : Loc) (key : ChunkKey) (expectedLen : Nat) : Prop :=
  env.originErr ∨ env.wrongLen key expectedLen ∨ l.lostJoin = true ∨
    ∃ i r, l.heard = some (key, i, r) ∧ r.failed = true

/-- Between two requests a thread holds nothing. -/
structure Loc.Quiet (l : Loc) : Prop where
  file : l.file = .idle
  lead : l.lead = none
  rx : l.rx = none

/-- What a read of a range returns: nothing when nothing is asked for, else a
part of a good value. -/
def Env.partOf (key : ChunkKey) (offset len : Nat) (b : Bytes) : Prop :=
  ∃ d, env.good key d ∧ offset + len ≤ d.length ∧ b = slice d offset (offset + len)

def Env.rangeOk (key : ChunkKey) (offset len : Nat) (b : Bytes) : Prop :=
  (len = 0 ∧ b = []) ∨ env.partOf key offset len b

def Env.fetchedOk (l : Loc) (key : ChunkKey) (expectedLen : Nat) : Fetched → Prop
  | .ok d => env.good key d ∧ d.length = expectedLen
  | .error _ => env.blame l key expectedLen

/-- The result of `fetch_chunk_range`. It fails for a good chunk only when the
slice lies outside. -/
def Env.slicedOk (l : Loc) (key : ChunkKey) (offset len expectedLen : Nat) : Fetched → Prop
  | .ok b => env.rangeOk key offset len b
  | .error _ =>
      env.blame l key expectedLen ∨
        ∃ d, env.good key d ∧ d.length = expectedLen ∧ d.length < offset + len

/-- The result of `fetch_range` is put together from one good piece for each
chunk that the range meets. -/
def Env.piecesOk (mount : MountConfig) (blob : String) (offset stop fileSize : Nat)
    (out : Bytes) : Prop :=
  ∃ pieces : List (Nat × Bytes), out = pieces.flatMap Prod.snd ∧
    pieces.map Prod.fst = rangeOffsets cfg offset stop ∧
    ∀ o b, (o, b) ∈ pieces →
      env.rangeOk ⟨mount.name, blob, o⟩ (takeStart offset o)
        (takeLen cfg offset stop fileSize o) b

/-- What a job's value is worth. -/
def Env.valueOk (l : Loc) : Job → Val → Prop
  | .tryGet key, v => ∃ r, v = .cached r ∧ ∀ d, r = some d → env.good key d
  | .tryGetRange key offset len, v =>
      ∃ r, v = .cached r ∧ ∀ b, r = some b → env.rangeOk key offset len b
  | .tryGetIntoSlice key dstLen, v =>
      ∃ r, v = .filled r ∧ ∀ n b, r = some (n, b) → n = dstLen ∧ env.partOf key 0 dstLen b
  | .insert _ _, v => v = .done (.ok ()) ∧ l.landed = true ∨ ∃ e, v = .done (.error e) ∧ env.ioErr
  | .fetchChunk mount blob offset expectedLen, v
  | .fetchChunkOriginOnly mount blob offset expectedLen, v =>
      ∃ r, v = .fetched r ∧ env.fetchedOk l ⟨mount.name, blob, offset⟩ expectedLen r
  | .pullChunkFromPeerWait mount blob offset expectedLen _ _ _ _, v =>
      ∃ r, v = .fetched r ∧
        ∀ d, r = .ok d → env.good ⟨mount.name, blob, offset⟩ d ∧ d.length = expectedLen
  | .fetchChunkRange mount blob offset subOffset subLen expectedLen, v =>
      ∃ r, v = .fetched r ∧
        env.slicedOk l ⟨mount.name, blob, offset⟩ subOffset subLen expectedLen r
  | .chunkTask mount blob offset takeStart subLen _, v =>
      ∃ r, v = .chunk r ∧ ∀ o b, r = .ok (o, b) →
        o = offset ∧ env.rangeOk ⟨mount.name, blob, offset⟩ takeStart subLen b
  | .servePeerChunk key expectedLen _, v =>
      ∃ r, v = .served r ∧
        match r with
        | some d => env.good key d ∧ d.length = expectedLen
        | none => env.blame l key expectedLen ∨ cfg.mounts.get? key.mount = none
  | .fetchRange mount blob offset length fileSize, v =>
      ∃ r, v = .fetched r ∧ ∀ out, r = .ok out →
        let stop := min (saturatingAdd offset length) fileSize
        (length = 0 ∨ stop ≤ offset) ∧ out = [] ∨
          offset < stop ∧ env.piecesOk mount blob offset stop fileSize out
  | _, _ => True

/-- Jobs that remove files by name. -/
def Job.sweeps : Job → Bool
  | .clearAll | .clearLocalState | .externalLoss _ => true
  | _ => false

/-- Jobs that drop the entries of missing files. -/
def Job.reconciles : Job → Bool
  | .reconcileWithDisk | .rebuildWork => true
  | _ => false

def diskPre (l : Loc) : DiskOp → Prop
  | .tmpName => l.file = .idle
  | .create tmp => l.file = .named tmp
  | .writeAll fd _ => ∃ tmp, l.file = .writing tmp fd
  | .rename tmp key =>
      ∃ fd data, l.job = .insert key data ∧ l.file = .written tmp fd data ∧
        key ∈ env.keys ∧ env.good key data
  | .insertSection key size =>
      ∃ data, l.job = .insert key data ∧ l.file = .renamed key data ∧ size = data.length ∧
        l.landed = false
  | .openFile key => l.file = .idle ∧ key ∈ env.keys
  | .readToEnd fd | .readExactAt fd _ _ => ∃ key, l.file = .reading key fd
  | .removeFile key => l.file = .idle ∧ l.job = .remove key
  | .removeSection key => l.file = .unlinked key ∧ l.job = .remove key
  | .clearSection | .unlink _ => l.job.sweeps = true
  | .reconcileSection _ => l.job.reconciles = true
  | _ => True

def diskAllows (l : Loc) : (o : DiskOp) → o.Resp → Prop
  | .create _, r => r = none → env.ioErr
  | .writeAll _ _, r | .syncData _, r | .rename _ _, r => r = false → env.ioErr
  | .readToEnd fd, r => ∀ key, l.file = .reading key fd → ∀ d, r = some d → env.good key d
  | .readExactAt fd offset len, r =>
      ∀ key, l.file = .reading key fd → ∀ b, r = some b → env.partOf key offset len b
  | _, _ => True

def diskNext (l : Loc) : (o : DiskOp) → o.Resp → Loc
  | .tmpName, tmp => { l with file := .named tmp }
  | .create tmp, some fd => { l with file := .writing tmp fd }
  | .create _, none => { l with file := .idle }
  | .writeAll fd data, ok =>
      match l.file, ok with
      | .writing tmp _, true => { l with file := .written tmp fd data }
      | _, _ => { l with file := .idle }
  | .syncData _, true => l
  | .syncData _, false => { l with file := .idle }
  | .rename _ key, ok =>
      match l.file, ok with
      | .written _ _ data, true => { l with file := .renamed key data }
      | _, _ => { l with file := .idle }
  | .insertSection _ _, _ => { l with file := .idle, landed := true }
  | .openFile key, some fd => { l with file := .reading key fd }
  | .readToEnd _, _ | .readExactAt _ _ _, _ => { l with file := .idle }
  | .removeFile key, _ => { l with file := .unlinked key }
  | .removeSection _, _ => { l with file := .idle }
  | _, _ => l

def indexPre (cfg : NodeConfig) (l : Loc) : IndexOp → Prop
  | .swapBloom new => ∃ keys, l.snap = some keys ∧ new = PeerIndex.bloomOf cfg.index keys
  | .pushPending digest =>
      ∃ key data, l.job = .insertTask key data ∧ digest = keyDigest cfg.sha256 key ∧
        l.landed = true ∧ l.pushed = false
  | .bloomInsert digest =>
      ∃ key data, l.job = .insertTask key data ∧ digest = keyDigest cfg.sha256 key ∧
        l.pushed = true
  | _ => True

def indexNext (l : Loc) : (o : IndexOp) → o.Resp → Loc
  | .swapBloom _, _ => { l with snap := none }
  | .pushPending _, _ => { l with pushed := true }
  | .bloomInsert _, _ => { l with noted := true }
  | _, _ => l

def fetchPre (l : Loc) : FetchOp → Prop
  | .writesInsert key data | .lruPut key data =>
      env.good key data ∧ key ∈ env.keys ∧ l.job.expectedLen = some data.length
  | .writesRemove key =>
      ∃ data, l.job = .insertTask key data ∧ (l.landed = true ∨ env.ioErr ∨ l.lostJoin = true)
  | .inflightEntry key =>
      l.lead = none ∧ l.rx = none ∧ key ∈ env.keys ∧ l.job.expectedLen ≠ none
  | .recv slot timed =>
      (∃ key, l.rx = some (key, slot)) ∧ (timed = true → ∃ k n w, l.job = .servePeerChunk k n w)
  | .finishLeader key msg =>
      l.lead = some key ∧
        match msg with
        | .ok d => env.good key d ∧ (l.stored = some d ∨ env.peerHit)
        | .error _ =>
            env.originErr ∨ ∃ expectedLen, l.job.expectedLen = some expectedLen ∧
              env.wrongLen key expectedLen
  | .unknownMount key =>
      l.lead = some key ∧ l.asked = false ∧ cfg.mounts.get? key.mount = none
  | .peerFetch req => env.net ∧ req.key ∈ env.keys
  | .getSend key _ => env.net ∧ l.lead = some key ∧ l.asked = false
  | .getRecv key => env.net ∧ l.lead = some key ∧ l.asked = true
  | .writesClear | .lruClear | .inflightClear => l.job = .clearLocalState
  | _ => True

def fetchAllows (l : Loc) : (o : FetchOp) → o.Resp → Prop
  | .writesGet key, r | .lruGet key, r => ∀ d, r = some d → env.good key d
  | .recv slot _, r =>
      ∀ key, l.rx = some (key, slot) → ∀ d, r = .message (.ok d) → env.good key d
  | .peerFetch req, r => ∀ d, r = .ok d → env.good req.key d ∧ env.peerHit
  | .getRecv key, r =>
      match r with
      | .ok d => env.good key d
      | .error _ => env.originErr
  | _, _ => True

def fetchNext (l : Loc) : (o : FetchOp) → o.Resp → Loc
  | .inflightEntry key, .leader =>
      { l with lead := some key, asked := false, stored := none }
  | .inflightEntry key, .follower i => { l with rx := some (key, i) }
  | .recv i _, r => { l with rx := none, heard := l.rx.map fun x => (x.1, i, r) }
  | .finishLeader _ _, _ | .unknownMount _, _ => { l with lead := none }
  | .getSend _ _, _ => { l with asked := true }
  | .writesInsert _ data, _ => { l with stored := some data }
  | _, _ => l

/-- The operation after which an insert counts as done. -/
def lands : DiskOp → Bool
  | .insertSection _ _ => true
  | _ => false

theorem diskNext_landed (l : Loc) (o : DiskOp) (r : o.Resp) :
    (diskNext l o r).landed = (l.landed || lands o) := by
  cases o with
  | insertSection key size => simp [diskNext, lands]
  | create name | syncData fd | openFile key => cases r <;> simp [diskNext, lands]
  | writeAll fd data | rename tmp key =>
      simp only [diskNext, lands, Bool.or_false]
      split <;> rfl
  | _ => simp [diskNext, lands]

theorem diskNext_eq (l : Loc) (o : DiskOp) (r : o.Resp) :
    ∃ file, diskNext l o r = { l with file := file, landed := l.landed || lands o } := by
  refine ⟨(diskNext l o r).file, ?_⟩
  rw [← diskNext_landed l o r]
  unfold diskNext
  split <;> try rfl
  all_goals split <;> rfl

theorem indexNext_eq (l : Loc) (o : IndexOp) (r : o.Resp) :
    ∃ snap pushed noted,
      indexNext l o r = { l with snap := snap, pushed := pushed, noted := noted } := by
  refine ⟨(indexNext l o r).snap, (indexNext l o r).pushed, (indexNext l o r).noted, ?_⟩
  unfold indexNext
  split <;> rfl

theorem fetchNext_eq (l : Loc) (o : FetchOp) (r : o.Resp) :
    ∃ lead asked stored rx heard, fetchNext l o r =
      { l with lead := lead, asked := asked, stored := stored, rx := rx, heard := heard } := by
  refine ⟨(fetchNext l o r).lead, (fetchNext l o r).asked, (fetchNext l o r).stored,
    (fetchNext l o r).rx, (fetchNext l o r).heard, ?_⟩
  unfold fetchNext
  split <;> rfl

/-- Which jobs a thread may start. A wrong cached chunk is removed, a stored
one inserted; tasks come from the requests they belong to. -/
def Env.spawnPre (l : Loc) : Job → Prop
  | .tryGet _ | .tryGetRange _ _ _ => l.job.expectedLen ≠ none
  | .remove key => ∃ n, l.job.expectedLen = some n ∧ env.wrongLen key n
  | .insertTask _ data => l.job.expectedLen = some data.length ∧ l.stored = some data
  | .insert key data => l.job = .insertTask key data ∧ l.child = none ∧ l.landed = false
  | .chunkTask mount blob o start len chunkLen =>
      ∃ offset length fileSize, l.job = .fetchRange mount blob offset length fileSize ∧
        chunkTaskAt cfg mount blob offset (min (saturatingAdd offset length) fileSize)
          fileSize o = .chunkTask mount blob o start len chunkLen
  | .prefetchTask mount blob _ _ =>
      ∃ offset length fileSize, l.job = .fetchRange mount blob offset length fileSize
  | .rebuildWork => l.job = .bloomRebuildTick
  | _ => False

def Loc.spawned (l : Loc) (h : Handle effect) : Loc := { l with child := some h.tid }

/-- A thread that has waited for its child knows whether the insert landed, and
whether a blocking job was lost. -/
def Loc.joined (l : Loc) (h : Handle effect) (r : Option Val) : Loc :=
  { l with
    landed := l.landed || (decide (l.child = some h.tid) && decide (r = some (.done (.ok ()))))
    lostJoin := l.lostJoin || (r.isNone && !Job.async h.job) }

/-- The discipline as a protocol of the machine. -/
def discipline : Protocol (machine cfg) where
  Local := Loc
  init j := { job := j }
  jobOk := env.jobOk
  pre l o :=
    match o with
    | .disk o => diskPre env l o
    | .index o => indexPre cfg l o
    | .fetch o => fetchPre env l o
    | .snapshotKeys => l.snap = none
  allows l o r :=
    match o, r with
    | .disk o, r => diskAllows env l o r
    | .fetch o, r => fetchAllows env l o r
    | .index _, _ | .snapshotKeys, _ => True
  next l o r :=
    match o, r with
    | .disk o, r => diskNext l o r
    | .index o, r => indexNext l o r
    | .fetch o, r => fetchNext l o r
    | .snapshotKeys, keys => { l with snap := some keys }
  spawnPre := env.spawnPre
  spawned := Loc.spawned
  joined := Loc.joined
  post j v l := l.job = j ∧ l.Quiet ∧ l.snap = none ∧ env.valueOk l j v
  dead l := { l with dead := true, lead := none, rx := none }

/-- An operation changes neither the job of its thread nor the last job that
the thread started nor what became of awaited jobs, and nobody dies of it. -/
theorem discipline_next_frame (l : Loc) (o : Op) (r : o.Resp) :
    Loc.job ((discipline env).next l o r) = l.job ∧
      Loc.child ((discipline env).next l o r) = l.child ∧
      Loc.lostJoin ((discipline env).next l o r) = l.lostJoin ∧
      Loc.dead ((discipline env).next l o r) = l.dead := by
  have hnext : ∃ l', (discipline env).next l o r = l' ∧ l'.job = l.job ∧ l'.child = l.child ∧
      l'.lostJoin = l.lostJoin ∧ l'.dead = l.dead := by
    cases o with
    | disk o =>
        obtain ⟨_, h⟩ := diskNext_eq l o r
        exact ⟨_, h, rfl, rfl, rfl, rfl⟩
    | index o =>
        obtain ⟨_, _, _, h⟩ := indexNext_eq l o r
        exact ⟨_, h, rfl, rfl, rfl, rfl⟩
    | fetch o =>
        obtain ⟨_, _, _, _, _, h⟩ := fetchNext_eq l o r
        exact ⟨_, h, rfl, rfl, rfl, rfl⟩
    | snapshotKeys => exact ⟨_, rfl, rfl, rfl, rfl, rfl⟩
  obtain ⟨l', heq, hframe⟩ := hnext
  rw [heq]
  exact hframe

end BlobCache.Node

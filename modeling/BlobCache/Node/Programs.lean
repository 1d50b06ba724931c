import BlobCache.Node.Effect

/-!
The methods of `DiskCache`, `PeerIndex` and `Fetcher` as programs over the
shared state. Each lock-protected section, each access to a concurrent map,
each call into the file system and each await is one operation; a
`spawn_blocking` closure is a job that the caller starts and waits for.
-/

namespace BlobCache.Node

open Cache Conc

def disk (o : DiskOp) : NodeM o.Resp := Program.perform (E := effect) (.disk o)

def index (o : IndexOp) : NodeM o.Resp := Program.perform (E := effect) (.index o)

def fetch (o : FetchOp) : NodeM o.Resp := Program.perform (E := effect) (.fetch o)

def snapshotKeys : NodeM (List ChunkKey) := Program.perform (E := effect) .snapshotKeys

def spawn (j : Job) : NodeM (Handle effect) := .spawn j .ret

def join (h : Handle effect) : NodeM (Option Val) := .join h .ret

def call (j : Job) : NodeM (Option Val) := Program.call (E := effect) j

/-- `cache.try_get`. -/
def tryGet (key : ChunkKey) : NodeM (Option Bytes) := do
  let tracked : Bool ← disk (.containsKey key)
  if !tracked then
    disk .countMiss
    return none
  else
    match ← disk (.openFile key) with
    | none =>
        disk .countMiss
        return none
    | some fd =>
        match ← disk (.readToEnd fd) with
        | none =>
            disk .countMiss
            return none
        | some data =>
            let touched : Bool ← disk (.touchLru key)
            if !touched then return none
            else
              disk .countHit
              return some data

/-- The common part of `try_get_range` and `try_get_into_slice`: open the file,
read exactly the range, touch the entry. -/
def readRange (key : ChunkKey) (offset len : Nat) : NodeM (Option Bytes) := do
  match ← disk (.openFile key) with
  | none =>
      disk .countMiss
      return none
  | some fd =>
      match ← disk (.readExactAt fd offset len) with
      | none =>
          disk .countMiss
          return none
      | some buf =>
          let touched : Bool ← disk (.touchLru key)
          if !touched then return none
          else
            disk .countHit
            return some buf

def tryGetRange (key : ChunkKey) (rangeOffset rangeLen : Nat) : NodeM (Option Bytes) := do
  if rangeLen = 0 then return some []
  else
    match ← disk (.entrySize key) with
    | none =>
        disk .countMiss
        return none
    | some entrySize =>
        if entrySize < saturatingAdd rangeOffset rangeLen then
          disk .countMiss
          return none
        else readRange key rangeOffset rangeLen

/-- `try_get_into_slice` for a destination of `dstLen` bytes; a hit returns the
entry size and what the destination then holds. -/
def tryGetIntoSlice (key : ChunkKey) (dstLen : Nat) : NodeM (Option (Nat × Bytes)) := do
  match ← disk (.entrySize key) with
  | none =>
      disk .countMiss
      return none
  | some entrySize =>
      if dstLen ≠ entrySize then return none
      else
        match ← readRange key 0 dstLen with
        | none => return none
        | some dst => return some (entrySize, dst)

/-- The error of a failed system call; its text comes from the system. -/
def osError : BcError := .io "os error"

def insert (key : ChunkKey) (data : Bytes) : NodeM (Except BcError Unit) := do
  let tmp : String ← disk .tmpName
  match ← disk (.create tmp) with
  | none => return .error osError
  | some fd =>
      let written : Bool ← disk (.writeAll fd data)
      if !written then return .error osError
      else
        let synced : Bool ← disk (.syncData fd)
        if !synced then return .error osError
        else
          let renamed : Bool ← disk (.rename tmp key)
          if !renamed then return .error osError
          else
            disk (.insertSection key data.length)
            return .ok ()

def remove (key : ChunkKey) : NodeM (Except BcError Unit) := do
  disk (.removeFile key)
  disk (.removeSection key)
  return .ok ()

/-- The keys whose file is not there. -/
def findMissing : List ChunkKey → NodeM (List ChunkKey)
  | [] => return []
  | k :: keys => do
      let there : Bool ← disk (.pathExists k)
      let missing ← findMissing keys
      return if there then missing else k :: missing

def reconcileWithDisk : NodeM (Nat × Nat) := do
  let keys : List ChunkKey ← disk .liveKeys
  let missing ← findMissing keys
  if missing.isEmpty then return (0, 0)
  else
    let counts : Nat × Nat ← disk (.reconcileSection missing)
    disk (.addReconcileDrops counts.1)
    return counts

/-- The sweep of `clear_all` over the directory. -/
def sweep : List String → NodeM Unit
  | [] => return ()
  | name :: names => do
      disk (.unlink name)
      sweep names

def clearAll : NodeM (Except BcError (Nat × Nat)) := do
  let counts : Nat × Nat ← disk .clearSection
  let names : List String ← disk .readDir
  sweep names
  return .ok counts

variable (cfg : NodeConfig)

/-- `note_local_insert`; the version hook stores into the membership. -/
def noteLocalInsert (digest : Digest) : NodeM Unit := do
  index (.pushPending digest)
  let version : Nat ← index (.bloomInsert digest)
  index (.setBloomVersion version)

def rebuildLocalFromCache : NodeM Unit := do
  let keys : List ChunkKey ← snapshotKeys
  let version : Nat ← index (.swapBloom (PeerIndex.bloomOf cfg.index keys))
  index (.setBloomVersion version)

/-- The task of `spawn_insert`. -/
def insertTask (key : ChunkKey) (data : Bytes) : NodeM Unit := do
  match ← call (.insert key data) with
  | some (.done (.ok _)) => noteLocalInsert (keyDigest cfg.sha256 key)
  | some (.done (.error e)) => fetch (.recordInsertFailure key e.text)
  | _ => fetch (.recordInsertFailure key "panic: task panicked")
  fetch (.writesRemove key)

def spawnInsert (key : ChunkKey) (data : Bytes) : NodeM Unit := do
  fetch (.writesInsert key data)
  let _ ← spawn (.insertTask key data)
  return ()

/-- `trim_end_matches('/')`. -/
def trimEndSlashes (s : String) : String :=
  String.ofList (s.toList.reverse.dropWhile (· == '/')).reverse

def realPath (mount : MountConfig) (blob : String) : String :=
  if mount.pathPrefix.isEmpty then blob
  else trimEndSlashes mount.pathPrefix ++ "/" ++ blob

/-- `fetch_blob_direct`, and word for word the second half of `do_fetch`. -/
def fetchBlobDirect (mount : MountConfig) (blob : String) (key : ChunkKey)
    (expectedLen : Nat) : NodeM Fetched := do
  fetch (.getSend key
    ⟨mount.name, mount.account, mount.container, realPath mount blob, key.offset,
      cfg.chunkSize⟩)
  match ← fetch (.getRecv key) with
  | .error e => return .error e
  | .ok data =>
      if data.length ≠ expectedLen then
        let got := data.length
        let offset := key.offset
        return .error (.other
          s!"blob returned wrong length: got {got} want {expectedLen} for {blob}@{offset}")
      else
        spawnInsert key data
        fetch (.noteFetchOrigin key.mount key.blob true)
        return .ok data

/-- `try_peer_fetch` once the worker address is known. -/
def askPeer (peer : NodeInfo) (workerAddr : Option Bytes) (key : ChunkKey)
    (expectedLen : Nat) (wasYes : Bool) (waitMs : Nat) : NodeM (Option Bytes) := do
  match ← fetch (.peerFetch
    ⟨peer.id, peer.transportUrl, workerAddr, key, expectedLen % 2 ^ 32, waitMs⟩) with
  | .ok data =>
      if data.length ≠ expectedLen then return none
      else
        if cfg.cacheOnPeerFetch then spawnInsert key data else fetch (.lruPut key data)
        fetch (.noteFetchOrigin key.mount key.blob false)
        return some data
  | .error (.notFound _) =>
      if wasYes then index (.dropRemote peer.id)
      return none
  | .error _ => return none

def tryPeerFetch (peer : NodeInfo) (key : ChunkKey) (expectedLen : Nat) (wasYes : Bool)
    (waitMs : Nat) : NodeM (Option Bytes) :=
  match peer.ucxWorkerAddrB64 with
  | some encoded =>
      match cfg.base64Decode encoded with
      | none => return none
      | some decoded => askPeer cfg peer (some decoded) key expectedLen wasYes waitMs
  | none =>
      if cfg.rdma then return none else askPeer cfg peer none key expectedLen wasYes waitMs

/-- The loop of `do_fetch` over the candidates, each with whether it is of the
yes-set. -/
def tryPeers (key : ChunkKey) (expectedLen : Nat) :
    List (NodeInfo × Bool) → NodeM (Option Bytes)
  | [] => return none
  | (peer, wasYes) :: peers => do
      match ← tryPeerFetch cfg peer key expectedLen wasYes 0 with
      | some data => return some data
      | none => tryPeers key expectedLen peers

/-- The stampede-leader step of `do_fetch`. -/
def askStampedeLeader (key : ChunkKey) (expectedLen yesCount : Nat) (alive : List NodeInfo) :
    NodeM (Option Bytes) :=
  if yesCount = 0 ∧ 0 < cfg.stampedeWaitMs ∧ alive ≠ [] then
    let topId := hrwTopId cfg.sha256 cfg.meId key alive
    if topId ≠ cfg.meId then
      match alive.find? fun n => n.id = topId with
      | some peer => tryPeerFetch cfg peer key expectedLen false cfg.stampedeWaitMs
      | none => return none
    else return none
  else return none

/-- The first half of `do_fetch`: the peers. -/
def askPeers (key : ChunkKey) (expectedLen : Nat) : NodeM (Option Bytes) := do
  let alive : List NodeInfo ← fetch .membersAlive
  let candidates : CandidateSet ← index (.rankCandidates key alive
    (max cfg.peerMaxYesAttempts 1) (max cfg.peerMaxMaybeAttempts 1))
  match ← tryPeers cfg key expectedLen
    (candidates.yes.map (·, true) ++ candidates.maybe.map (·, false)) with
  | some data => return some data
  | none => askStampedeLeader cfg key expectedLen candidates.yes.length alive

def doFetch (mount : MountConfig) (blob : String) (key : ChunkKey) (expectedLen : Nat)
    (bypassPeers : Bool) : NodeM Fetched := do
  match ← (if bypassPeers then return none else askPeers cfg key expectedLen) with
  | some data => return .ok data
  | none => fetchBlobDirect cfg mount blob key expectedLen

/-- What the leader broadcasts for its own result. -/
def broadcastOf (r : Fetched) : Message :=
  match r with
  | .ok data => .ok data
  | .error e => .error e.text

def leaderDropped : BcError := .other "singleflight leader dropped without result"

/-- A follower whose channel closed looks at the disk once more. -/
def retryFromCache (key : ChunkKey) (expectedLen : Nat) : NodeM Fetched := do
  match ← call (.tryGet key) with
  | some (.cached (some b)) =>
      if b.length = expectedLen then return .ok b else return .error leaderDropped
  | _ => return .error leaderDropped

/-- The follower branch of `fetch_chunk_inner`. -/
def followLeader (key : ChunkKey) (slot expectedLen : Nat) : NodeM Fetched := do
  match ← fetch (.recv slot false) with
  | .message (.ok data) =>
      if data.length ≠ expectedLen then
        let got := data.length
        return .error (.other s!"singleflight result wrong len: got {got} want {expectedLen}")
      else return .ok data
  | .message (.error e) => return .error (.other e)
  | _ => retryFromCache key expectedLen

/-- A value counts as a hit when it has the right length. -/
def ofLength (expectedLen : Nat) (hit : Option Bytes) : Option Bytes :=
  hit.filter fun bytes => bytes.length = expectedLen

def inflightWritesHit (key : ChunkKey) (expectedLen : Nat) : NodeM (Option Bytes) := do
  let hit : Option Bytes ← fetch (.writesGet key)
  return ofLength expectedLen hit

def peerLruHit (key : ChunkKey) (expectedLen : Nat) : NodeM (Option Bytes) := do
  let hit : Option Bytes ← fetch (.lruGet key)
  return ofLength expectedLen hit

def cacheGetJoin : BcError := .other "cache get join: task panicked"

/-- The disk lookup of `fetch_chunk_inner`: a chunk of the wrong length is
removed from the cache and fetched again. -/
def cacheHit (key : ChunkKey) (expectedLen : Nat) : NodeM (Except BcError (Option Bytes)) := do
  match ← call (.tryGet key) with
  | some (.cached (some b)) =>
      if b.length = expectedLen then return .ok (some b)
      else
        let _ ← call (.remove key)
        return .ok none
  | some (.cached none) => return .ok none
  | _ => return .error cacheGetJoin

/-- The leader branch of `fetch_chunk_inner`. -/
def leadFetch (mount : MountConfig) (blob : String) (key : ChunkKey) (expectedLen : Nat)
    (bypassPeers : Bool) : NodeM Fetched := do
  let result ← doFetch cfg mount blob key expectedLen bypassPeers
  fetch (.finishLeader key (broadcastOf result))
  return result

def fetchChunkInner (mount : MountConfig) (blob : String) (offset expectedLen : Nat)
    (bypassPeers : Bool) : NodeM Fetched := do
  let key : ChunkKey := ⟨mount.name, blob, offset⟩
  match ← inflightWritesHit key expectedLen with
  | some bytes => return .ok bytes
  | none =>
      match ← peerLruHit key expectedLen with
      | some bytes => return .ok bytes
      | none =>
          match ← cacheHit key expectedLen with
          | .error e => return .error e
          | .ok (some b) => return .ok b
          | .ok none =>
              match ← fetch (.inflightEntry key) with
              | .follower slot => followLeader key slot expectedLen
              | .leader => leadFetch cfg mount blob key expectedLen bypassPeers

def fetchChunk (mount : MountConfig) (blob : String) (offset expectedLen : Nat) :
    NodeM Fetched :=
  fetchChunkInner cfg mount blob offset expectedLen false

def fetchChunkOriginOnly (mount : MountConfig) (blob : String) (offset expectedLen : Nat) :
    NodeM Fetched :=
  fetchChunkInner cfg mount blob offset expectedLen true

/-- The part of a chunk in memory that a sub-read asks for, when it is there.
The LRU copy also has to be a whole chunk. -/
def subSlice (bytes : Bytes) (subOffset subLen : Nat) : Option Bytes :=
  if subOffset + subLen ≤ bytes.length then some (slice bytes subOffset (subOffset + subLen))
  else none

def inflightWritesSlice (key : ChunkKey) (subOffset subLen : Nat) : NodeM (Option Bytes) := do
  let hit : Option Bytes ← fetch (.writesGet key)
  return hit.bind (subSlice · subOffset subLen)

def peerLruSlice (key : ChunkKey) (subOffset subLen expectedChunkLen : Nat) :
    NodeM (Option Bytes) := do
  let hit : Option Bytes ← fetch (.lruGet key)
  return (ofLength expectedChunkLen hit).bind (subSlice · subOffset subLen)

/-- The slice miss of `fetch_chunk_range_inner`: fetch the whole chunk. -/
def sliceOfFetched (mount : MountConfig) (blob : String)
    (chunkOffset subOffset subLen expectedChunkLen : Nat) : NodeM Fetched := do
  match ← fetchChunkInner cfg mount blob chunkOffset expectedChunkLen false with
  | .error e => return .error e
  | .ok full =>
      match subSlice full subOffset subLen with
      | some b => return .ok b
      | none =>
          let have_ := full.length
          let need := subOffset + subLen
          return .error (.other
            s!"fetched chunk shorter than requested slice: have {have_} need {need}")

def fetchChunkRange (mount : MountConfig) (blob : String)
    (chunkOffset subOffset subLen expectedChunkLen : Nat) : NodeM Fetched := do
  if subLen = 0 then return .ok []
  else
    let key : ChunkKey := ⟨mount.name, blob, chunkOffset⟩
    match ← inflightWritesSlice key subOffset subLen with
    | some b => return .ok b
    | none =>
        match ← peerLruSlice key subOffset subLen expectedChunkLen with
        | some b => return .ok b
        | none =>
            match ← call (.tryGetRange key subOffset subLen) with
            | some (.cached (some b)) => return .ok b
            | some (.cached none) =>
                sliceOfFetched cfg mount blob chunkOffset subOffset subLen expectedChunkLen
            | _ => return .error cacheGetJoin

/-- The follower branch of `serve_peer_chunk`. -/
def followTimed (slot expectedLen : Nat) : NodeM (Option Bytes) := do
  match ← fetch (.recv slot true) with
  | .message (.ok data) => return ofLength expectedLen (some data)
  | _ => return none

/-- The leader branch of `serve_peer_chunk`. -/
def leadServe (key : ChunkKey) (expectedLen : Nat) : NodeM (Option Bytes) := do
  match cfg.mounts.get? key.mount with
  | none =>
      fetch (.unknownMount key)
      return none
  | some mount =>
      let result ← fetchBlobDirect cfg mount key.blob key expectedLen
      fetch (.finishLeader key (broadcastOf result))
      return result.toOption

def enterServe (key : ChunkKey) (expectedLen : Nat) : NodeM (Option Bytes) := do
  match ← fetch (.inflightEntry key) with
  | .follower slot => followTimed slot expectedLen
  | .leader => leadServe cfg key expectedLen

/-- `serve_peer_chunk`. The wait is a timer of the environment, so its length
plays no part. -/
def servePeerChunk (key : ChunkKey) (expectedLen _waitMs : Nat) : NodeM (Option Bytes) := do
  match ← call (.tryGet key) with
  | some (.cached (some b)) =>
      if b.length = expectedLen then return some b else enterServe cfg key expectedLen
  | _ => enterServe cfg key expectedLen

/-- The blob fallback of `pull_chunk_from_peer_wait`. -/
def pullFallback (mount : MountConfig) (blob : String) (offset expectedLen : Nat)
    (peerId : String) : NodeM Fetched := do
  match ← fetchChunkOriginOnly cfg mount blob offset expectedLen with
  | .ok d => return .ok d
  | .error e =>
      let cause := e.text
      return .error (.other
        s!"broadcast peer {peerId} NotFound and blob fallback failed for {blob}@{offset}: {cause}")

/-- `pull_chunk_from_peer_wait` after the cache miss. -/
def pullFromPeer (mount : MountConfig) (blob : String) (offset expectedLen : Nat)
    (peerId transportUrl : String) (workerAddr : Option Bytes) (waitMs : Nat) :
    NodeM Fetched := do
  let key : ChunkKey := ⟨mount.name, blob, offset⟩
  match ← fetch (.peerFetch
    ⟨peerId, transportUrl, workerAddr, key, expectedLen % 2 ^ 32, waitMs⟩) with
  | .error (.notFound _) => pullFallback cfg mount blob offset expectedLen peerId
  | .error e => return .error e
  | .ok data =>
      if data.length ≠ expectedLen then
        let got := data.length
        return .error (.other
          s!"broadcast peer {peerId} returned wrong length: got {got} want {expectedLen} for {blob}@{offset}")
      else
        spawnInsert key data
        return .ok data

/-- The cache is read on the caller's own thread here, not in a blocking job. -/
def pullChunkFromPeerWait (mount : MountConfig) (blob : String) (offset expectedLen : Nat)
    (peerId transportUrl : String) (workerAddr : Option Bytes) (waitMs : Nat) :
    NodeM Fetched := do
  match ← tryGet ⟨mount.name, blob, offset⟩ with
  | some b =>
      if b.length = expectedLen then return .ok b
      else pullFromPeer cfg mount blob offset expectedLen peerId transportUrl workerAddr waitMs
  | none =>
      pullFromPeer cfg mount blob offset expectedLen peerId transportUrl workerAddr waitMs

/-- The loop of `maybe_trigger_prefetch`. -/
def prefetchLoop (mount : MountConfig) (blob : String) (curChunk fileSize : Nat) :
    List Nat → NodeM Unit
  | [] => return ()
  | i :: rest => do
      -- wraps around like any unchecked `u64` addition of a release build
      let off := (curChunk + i * cfg.chunkSize) % 2 ^ 64
      if fileSize ≤ off then return ()
      else
        let ck : ChunkKey := ⟨mount.name, blob, off⟩
        let cached : Option Nat ← disk (.entrySize ck)
        if cached.isSome then prefetchLoop mount blob curChunk fileSize rest
        else
          let writing : Option Bytes ← fetch (.writesGet ck)
          if writing.isSome then prefetchLoop mount blob curChunk fileSize rest
          else
            let inflight : Bool ← fetch (.inflightContains ck)
            if inflight then prefetchLoop mount blob curChunk fileSize rest
            else
              let _ ← spawn (.prefetchTask mount blob off (min cfg.chunkSize (fileSize - off)))
              prefetchLoop mount blob curChunk fileSize rest

def maybeTriggerPrefetch (mount : MountConfig) (blob : String)
    (reqOffset reqEnd fileSize : Nat) : NodeM Unit := do
  if cfg.prefetchDepth = 0 then return ()
  else
    let streaks : Nat × Nat ← fetch (.trackRead mount.name blob reqOffset reqEnd cfg.chunkSize)
    if streaks.1 < max cfg.prefetchThreshold 1 then return ()
    else if cfg.prefetchOriginOnly ∧ streaks.2 = 0 then return ()
    else
      let curChunk := if reqEnd = 0 then 0 else (reqEnd - 1) / cfg.chunkSize * cfg.chunkSize
      prefetchLoop cfg mount blob curChunk fileSize
        ((List.range cfg.prefetchDepth).map (· + 1))

def prefetchTask (mount : MountConfig) (blob : String) (off chunkLen : Nat) : NodeM Unit := do
  let _ ← fetchChunkInner cfg mount blob off chunkLen cfg.prefetchOriginOnly
  return ()

def maxReadBytes : Nat := 64 * 1024 * 1024

/-- The loop of `fetch_range` over the chunk offsets; it stops when the offset
would overflow. -/
def chunkOffsets (chunkSize lastChunk : Nat) : Nat → Nat → List Nat
  | 0, _ => []
  | fuel + 1, o =>
      if o ≤ lastChunk then
        o :: match checkedAdd o chunkSize with
          | some n => chunkOffsets chunkSize lastChunk fuel n
          | none => []
      else []

def rangeOffsets (offset stop : Nat) : List Nat :=
  let firstChunk := offset / cfg.chunkSize * cfg.chunkSize
  let lastChunk := (stop - 1) / cfg.chunkSize * cfg.chunkSize
  chunkOffsets cfg.chunkSize lastChunk ((lastChunk - firstChunk) / cfg.chunkSize + 1) firstChunk

/-- What the task for the chunk at `o` takes of it: where it starts and how
much it is. -/
def takeStart (offset o : Nat) : Nat := max offset o - o

def takeLen (offset stop fileSize o : Nat) : Nat :=
  min stop (o + min cfg.chunkSize (fileSize - o)) - o - takeStart offset o

def chunkTaskAt (mount : MountConfig) (blob : String) (offset stop fileSize o : Nat) : Job :=
  .chunkTask mount blob o (takeStart offset o) (takeLen cfg offset stop fileSize o)
    (min cfg.chunkSize (fileSize - o))

def spawnAll : List Job → NodeM (List (Handle effect))
  | [] => return []
  | j :: jobs => do
      let h ← spawn j
      let hs ← spawnAll jobs
      return h :: hs

/-- Await the tasks in order; the first error is returned at once. -/
def joinChunks : List (Handle effect) → NodeM (Except BcError (List (Nat × Bytes)))
  | [] => return .ok []
  | h :: hs => do
      match ← join h with
      | some (.chunk (.ok c)) =>
          match ← joinChunks hs with
          | .ok cs => return .ok (c :: cs)
          | .error e => return .error e
      | some (.chunk (.error e)) => return .error e
      | _ => return .error (.other "join: task panicked")

/-- The chunks in order of their offset, put together. -/
def assemble (chunks : List (Nat × Bytes)) : Bytes :=
  match chunks.insertionSort fun a b => a.1 ≤ b.1 with
  | [c] => c.2
  | sorted => sorted.flatMap Prod.snd

def fetchRange (mount : MountConfig) (blob : String) (offset length fileSize : Nat) :
    NodeM Fetched := do
  if length = 0 then return .ok []
  else if maxReadBytes < length then
    return .error (.other s!"read length {length} exceeds MAX_READ_BYTES {maxReadBytes}")
  else
    let stop := min (saturatingAdd offset length) fileSize
    if stop ≤ offset then return .ok []
    else
      maybeTriggerPrefetch cfg mount blob offset stop fileSize
      let tasks ← spawnAll
        ((rangeOffsets cfg offset stop).map (chunkTaskAt cfg mount blob offset stop fileSize))
      match ← joinChunks tasks with
      | .error e => return .error e
      | .ok chunks => return .ok (assemble chunks)

def chunkTask (mount : MountConfig) (blob : String)
    (chunkOffset takeStart subLen chunkLen : Nat) : NodeM (Except BcError (Nat × Bytes)) := do
  match ← fetchChunkRange cfg mount blob chunkOffset takeStart subLen chunkLen with
  | .ok b => return .ok (chunkOffset, b)
  | .error e => return .error e

/-- The closure of the rebuild loop. -/
def rebuildWork : NodeM Nat := do
  let _ ← reconcileWithDisk
  rebuildLocalFromCache cfg
  let version : Nat ← index .localVersion
  return version

/-- One turn of `run_bloom_rebuild_loop`. -/
def bloomRebuildTick : NodeM Unit := do
  match ← call .rebuildWork with
  | some (.version v) => index (.setBloomVersion v)
  | _ => return ()

def clearLocalState : NodeM (Except BcError (Nat × Nat)) := do
  fetch .waitDrained
  match ← clearAll with
  | .error e => return .error e
  | .ok counts =>
      fetch .inflightClear
      fetch .writesClear
      fetch .seqClear
      fetch .lruClear
      rebuildLocalFromCache cfg
      return .ok counts

def body : Job → NodeM Val
  | .tryGet key => do return .cached (← tryGet key)
  | .tryGetRange key rangeOffset rangeLen => do
      return .cached (← tryGetRange key rangeOffset rangeLen)
  | .tryGetIntoSlice key dstLen => do return .filled (← tryGetIntoSlice key dstLen)
  | .insert key data => do return .done (← insert key data)
  | .remove key => do return .done (← remove key)
  | .reconcileWithDisk => do
      let counts ← reconcileWithDisk
      return .reconciled counts.1 counts.2
  | .clearAll => do return .cleared (← clearAll)
  | .externalLoss name => do
      disk (.unlink name)
      return .unit
  | .fetchChunk mount blob offset expectedLen => do
      return .fetched (← fetchChunk cfg mount blob offset expectedLen)
  | .fetchChunkOriginOnly mount blob offset expectedLen => do
      return .fetched (← fetchChunkOriginOnly cfg mount blob offset expectedLen)
  | .fetchChunkRange mount blob chunkOffset subOffset subLen expectedChunkLen => do
      return .fetched
        (← fetchChunkRange cfg mount blob chunkOffset subOffset subLen expectedChunkLen)
  | .servePeerChunk key expectedLen waitMs => do
      return .served (← servePeerChunk cfg key expectedLen waitMs)
  | .pullChunkFromPeerWait mount blob offset expectedLen peerId url addr waitMs => do
      return .fetched
        (← pullChunkFromPeerWait cfg mount blob offset expectedLen peerId url addr waitMs)
  | .fetchRange mount blob offset length fileSize => do
      return .fetched (← fetchRange cfg mount blob offset length fileSize)
  | .chunkTask mount blob chunkOffset takeStart subLen chunkLen => do
      return .chunk (← chunkTask cfg mount blob chunkOffset takeStart subLen chunkLen)
  | .prefetchTask mount blob off chunkLen => do
      prefetchTask cfg mount blob off chunkLen
      return .unit
  | .insertTask key data => do
      insertTask cfg key data
      return .unit
  | .insertReceivedChunk key data => do
      spawnInsert key data
      return .unit
  | .rebuildWork => do return .version (← rebuildWork cfg)
  | .bloomRebuildTick => do
      bloomRebuildTick
      return .unit
  | .clearLocalState => do return .cleared (← clearLocalState cfg)

/-- Tasks and closures that only the node itself starts. -/
def Job.external : Job → Bool
  | .chunkTask .. | .prefetchTask .. | .insertTask .. | .rebuildWork => false
  | _ => true

/-- Jobs that are futures, which can be dropped. -/
def Job.async : Job → Bool
  | .fetchChunk .. | .fetchChunkOriginOnly .. | .fetchChunkRange .. | .servePeerChunk ..
  | .pullChunkFromPeerWait .. | .fetchRange .. | .chunkTask .. | .prefetchTask ..
  | .clearLocalState => true
  | _ => false

/-- A future is dropped only while it is suspended at an await. -/
def atAwait : Program effect Val → Bool
  | .op (.fetch (.recv _ _)) _ => true
  | .op (.fetch (.peerFetch _)) _ => true
  | .op (.fetch (.getRecv _)) _ => true
  | .op (.fetch .waitDrained) _ => true
  | .join _ _ => true
  | _ => false

/-- The node as a machine. Dropping a future drops its guard. -/
def machine : Machine effect where
  State := State
  Choice := Choice
  exec := exec cfg
  body := body cfg
  external := Job.external
  cancellable j p := j.async && atAwait p
  onCancel t s := { s with fetch := s.fetch.dropGuard t }

variable {cfg}

/-- What every operation of the disk cache preserves holds in every state that any
run reaches. -/
theorem disk_inv_reach {P : Disk → Prop}
    (hexec : ∀ d t c o, P d → P (d.exec cfg.disk t c o).2) (hopened : P .opened)
    {G : State → Event (machine cfg) → Prop} {c : Config (machine cfg)}
    (hrun : Config.Reach G (.init (State.new cfg)) c) : P c.state.disk := by
  refine Config.Reach.state_inv (P := fun s : State => P s.disk) ?_ ?_ ?_ hrun
  · intro s t o ch r s' hs hex
    change exec cfg t o ch s = some (r, s') at hex
    cases o with
    | disk o =>
        have hnext := hexec s.disk t ch.disk o hs
        rw [(exec_disk hex).1] at hnext
        exact hnext
    | index o =>
        rw [(exec_index hex).2.1]
        exact hs
    | fetch o =>
        rw [(exec_fetch hex).2.1]
        exact hs
    | snapshotKeys =>
        rw [(exec_snapshotKeys hex).2.1]
        exact hs
  · intro s t hs
    exact hs
  · exact hopened

end BlobCache.Node

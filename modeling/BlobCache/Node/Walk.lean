import BlobCache.Node.Programs

/-!
The programs of the node, walked through once, for any property of programs that
goes with their text: it holds of a sequence when it holds of the parts, and of every
operation that is routine. What has to be said about the places that are not routine
(a slot of the singleflight map is taken or left, a chunk is handed to its insert, a
peer is asked, the filter changes) are the fields of the structures; what follows is
that every job has the property. The insert of a chunk itself is left to those who
use the walk.
-/

namespace BlobCache.Node

open Cache Conc

/-- Operations that neither change the filter, nor take a slot, nor ask a peer. -/
def Op.plain : Op → Bool
  | .index (.swapBloom _) | .index (.bloomInsert _) => false
  | .fetch (.inflightEntry _) | .fetch (.peerFetch _) => false
  | _ => true

/-- Plain operations that leave no slot and do not belong to an insert. -/
def Op.routine : Op → Bool
  | .fetch (.writesInsert ..) | .fetch (.writesRemove _) | .fetch (.finishLeader ..) => false
  | o => o.plain

/-- Jobs that ask no peer. -/
def Job.quiet : Job → Bool
  | .fetchChunk .. | .fetchChunkOriginOnly .. | .fetchChunkRange ..
  | .pullChunkFromPeerWait .. | .fetchRange .. | .chunkTask .. | .prefetchTask .. => false
  | _ => true

def Job.pulls : Job → Bool
  | .pullChunkFromPeerWait .. => true
  | _ => false

/-- The task of `spawn_insert`. -/
def Job.isInsertTask : Job → Bool
  | .insertTask .. => true
  | _ => false

theorem Op.plain_of_routine {o : Op} (h : o.routine = true) : o.plain = true := by
  cases o with
  | fetch o =>
      cases o with
      | writesInsert _ _ => cases h
      | writesRemove _ => cases h
      | finishLeader _ _ => cases h
      | _ => exact h
  | _ => exact h

/-- A property of programs that follows their text. -/
structure Walk (cfg : NodeConfig) (W : (α : Type) → NodeM α → Prop) : Prop where
  pure : ∀ {α : Type} (a : α), W α (Pure.pure a)
  bind : ∀ {α β : Type} {p : NodeM α} {f : α → NodeM β},
    W α p → (∀ a, W β (f a)) → W β (p >>= f)
  op : ∀ o : Op, o.routine = true → W o.Resp (Program.perform (E := effect) o)
  spawn : ∀ j : Job, j.quiet = true → j.isInsertTask = false → W _ (Node.spawn j)
  join : ∀ h : Handle effect, W _ (Node.join h)
  note : ∀ digest, W _ (noteLocalInsert digest)
  rebuild : W _ (rebuildLocalFromCache cfg)

namespace Walk

variable {cfg : NodeConfig} {W : (α : Type) → NodeM α → Prop} {α : Type}

theorem disk (h : Walk cfg W) {o : DiskOp} {f : o.Resp → NodeM α} (hf : ∀ r, W α (f r)) :
    W α (Node.disk o >>= f) :=
  h.bind (h.op (.disk o) rfl) hf

theorem fetch (h : Walk cfg W) {o : FetchOp} {f : o.Resp → NodeM α}
    (ho : Op.routine (.fetch o) = true) (hf : ∀ r, W α (f r)) : W α (Node.fetch o >>= f) :=
  h.bind (h.op (.fetch o) ho) hf

theorem index (h : Walk cfg W) {o : IndexOp} {f : o.Resp → NodeM α}
    (ho : Op.routine (.index o) = true) (hf : ∀ r, W α (f r)) : W α (Node.index o >>= f) :=
  h.bind (h.op (.index o) ho) hf

theorem call (h : Walk cfg W) {j : Job} {f : Option Val → NodeM α} (hquiet : j.quiet = true)
    (htask : j.isInsertTask = false) (hf : ∀ v, W α (f v)) : W α (Node.call j >>= f) :=
  h.bind (h.bind (h.spawn j hquiet htask) h.join) hf

theorem tryGet (h : Walk cfg W) (key : ChunkKey) : W _ (Node.tryGet key) := by
  unfold Node.tryGet
  apply h.disk
  intro tracked
  split
  · exact h.disk fun _ => h.pure _
  · apply h.disk
    intro opened
    split
    · exact h.disk fun _ => h.pure _
    · apply h.disk
      intro read
      split
      · exact h.disk fun _ => h.pure _
      · apply h.disk
        intro touched
        split
        · exact h.pure _
        · exact h.disk fun _ => h.pure _

theorem readRange (h : Walk cfg W) (key : ChunkKey) (offset len : Nat) :
    W _ (Node.readRange key offset len) := by
  unfold Node.readRange
  apply h.disk
  intro opened
  split
  · exact h.disk fun _ => h.pure _
  · apply h.disk
    intro read
    split
    · exact h.disk fun _ => h.pure _
    · apply h.disk
      intro touched
      split
      · exact h.pure _
      · exact h.disk fun _ => h.pure _

theorem tryGetRange (h : Walk cfg W) (key : ChunkKey) (rangeOffset rangeLen : Nat) :
    W _ (Node.tryGetRange key rangeOffset rangeLen) := by
  unfold Node.tryGetRange
  split
  · exact h.pure _
  · apply h.disk
    intro size
    split
    · exact h.disk fun _ => h.pure _
    · split
      · exact h.disk fun _ => h.pure _
      · exact h.readRange key rangeOffset rangeLen

theorem tryGetIntoSlice (h : Walk cfg W) (key : ChunkKey) (dstLen : Nat) :
    W _ (Node.tryGetIntoSlice key dstLen) := by
  unfold Node.tryGetIntoSlice
  apply h.disk
  intro size
  split
  · exact h.disk fun _ => h.pure _
  · split
    · exact h.pure _
    · apply h.bind (h.readRange key 0 dstLen)
      intro dst
      split <;> exact h.pure _

theorem insert (h : Walk cfg W) (key : ChunkKey) (data : Bytes) :
    W _ (Node.insert key data) := by
  unfold Node.insert
  apply h.disk
  intro tmp
  apply h.disk
  intro created
  split
  · exact h.pure _
  · apply h.disk
    intro written
    split
    · exact h.pure _
    · apply h.disk
      intro synced
      split
      · exact h.pure _
      · apply h.disk
        intro renamed
        split
        · exact h.pure _
        · exact h.disk fun _ => h.pure _

theorem remove (h : Walk cfg W) (key : ChunkKey) : W _ (Node.remove key) :=
  h.disk fun _ => h.disk fun _ => h.pure _

theorem findMissing (h : Walk cfg W) (keys : List ChunkKey) : W _ (Node.findMissing keys) := by
  induction keys with
  | nil => exact h.pure _
  | cons k keys ih => exact h.disk fun _ => h.bind ih fun _ => h.pure _

theorem reconcileWithDisk (h : Walk cfg W) : W _ Node.reconcileWithDisk := by
  unfold Node.reconcileWithDisk
  apply h.disk
  intro keys
  apply h.bind (h.findMissing keys)
  intro missing
  split
  · exact h.pure _
  · exact h.disk fun _ => h.disk fun _ => h.pure _

theorem sweep (h : Walk cfg W) (names : List String) : W _ (Node.sweep names) := by
  induction names with
  | nil => exact h.pure _
  | cons name names ih => exact h.disk fun _ => ih

theorem clearAll (h : Walk cfg W) : W _ Node.clearAll :=
  h.disk fun _ => h.disk fun names =>
    h.bind (h.sweep names) fun _ => h.pure _

theorem rebuildWork (h : Walk cfg W) : W _ (Node.rebuildWork cfg) :=
  h.bind h.reconcileWithDisk fun _ => h.bind h.rebuild fun _ =>
    h.index rfl fun _ => h.pure _

theorem bloomRebuildTick (h : Walk cfg W) : W _ Node.bloomRebuildTick := by
  unfold Node.bloomRebuildTick
  apply h.call rfl rfl
  intro got
  cases got with
  | none => exact h.pure _
  | some v =>
      cases v with
      | version v => exact h.op (.index (.setBloomVersion v)) rfl
      | _ => exact h.pure _

theorem clearLocalState (h : Walk cfg W) : W _ (Node.clearLocalState cfg) := by
  unfold Node.clearLocalState
  apply h.fetch rfl
  intro _
  apply h.bind h.clearAll
  intro cleared
  split
  · exact h.pure _
  · exact h.fetch rfl fun _ => h.fetch rfl fun _ =>
      h.fetch rfl fun _ => h.fetch rfl fun _ =>
        h.bind h.rebuild fun _ => h.pure _

theorem retryFromCache (h : Walk cfg W) (key : ChunkKey) (expectedLen : Nat) :
    W _ (Node.retryFromCache key expectedLen) := by
  unfold Node.retryFromCache
  apply h.call rfl rfl
  intro got
  split
  · split <;> exact h.pure _
  · exact h.pure _

theorem followLeader (h : Walk cfg W) (key : ChunkKey) (slot expectedLen : Nat) :
    W _ (Node.followLeader key slot expectedLen) := by
  unfold Node.followLeader
  apply h.fetch rfl
  intro heard
  split
  · split <;> exact h.pure _
  · exact h.pure _
  · exact h.retryFromCache key expectedLen

theorem followTimed (h : Walk cfg W) (slot expectedLen : Nat) :
    W _ (Node.followTimed slot expectedLen) := by
  unfold Node.followTimed
  apply h.fetch rfl
  intro heard
  split <;> exact h.pure _

theorem cacheHit (h : Walk cfg W) (key : ChunkKey) (expectedLen : Nat) :
    W _ (Node.cacheHit key expectedLen) := by
  unfold Node.cacheHit
  apply h.call rfl rfl
  intro got
  split
  · split
    · exact h.pure _
    · exact h.call rfl rfl fun _ => h.pure _
  · exact h.pure _
  · exact h.pure _

theorem inflightWritesHit (h : Walk cfg W) (key : ChunkKey) (expectedLen : Nat) :
    W _ (Node.inflightWritesHit key expectedLen) :=
  h.fetch rfl fun _ => h.pure _

theorem peerLruHit (h : Walk cfg W) (key : ChunkKey) (expectedLen : Nat) :
    W _ (Node.peerLruHit key expectedLen) :=
  h.fetch rfl fun _ => h.pure _

theorem inflightWritesSlice (h : Walk cfg W) (key : ChunkKey) (subOffset subLen : Nat) :
    W _ (Node.inflightWritesSlice key subOffset subLen) :=
  h.fetch rfl fun _ => h.pure _

theorem peerLruSlice (h : Walk cfg W) (key : ChunkKey)
    (subOffset subLen expectedChunkLen : Nat) :
    W _ (Node.peerLruSlice key subOffset subLen expectedChunkLen) :=
  h.fetch rfl fun _ => h.pure _

theorem joinChunks (h : Walk cfg W) (handles : List (Handle effect)) :
    W _ (Node.joinChunks handles) := by
  induction handles with
  | nil => exact h.pure _
  | cons hd handles ih =>
      unfold Node.joinChunks
      apply h.bind (h.join hd)
      intro got
      split
      · apply h.bind ih
        intro rest
        split <;> exact h.pure _
      · exact h.pure _
      · exact h.pure _

end Walk

/-- A property of everything that a read of a range starts. -/
structure RangeWalk (cfg : NodeConfig) (W : (α : Type) → NodeM α → Prop) : Prop
    extends Walk cfg W where
  started : ∀ j : Job, j.pulls = false → j.isInsertTask = false → W _ (Node.spawn j)

namespace RangeWalk

variable {cfg : NodeConfig} {W : (α : Type) → NodeM α → Prop}

theorem spawnAll (h : RangeWalk cfg W) (jobs : List Job)
    (hjobs : ∀ j ∈ jobs, j.pulls = false ∧ j.isInsertTask = false) : W _ (Node.spawnAll jobs) := by
  induction jobs with
  | nil => exact h.pure _
  | cons j jobs ih =>
      obtain ⟨hpulls, htask⟩ := hjobs j List.mem_cons_self
      exact h.bind (h.started j hpulls htask) fun _ =>
        h.bind (ih fun i hi => hjobs i (List.mem_cons_of_mem _ hi)) fun _ => h.pure _

theorem prefetchLoop (h : RangeWalk cfg W) (mount : MountConfig) (blob : String)
    (curChunk fileSize : Nat) (steps : List Nat) :
    W _ (Node.prefetchLoop cfg mount blob curChunk fileSize steps) := by
  induction steps with
  | nil => exact h.pure _
  | cons i steps ih =>
      unfold Node.prefetchLoop
      dsimp only
      split
      · exact h.pure _
      · apply h.disk
        intro cached
        split
        · exact ih
        · apply h.fetch rfl
          intro writing
          split
          · exact ih
          · apply h.fetch rfl
            intro inflight
            split
            · exact ih
            · exact h.bind (h.started _ rfl rfl) fun _ => ih

theorem maybeTriggerPrefetch (h : RangeWalk cfg W) (mount : MountConfig) (blob : String)
    (reqOffset reqEnd fileSize : Nat) :
    W _ (Node.maybeTriggerPrefetch cfg mount blob reqOffset reqEnd fileSize) := by
  unfold Node.maybeTriggerPrefetch
  split
  · exact h.pure _
  · apply h.fetch rfl
    intro streaks
    split
    · exact h.pure _
    · split
      · exact h.pure _
      · exact h.prefetchLoop mount blob _ fileSize _

theorem fetchRange (h : RangeWalk cfg W) (mount : MountConfig) (blob : String)
    (offset length fileSize : Nat) :
    W _ (Node.fetchRange cfg mount blob offset length fileSize) := by
  unfold Node.fetchRange
  split
  · exact h.pure _
  · split
    · exact h.pure _
    · dsimp only
      split
      · exact h.pure _
      · apply h.bind (h.maybeTriggerPrefetch mount blob _ _ _)
        intro _
        apply h.bind (h.spawnAll _ ?_)
        · intro tasks
          apply h.bind (h.joinChunks tasks)
          intro got
          split <;> exact h.pure _
        · intro j hj
          obtain ⟨o, -, rfl⟩ := List.mem_map.mp hj
          exact ⟨rfl, rfl⟩

end RangeWalk

/-- A property of every program that asks no peer. -/
structure LocalWalk (cfg : NodeConfig) (W : (α : Type) → NodeM α → Prop) : Prop
    extends Walk cfg W where
  stored : ∀ key data, W _ (Node.spawnInsert key data)
  finished : ∀ key message, W _ (Node.fetch (.finishLeader key message))
  served : ∀ (key : ChunkKey) (expectedLen : Nat) (f : Role → NodeM (Option Bytes)),
    f .leader = leadServe cfg key expectedLen → (∀ role, W _ (f role)) →
      W _ (Node.fetch (.inflightEntry key) >>= f)

namespace LocalWalk

variable {cfg : NodeConfig} {W : (α : Type) → NodeM α → Prop}

theorem fetchBlobDirect (h : LocalWalk cfg W) (mount : MountConfig) (blob : String)
    (key : ChunkKey) (expectedLen : Nat) :
    W _ (Node.fetchBlobDirect cfg mount blob key expectedLen) := by
  unfold Node.fetchBlobDirect
  apply h.fetch rfl
  intro _
  apply h.fetch rfl
  intro got
  split
  · exact h.pure _
  · split
    · exact h.pure _
    · exact h.bind (h.stored key _) fun _ => h.fetch rfl fun _ => h.pure _

theorem leadServe (h : LocalWalk cfg W) (key : ChunkKey) (expectedLen : Nat) :
    W _ (Node.leadServe cfg key expectedLen) := by
  unfold Node.leadServe
  split
  · exact h.fetch rfl fun _ => h.pure _
  · apply h.bind (h.fetchBlobDirect _ _ _ _)
    intro result
    exact h.bind (h.finished key (broadcastOf result)) fun _ => h.pure _

theorem enterServe (h : LocalWalk cfg W) (key : ChunkKey) (expectedLen : Nat) :
    W _ (Node.enterServe cfg key expectedLen) := by
  apply h.served key expectedLen _ rfl
  intro role
  cases role with
  | follower slot => exact h.followTimed slot expectedLen
  | leader => exact h.leadServe key expectedLen

theorem servePeerChunk (h : LocalWalk cfg W) (key : ChunkKey) (expectedLen waitMs : Nat) :
    W _ (Node.servePeerChunk cfg key expectedLen waitMs) := by
  unfold Node.servePeerChunk
  apply h.call rfl rfl
  intro got
  split
  · split
    · exact h.pure _
    · exact h.enterServe key expectedLen
  · exact h.enterServe key expectedLen

theorem askPeer (h : LocalWalk cfg W) (peer : NodeInfo) (workerAddr : Option Bytes)
    (key : ChunkKey) (expectedLen : Nat) (wasYes : Bool) (waitMs : Nat)
    (hask : W _ (Node.fetch (.peerFetch
      ⟨peer.id, peer.transportUrl, workerAddr, key, expectedLen % 2 ^ 32, waitMs⟩))) :
    W _ (Node.askPeer cfg peer workerAddr key expectedLen wasYes waitMs) := by
  unfold Node.askPeer
  apply h.bind hask
  intro reply
  cases reply with
  | error e =>
      cases e with
      | notFound _ =>
          dsimp only
          split
          · exact h.index rfl fun _ => h.pure _
          · exact h.pure _
      | _ => exact h.pure _
  | ok data =>
      dsimp only
      split
      · exact h.pure _
      · split
        · exact h.bind (h.stored key data) fun _ => h.fetch rfl fun _ => h.pure _
        · exact h.fetch rfl fun _ => h.fetch rfl fun _ => h.pure _

theorem tryPeerFetch (h : LocalWalk cfg W) (peer : NodeInfo) (key : ChunkKey)
    (expectedLen : Nat) (wasYes : Bool) (waitMs : Nat)
    (hask : ∀ addr, W _ (Node.fetch (.peerFetch
      ⟨peer.id, peer.transportUrl, addr, key, expectedLen % 2 ^ 32, waitMs⟩))) :
    W _ (Node.tryPeerFetch cfg peer key expectedLen wasYes waitMs) := by
  unfold Node.tryPeerFetch
  split
  · split
    · exact h.pure _
    · exact h.askPeer peer _ key expectedLen wasYes waitMs (hask _)
  · split
    · exact h.pure _
    · exact h.askPeer peer none key expectedLen wasYes waitMs (hask none)

/-- The stampede leader, when it may be asked. -/
theorem askStampedeLeader (h : LocalWalk cfg W) (key : ChunkKey) (expectedLen yesCount : Nat)
    (alive : List NodeInfo)
    (hask : ∀ peer ∈ alive, peer.id = hrwTopId cfg.sha256 cfg.meId key alive →
      peer.id ≠ cfg.meId → ∀ addr, W _ (Node.fetch (.peerFetch
        ⟨peer.id, peer.transportUrl, addr, key, expectedLen % 2 ^ 32, cfg.stampedeWaitMs⟩))) :
    W _ (Node.askStampedeLeader cfg key expectedLen yesCount alive) := by
  unfold Node.askStampedeLeader
  split
  · dsimp only
    split
    · rename_i hother
      split
      · rename_i peer hfind
        have htop : peer.id = hrwTopId cfg.sha256 cfg.meId key alive := by
          simpa using List.find?_some hfind
        exact h.tryPeerFetch peer key expectedLen false _
          (hask peer (List.mem_of_find?_eq_some hfind) htop (htop.trans_ne hother))
      · exact h.pure _
    · exact h.pure _
  · exact h.pure _

/-- Every job that asks no peer has the property. -/
theorem body (h : LocalWalk cfg W) (j : Job) (hquiet : j.quiet = true)
    (htask : j.isInsertTask = false) : W _ (Node.body cfg j) := by
  cases j with
  | tryGet key => exact h.bind (h.tryGet key) fun _ => h.pure _
  | tryGetRange key o n => exact h.bind (h.tryGetRange key o n) fun _ => h.pure _
  | tryGetIntoSlice key n => exact h.bind (h.tryGetIntoSlice key n) fun _ => h.pure _
  | insert key data => exact h.bind (h.insert key data) fun _ => h.pure _
  | remove key => exact h.bind (h.remove key) fun _ => h.pure _
  | reconcileWithDisk => exact h.bind h.reconcileWithDisk fun _ => h.pure _
  | clearAll => exact h.bind h.clearAll fun _ => h.pure _
  | externalLoss name => exact h.disk fun _ => h.pure _
  | servePeerChunk key n w => exact h.bind (h.servePeerChunk key n w) fun _ => h.pure _
  | insertReceivedChunk key data => exact h.bind (h.stored key data) fun _ => h.pure _
  | rebuildWork => exact h.bind h.rebuildWork fun _ => h.pure _
  | bloomRebuildTick => exact h.bind h.bloomRebuildTick fun _ => h.pure _
  | clearLocalState => exact h.bind h.clearLocalState fun _ => h.pure _
  | insertTask key data => cases htask
  | _ => cases hquiet

end LocalWalk

/-- A property of every program of the node, where the members that are seen are as `sees`
says and nobody starts a pull that `admits` leaves out. -/
structure NodeWalk (cfg : NodeConfig) (sees : List NodeInfo → Prop) (admits : Job → Prop)
    (W : (α : Type) → NodeM α → Prop) : Prop extends LocalWalk cfg W, RangeWalk cfg W where
  asked : ∀ req : PeerRequest, req.waitMs = 0 → W _ (Node.fetch (.peerFetch req))
  pulled : ∀ (mount : MountConfig) (blob : String) (offset expectedLen : Nat)
    (peerId url : String) (addr : Option Bytes) (waitMs : Nat),
    admits (.pullChunkFromPeerWait mount blob offset expectedLen peerId url addr waitMs) →
      W _ (Node.fetch (.peerFetch
        ⟨peerId, url, addr, ⟨mount.name, blob, offset⟩, expectedLen % 2 ^ 32, waitMs⟩))
  members : ∀ {α : Type} {f : List NodeInfo → NodeM α}, (∀ alive, sees alive → W _ (f alive)) →
    W _ (Node.fetch .membersAlive >>= f)
  leader : ∀ key expectedLen yesCount alive, sees alive →
    W _ (Node.askStampedeLeader cfg key expectedLen yesCount alive)
  led : ∀ (mount : MountConfig) (blob : String) (key : ChunkKey) (expectedLen : Nat)
    (bypassPeers : Bool) (f : Role → NodeM Fetched),
    f .leader = leadFetch cfg mount blob key expectedLen bypassPeers → (∀ role, W _ (f role)) →
      W _ (Node.fetch (.inflightEntry key) >>= f)

namespace NodeWalk

variable {cfg : NodeConfig} {sees : List NodeInfo → Prop} {admits : Job → Prop}
  {W : (α : Type) → NodeM α → Prop}

theorem tryPeers (h : NodeWalk cfg sees admits W) (key : ChunkKey) (expectedLen : Nat)
    (peers : List (NodeInfo × Bool)) : W _ (Node.tryPeers cfg key expectedLen peers) := by
  induction peers with
  | nil => exact h.pure _
  | cons p peers ih =>
      obtain ⟨peer, wasYes⟩ := p
      unfold Node.tryPeers
      apply h.bind (h.tryPeerFetch peer key expectedLen wasYes 0 fun _ => h.asked _ rfl)
      intro got
      cases got with
      | some data => exact h.pure _
      | none => exact ih

theorem askPeers (h : NodeWalk cfg sees admits W) (key : ChunkKey) (expectedLen : Nat) :
    W _ (Node.askPeers cfg key expectedLen) := by
  unfold Node.askPeers
  apply h.members
  intro alive halive
  apply h.index rfl
  intro candidates
  apply h.bind (h.tryPeers key expectedLen _)
  intro got
  cases got with
  | some data => exact h.pure _
  | none => exact h.leader key expectedLen _ alive halive

theorem doFetch (h : NodeWalk cfg sees admits W) (mount : MountConfig) (blob : String)
    (key : ChunkKey) (expectedLen : Nat) (bypassPeers : Bool) :
    W _ (Node.doFetch cfg mount blob key expectedLen bypassPeers) := by
  unfold Node.doFetch
  apply h.bind
  · split
    · exact h.pure _
    · exact h.askPeers key expectedLen
  · intro got
    cases got with
    | some data => exact h.pure _
    | none => exact h.fetchBlobDirect mount blob key expectedLen

theorem leadFetch (h : NodeWalk cfg sees admits W) (mount : MountConfig) (blob : String)
    (key : ChunkKey) (expectedLen : Nat) (bypassPeers : Bool) :
    W _ (Node.leadFetch cfg mount blob key expectedLen bypassPeers) := by
  apply h.bind (h.doFetch mount blob key expectedLen bypassPeers)
  intro result
  exact h.bind (h.finished key (broadcastOf result)) fun _ => h.pure _

theorem fetchChunkInner (h : NodeWalk cfg sees admits W) (mount : MountConfig) (blob : String)
    (offset expectedLen : Nat) (bypassPeers : Bool) :
    W _ (Node.fetchChunkInner cfg mount blob offset expectedLen bypassPeers) := by
  unfold Node.fetchChunkInner
  dsimp only
  apply h.bind (h.inflightWritesHit _ expectedLen)
  intro writing
  split
  · exact h.pure _
  · apply h.bind (h.peerLruHit _ expectedLen)
    intro lru
    split
    · exact h.pure _
    · apply h.bind (h.cacheHit _ expectedLen)
      intro cached
      split
      · exact h.pure _
      · exact h.pure _
      · apply h.led mount blob _ expectedLen bypassPeers _ rfl
        intro role
        cases role with
        | follower slot => exact h.followLeader _ slot expectedLen
        | leader => exact h.leadFetch mount blob _ expectedLen bypassPeers

theorem fetchChunkRange (h : NodeWalk cfg sees admits W) (mount : MountConfig) (blob : String)
    (chunkOffset subOffset subLen expectedChunkLen : Nat) :
    W _ (Node.fetchChunkRange cfg mount blob chunkOffset subOffset subLen expectedChunkLen) := by
  unfold Node.fetchChunkRange
  split
  · exact h.pure _
  · dsimp only
    apply h.bind (h.inflightWritesSlice _ subOffset subLen)
    intro writing
    split
    · exact h.pure _
    · apply h.bind (h.peerLruSlice _ subOffset subLen expectedChunkLen)
      intro lru
      split
      · exact h.pure _
      · apply h.call rfl rfl
        intro cached
        split
        · exact h.pure _
        · unfold sliceOfFetched
          apply h.bind (h.fetchChunkInner mount blob _ _ false)
          intro full
          split
          · exact h.pure _
          · split <;> exact h.pure _
        · exact h.pure _

theorem pullFallback (h : NodeWalk cfg sees admits W) (mount : MountConfig) (blob : String)
    (offset expectedLen : Nat) (peerId : String) :
    W _ (Node.pullFallback cfg mount blob offset expectedLen peerId) := by
  unfold Node.pullFallback
  apply h.bind (h.fetchChunkInner mount blob offset expectedLen true)
  intro got
  split <;> exact h.pure _

theorem pullFromPeer (h : NodeWalk cfg sees admits W) (mount : MountConfig) (blob : String)
    (offset expectedLen : Nat) (peerId url : String) (addr : Option Bytes) (waitMs : Nat)
    (hjob : admits (.pullChunkFromPeerWait mount blob offset expectedLen peerId url addr waitMs)) :
    W _ (Node.pullFromPeer cfg mount blob offset expectedLen peerId url addr waitMs) := by
  unfold Node.pullFromPeer
  dsimp only
  apply h.bind (h.pulled mount blob offset expectedLen peerId url addr waitMs hjob)
  intro reply
  cases reply with
  | error e =>
      cases e with
      | notFound _ => exact h.pullFallback mount blob offset expectedLen peerId
      | _ => exact h.pure _
  | ok data =>
      dsimp only
      split
      · exact h.pure _
      · exact h.bind (h.stored _ data) fun _ => h.pure _

theorem pullChunkFromPeerWait (h : NodeWalk cfg sees admits W) (mount : MountConfig)
    (blob : String) (offset expectedLen : Nat) (peerId url : String) (addr : Option Bytes)
    (waitMs : Nat)
    (hjob : admits (.pullChunkFromPeerWait mount blob offset expectedLen peerId url addr waitMs)) :
    W _ (Node.pullChunkFromPeerWait cfg mount blob offset expectedLen peerId url addr waitMs) := by
  unfold Node.pullChunkFromPeerWait
  have hpull := h.pullFromPeer mount blob offset expectedLen peerId url addr waitMs hjob
  apply h.bind (h.tryGet _)
  intro got
  split
  · split
    · exact h.pure _
    · exact hpull
  · exact hpull

theorem body (h : NodeWalk cfg sees admits W) (j : Job) (hj : admits j)
    (htask : j.isInsertTask = false) : W _ (Node.body cfg j) := by
  cases hquiet : j.quiet with
  | true => exact h.toLocalWalk.body j hquiet htask
  | false =>
      cases j with
      | fetchChunk m b o n => exact h.bind (h.fetchChunkInner m b o n false) fun _ => h.pure _
      | fetchChunkOriginOnly m b o n =>
          exact h.bind (h.fetchChunkInner m b o n true) fun _ => h.pure _
      | fetchChunkRange m b c o l n =>
          exact h.bind (h.fetchChunkRange m b c o l n) fun _ => h.pure _
      | pullChunkFromPeerWait m b o n p u a w =>
          exact h.bind (h.pullChunkFromPeerWait m b o n p u a w hj) fun _ => h.pure _
      | fetchRange m b o l n =>
          exact h.bind (h.toRangeWalk.fetchRange m b o l n) fun _ => h.pure _
      | chunkTask m b c t l n =>
          apply h.bind _ fun _ => h.pure _
          apply h.bind (h.fetchChunkRange m b c t l n)
          intro got
          split <;> exact h.pure _
      | prefetchTask m b o n =>
          exact h.bind (h.bind (h.fetchChunkInner m b o n _) fun _ => h.pure _) fun _ => h.pure _
      | _ => cases hquiet

end NodeWalk

end BlobCache.Node

import BlobCache.PeerIndex

/-!
The shared state of `Fetcher`: the singleflight map with its broadcast
channels, the writes in flight, the byte-bounded LRU of peer chunks and the
sequential-read tracker, with the atomic operations on them.

A channel is a slot of its own, so that it outlives its place in the map.
Taking a slot out of the map and sending its one message are one operation:
they happen without an await in between, nobody can subscribe to a slot that
has left the map, and its sender is dropped right after.

`owner`, `followers` and `closed` of a slot and `gets` of the state are
history. Semaphores and metrics are left out.
-/

namespace BlobCache

inductive BcError where
  | auth (msg : String)
  | http (msg : String)
  | io (msg : String)
  | config (msg : String)
  | invalidUrl (msg : String)
  | xml (msg : String)
  | storage (status : Nat) (msg : String)
  | notFound (msg : String)
  | peer (msg : String)
  | cluster (msg : String)
  | other (msg : String)
  deriving DecidableEq, Repr

def BcError.text : BcError → String
  | .auth msg => s!"auth: {msg}"
  | .http msg => s!"http: {msg}"
  | .io msg => s!"io: {msg}"
  | .config msg => s!"config: {msg}"
  | .invalidUrl msg => s!"invalid url: {msg}"
  | .xml msg => s!"xml: {msg}"
  | .storage status msg => s!"storage {status}: {msg}"
  | .notFound msg => s!"not found: {msg}"
  | .peer msg => s!"peer: {msg}"
  | .cluster msg => s!"cluster: {msg}"
  | .other msg => s!"other: {msg}"

/-- `Result<Bytes>` of the fetch functions. -/
abbrev Fetched := Except BcError Bytes

/-- What a leader broadcasts. -/
abbrev Message := Except String Bytes

structure PeerLru where
  inner : FinMap ChunkKey Bytes
  bytes : Nat
  capBytes : Nat

namespace PeerLru

def new (capBytes : Nat) : PeerLru := ⟨∅, 0, capBytes⟩

/-- A hit moves the entry to the front, which is where `insert` puts it. -/
def get (lru : PeerLru) (key : ChunkKey) : Option Bytes × PeerLru :=
  match lru.inner.get? key with
  | none => (none, lru)
  | some val => (some val, { lru with inner := lru.inner.insert key val })

/-- `pop_lru`: the entry at the back. -/
def popLru (lru : PeerLru) : Option (Bytes × FinMap ChunkKey Bytes) :=
  match lru.inner.keys.getLast? with
  | none => none
  | some key => (lru.inner.get? key).map fun val => (val, lru.inner.erase key)

/-- The loop of `put`; every round takes one entry out. -/
def shrink (lru : PeerLru) : Nat → PeerLru
  | 0 => lru
  | fuel + 1 =>
      if lru.capBytes < lru.bytes then
        match lru.popLru with
        | none => lru
        | some (val, inner) =>
            { lru with inner := inner, bytes := lru.bytes - val.length }.shrink fuel
      else lru

def put (lru : PeerLru) (key : ChunkKey) (val : Bytes) : PeerLru :=
  if lru.capBytes < val.length then lru
  else
    let kept :=
      match lru.inner.get? key with
      | some prev => lru.bytes - prev.length
      | none => lru.bytes
    let next := { lru with
      inner := lru.inner.insert key val, bytes := saturatingAdd kept val.length }
    next.shrink next.inner.keys.length

def clear (lru : PeerLru) : PeerLru := { lru with inner := ∅, bytes := 0 }

theorem get_hit {lru : PeerLru} {key : ChunkKey} {val : Bytes}
    (h : (lru.get key).1 = some val) : lru.inner.get? key = some val := by
  unfold get at h
  split at h
  · cases h
  · rename_i hkey
    rw [hkey]
    exact h

/-- Looking a chunk up changes the order of the entries only. -/
theorem get_get? (lru : PeerLru) (key k : ChunkKey) :
    (lru.get key).2.inner.get? k = lru.inner.get? k := by
  unfold get
  split
  · rfl
  · rename_i val hkey
    simp only [FinMap.get?_insert]
    split
    · rename_i hk
      rw [hk, hkey]
    · rfl

theorem shrink_get? {lru : PeerLru} {fuel : Nat} {k : ChunkKey} {v : Bytes}
    (h : (lru.shrink fuel).inner.get? k = some v) : lru.inner.get? k = some v := by
  induction fuel generalizing lru with
  | zero => exact h
  | succ fuel ih =>
      simp only [shrink] at h
      split at h
      · split at h
        · exact h
        · rename_i val inner hpop
          have hinner := ih h
          unfold popLru at hpop
          split at hpop
          · cases hpop
          · rename_i key _
            cases hkey : lru.inner.get? key with
            | none => simp [hkey] at hpop
            | some w =>
                simp only [hkey, Option.map_some, Option.some.injEq, Prod.mk.injEq] at hpop
                obtain ⟨-, rfl⟩ := hpop
                simp only [FinMap.get?_erase] at hinner
                split at hinner
                · cases hinner
                · exact hinner
      · exact h

/-- After `put` an entry is the new one or was there before. -/
theorem put_get? {lru : PeerLru} {key k : ChunkKey} {val v : Bytes}
    (h : (lru.put key val).inner.get? k = some v) :
    (k = key ∧ v = val) ∨ lru.inner.get? k = some v := by
  unfold put at h
  split at h
  · exact .inr h
  · have hins := shrink_get? h
    simp only [FinMap.get?_insert] at hins
    split at hins
    · rename_i hk
      cases hins
      exact .inl ⟨hk, rfl⟩
    · exact .inr hins

end PeerLru

structure SeqState where
  lastEnd : Nat
  consecutive : Nat
  blobStreak : Nat
  deriving DecidableEq, Repr

/-- How a slot left the singleflight map. -/
inductive Closing where
  | finished (t : Nat)
  | cancelled (t : Nat)
  | unknownMount (t : Nat)
  | cleared
  deriving DecidableEq, Repr

structure Slot where
  key : ChunkKey
  owner : Nat
  followers : List Nat
  sent : List Message
  closed : Option Closing
  deriving DecidableEq

structure MountConfig where
  name : String
  account : String
  container : String
  pathPrefix : String
  deriving DecidableEq, Repr

/-- The arguments of `get_blob_range`. -/
structure BlobRequest where
  mount : String
  account : String
  container : String
  path : String
  offset : Nat
  length : Nat
  deriving DecidableEq, Repr

/-- The arguments of `PeerClient::fetch_chunk`. -/
structure PeerRequest where
  peerId : String
  transportUrl : String
  workerAddr : Option Bytes
  key : ChunkKey
  length : Nat
  waitMs : Nat
  deriving DecidableEq, Repr

structure FetchState where
  inflight : FinMap ChunkKey Nat
  slots : List Slot
  guards : FinMap Nat ChunkKey
  inflightWrites : FinMap ChunkKey Bytes
  peerLru : Option PeerLru
  seqState : FinMap String SeqState
  insertFailures : List (ChunkKey × String)
  gets : List ChunkKey

def FetchState.new (peerLruBytes : Nat) : FetchState :=
  { inflight := ∅
    slots := []
    guards := ∅
    inflightWrites := ∅
    peerLru := if 0 < peerLruBytes then some (.new peerLruBytes) else none
    seqState := ∅
    insertFailures := []
    gets := [] }

inductive Role where
  | leader
  | follower (slot : Nat)
  deriving DecidableEq, Repr

inductive Received where
  | message (msg : Message)
  | closed
  | elapsed
  deriving DecidableEq

/-- A reception that does not deliver a chunk. -/
def Received.failed : Received → Bool
  | .message (.ok _) => false
  | _ => true

/-- What the environment decides in one operation: the reply of a peer, the
reply of the origin, whether a timed wait runs out, the live members. -/
structure FetchChoice where
  peer : Fetched
  origin : Fetched
  timeout : Bool
  alive : List NodeInfo

inductive FetchOp where
  | writesGet (key : ChunkKey)
  | writesInsert (key : ChunkKey) (data : Bytes)
  | writesRemove (key : ChunkKey)
  | writesClear
  | waitDrained
  | lruGet (key : ChunkKey)
  | lruPut (key : ChunkKey) (data : Bytes)
  | lruClear
  | inflightEntry (key : ChunkKey)
  | inflightContains (key : ChunkKey)
  | recv (slot : Nat) (timed : Bool)
  | finishLeader (key : ChunkKey) (msg : Message)
  | unknownMount (key : ChunkKey)
  | inflightClear
  | membersAlive
  | peerFetch (req : PeerRequest)
  | getSend (key : ChunkKey) (req : BlobRequest)
  | getRecv (key : ChunkKey)
  | noteFetchOrigin (mount blob : String) (fromBlob : Bool)
  | trackRead (mount blob : String) (reqOffset reqEnd chunkSize : Nat)
  | seqClear
  | recordInsertFailure (key : ChunkKey) (err : String)
  deriving DecidableEq

def FetchOp.Resp : FetchOp → Type
  | .writesGet _ => Option Bytes
  | .lruGet _ => Option Bytes
  | .inflightEntry _ => Role
  | .inflightContains _ => Bool
  | .recv _ _ => Received
  | .membersAlive => List NodeInfo
  | .peerFetch _ => Fetched
  | .getRecv _ => Fetched
  | .trackRead _ _ _ _ _ => Nat × Nat
  | .writesInsert _ _ | .writesRemove _ | .writesClear | .waitDrained | .lruPut _ _ | .lruClear
  | .finishLeader _ _ | .unknownMount _ | .inflightClear | .getSend _ _
  | .noteFetchOrigin _ _ _ | .seqClear | .recordInsertFailure _ _ => Unit

/-- The operation makes its thread the leader of the key. -/
def FetchOp.takes (key : ChunkKey) : (o : FetchOp) → o.Resp → Prop
  | .inflightEntry k, role => k = key ∧ role = .leader
  | _, _ => False

/-- The operations on the singleflight map. -/
def FetchOp.movesSlots : FetchOp → Bool
  | .inflightEntry _ | .finishLeader _ _ | .unknownMount _ | .inflightClear => true
  | _ => false

namespace FetchState

/-- Take the slot of a key out of the map, send its message if there is one
and drop the sender. -/
def closeSlot (f : FetchState) (key : ChunkKey) (msg : List Message) (cause : Closing) :
    FetchState :=
  match f.inflight.get? key with
  | none => f
  | some i =>
      { f with
        inflight := f.inflight.erase key
        slots := f.slots.modify i fun slot =>
          { slot with sent := slot.sent ++ msg, closed := some cause } }

/-- `inflight.entry(key)`: subscribe to the slot that is there, or create one
and become its leader. The guard of a leader belongs to its thread. -/
def inflightEntry (f : FetchState) (t : Nat) (key : ChunkKey) : Role × FetchState :=
  match f.inflight.get? key with
  | some i =>
      (.follower i,
        { f with slots := f.slots.modify i fun slot =>
          { slot with followers := t :: slot.followers } })
  | none =>
      (.leader,
        { f with
          inflight := f.inflight.insert key f.slots.length
          slots := f.slots ++ [⟨key, t, [], [], none⟩]
          guards := f.guards.insert t key })

def disarm (f : FetchState) (t : Nat) : FetchState := { f with guards := f.guards.erase t }

/-- The drop of an armed `LeaderGuard`. -/
def dropGuard (f : FetchState) (t : Nat) : FetchState :=
  match f.guards.get? t with
  | none => f
  | some key => (f.disarm t).closeSlot key [.error "leader cancelled"] (.cancelled t)

/-- `inflight.clear()`: every sender in the map is dropped. -/
def inflightClear (f : FetchState) : FetchState :=
  { f with
    inflight := ∅
    slots := f.slots.mapIdx fun i slot =>
      if f.inflight.get? slot.key = some i then { slot with closed := some .cleared } else slot }

/-- What a receiver of the slot gets; `none` while the sender is alive and has
sent nothing. -/
def received (f : FetchState) (i : Nat) : Option Received :=
  match f.slots[i]? with
  | none => none
  | some slot =>
      match slot.sent with
      | msg :: _ => some (.message msg)
      | [] => if slot.closed.isSome then some .closed else none

def seqKey (mount blob : String) : String := mount ++ "\x00" ++ blob

def seqEntry (f : FetchState) (mount blob : String) : SeqState :=
  (f.seqState.get? (seqKey mount blob)).getD ⟨0, 0, 0⟩

def u32Max : Nat := 2 ^ 32 - 1

def noteFetchOrigin (f : FetchState) (mount blob : String) (fromBlob : Bool) : FetchState :=
  let e := f.seqEntry mount blob
  let streak := if fromBlob then min (e.blobStreak + 1) u32Max else 0
  { f with seqState := f.seqState.insert (seqKey mount blob) { e with blobStreak := streak } }

/-- The locked part of `maybe_trigger_prefetch`. -/
def trackRead (f : FetchState) (mount blob : String) (reqOffset reqEnd chunkSize : Nat) :
    (Nat × Nat) × FetchState :=
  let e := f.seqEntry mount blob
  let forward := e.lastEnd ≤ reqOffset ∧ reqOffset - e.lastEnd ≤ chunkSize
  let consecutive := if forward then min (e.consecutive + 1) u32Max else 1
  let next := { e with consecutive := consecutive, lastEnd := reqEnd }
  ((consecutive, e.blobStreak),
    { f with seqState := f.seqState.insert (seqKey mount blob) next })

def maxRecordedInsertFailures : Nat := 256

def recordInsertFailure (f : FetchState) (key : ChunkKey) (err : String) : FetchState :=
  if f.insertFailures.length < maxRecordedInsertFailures then
    { f with insertFailures := f.insertFailures ++ [(key, err)] }
  else f

def lruGet (f : FetchState) (key : ChunkKey) : Option Bytes × FetchState :=
  match f.peerLru with
  | none => (none, f)
  | some lru => ((lru.get key).1, { f with peerLru := some (lru.get key).2 })

/-- The reply of a peer. The UCX client refuses a peer without an address. -/
def peerReply (rdma : Bool) (req : PeerRequest) (c : FetchChoice) : Fetched :=
  if rdma && req.workerAddr.isNone then
    .error (.peer ("missing ucx worker address for peer " ++ req.peerId))
  else c.peer

/-- One operation of thread `t`; `none` when it has to wait. -/
def exec (rdma : Bool) (t : Nat) (c : FetchChoice) (f : FetchState) :
    (o : FetchOp) → Option (o.Resp × FetchState)
  | .writesGet key => some (f.inflightWrites.get? key, f)
  | .writesInsert key data =>
      some ((), { f with inflightWrites := f.inflightWrites.insert key data })
  | .writesRemove key => some ((), { f with inflightWrites := f.inflightWrites.erase key })
  | .writesClear => some ((), { f with inflightWrites := ∅ })
  | .waitDrained => if f.inflightWrites.keys.isEmpty then some ((), f) else none
  | .lruGet key => some (f.lruGet key)
  | .lruPut key data => some ((), { f with peerLru := f.peerLru.map (·.put key data) })
  | .lruClear => some ((), { f with peerLru := f.peerLru.map PeerLru.clear })
  | .inflightEntry key => some (f.inflightEntry t key)
  | .inflightContains key => some ((f.inflight.get? key).isSome, f)
  | .recv slot timed =>
      if timed && c.timeout then some (.elapsed, f)
      else (f.received slot).map fun r => (r, f)
  | .finishLeader key msg => some ((), (f.disarm t).closeSlot key [msg] (.finished t))
  | .unknownMount key =>
      some ((), (f.disarm t).closeSlot key [.error "unknown mount"] (.unknownMount t))
  | .inflightClear => some ((), f.inflightClear)
  | .membersAlive => some (c.alive, f)
  | .peerFetch req => some (peerReply rdma req c, f)
  | .getSend key _ => some ((), { f with gets := key :: f.gets })
  | .getRecv _ => some (c.origin, f)
  | .noteFetchOrigin mount blob fromBlob => some ((), f.noteFetchOrigin mount blob fromBlob)
  | .trackRead mount blob reqOffset reqEnd chunkSize =>
      some (f.trackRead mount blob reqOffset reqEnd chunkSize)
  | .seqClear => some ((), { f with seqState := ∅ })
  | .recordInsertFailure key err => some ((), f.recordInsertFailure key err)

section Fields

variable (f : FetchState) (key k : ChunkKey) (msg : List Message) (cause : Closing)

@[simp]
theorem closeSlot_guards : (f.closeSlot key msg cause).guards = f.guards := by
  unfold closeSlot
  split <;> rfl

@[simp]
theorem closeSlot_inflightWrites :
    (f.closeSlot key msg cause).inflightWrites = f.inflightWrites := by
  unfold closeSlot
  split <;> rfl

@[simp]
theorem closeSlot_gets : (f.closeSlot key msg cause).gets = f.gets := by
  unfold closeSlot
  split <;> rfl

theorem closeSlot_inflight :
    (f.closeSlot key msg cause).inflight.get? k =
      if k = key then none else f.inflight.get? k := by
  unfold closeSlot
  split
  · rename_i hnone
    split
    · rename_i hk
      rw [hk, hnone]
    · rfl
  · simp only [FinMap.get?_erase]

theorem closeSlot_slots (j : Nat) :
    (f.closeSlot key msg cause).slots[j]? =
      if f.inflight.get? key = some j then
        f.slots[j]?.map fun slot =>
          { slot with sent := slot.sent ++ msg, closed := some cause }
      else f.slots[j]? := by
  unfold closeSlot
  split
  · rename_i hnone
    simp [hnone]
  · rename_i i hi
    simp only [hi, Option.some.injEq]
    rw [List.getElem?_modify]
    split <;> simp_all

theorem inflightClear_slots (j : Nat) :
    f.inflightClear.slots[j]? = f.slots[j]?.map fun slot =>
      if f.inflight.get? slot.key = some j then { slot with closed := some .cleared }
      else slot := by
  simp [inflightClear]

end Fields

section Frame

variable {f f' : FetchState}

/-- The writes in flight after an operation. -/
def writesAfter (f : FetchState) : FetchOp → FinMap ChunkKey Bytes
  | .writesInsert key data => f.inflightWrites.insert key data
  | .writesRemove key => f.inflightWrites.erase key
  | .writesClear => ∅
  | _ => f.inflightWrites

/-- The requests to the origin after an operation. -/
def getsAfter (f : FetchState) : FetchOp → List ChunkKey
  | .getSend key _ => key :: f.gets
  | _ => f.gets

/-- What an operation does to the writes and the requests, and that only the
operations on the singleflight map change it. -/
theorem exec_frame {rdma : Bool} {t : Nat} {c : FetchChoice} {o : FetchOp} {r : o.Resp}
    (hex : f.exec rdma t c o = some (r, f')) :
    f'.inflightWrites = f.writesAfter o ∧ f'.gets = f.getsAfter o ∧
      (o.movesSlots = false → f'.inflight = f.inflight ∧ f'.slots = f.slots) := by
  cases o with
  | waitDrained =>
      simp only [exec] at hex
      split at hex <;> cases hex
      exact ⟨rfl, rfl, fun _ => ⟨rfl, rfl⟩⟩
  | lruGet key =>
      simp only [exec, lruGet] at hex
      split at hex <;> cases hex <;> exact ⟨rfl, rfl, fun _ => ⟨rfl, rfl⟩⟩
  | inflightEntry key =>
      simp only [exec, inflightEntry] at hex
      split at hex <;> cases hex <;> exact ⟨rfl, rfl, nofun⟩
  | recv slot timed =>
      simp only [exec] at hex
      split at hex
      · cases hex
        exact ⟨rfl, rfl, fun _ => ⟨rfl, rfl⟩⟩
      · obtain ⟨r', -, heq⟩ := Option.map_eq_some_iff.mp hex
        cases heq
        exact ⟨rfl, rfl, fun _ => ⟨rfl, rfl⟩⟩
  | finishLeader key msg | unknownMount key =>
      cases hex
      exact ⟨closeSlot_inflightWrites _ _ _ _, closeSlot_gets _ _ _ _, nofun⟩
  | inflightClear =>
      cases hex
      exact ⟨rfl, rfl, nofun⟩
  | recordInsertFailure key err =>
      cases hex
      unfold recordInsertFailure
      split <;> exact ⟨rfl, rfl, fun _ => ⟨rfl, rfl⟩⟩
  | _ =>
      cases hex
      exact ⟨rfl, rfl, fun _ => ⟨rfl, rfl⟩⟩

theorem guards_of_disarm {f : FetchState} {t u : Nat} {key k : ChunkKey} {msg : List Message}
    {cause : Closing} (h : ((f.disarm t).closeSlot key msg cause).guards.get? u = some k) :
    f.guards.get? u = some k := by
  rw [closeSlot_guards, disarm, FinMap.get?_erase] at h
  split at h
  · cases h
  · exact h

/-- Only taking a slot arms a guard. -/
theorem exec_guards {rdma : Bool} {t : Nat} {c : FetchChoice} {o : FetchOp} {r : o.Resp}
    (hex : f.exec rdma t c o = some (r, f')) {u : Nat} {k : ChunkKey}
    (hk : f'.guards.get? u = some k) : f.guards.get? u = some k ∨ (u = t ∧ o.takes k r) := by
  cases o with
  | waitDrained =>
      simp only [exec] at hex
      split at hex <;> cases hex
      exact .inl hk
  | lruGet key =>
      simp only [exec, lruGet] at hex
      split at hex <;> cases hex <;> exact .inl hk
  | inflightEntry key =>
      simp only [exec, inflightEntry] at hex
      split at hex
      · cases hex
        exact .inl hk
      · cases hex
        rw [FinMap.get?_insert] at hk
        split at hk
        · rename_i hut
          exact .inr ⟨hut, Option.some.inj hk, rfl⟩
        · exact .inl hk
  | recv slot timed =>
      simp only [exec] at hex
      split at hex
      · cases hex
        exact .inl hk
      · obtain ⟨r', -, heq⟩ := Option.map_eq_some_iff.mp hex
        cases heq
        exact .inl hk
  | finishLeader key msg | unknownMount key =>
      cases hex
      exact .inl (guards_of_disarm hk)
  | recordInsertFailure key err =>
      cases hex
      unfold recordInsertFailure at hk
      split at hk <;> exact .inl hk
  | _ =>
      cases hex
      exact .inl hk

theorem dropGuard_guards (f : FetchState) {t u : Nat} {k : ChunkKey}
    (h : (f.dropGuard t).guards.get? u = some k) : f.guards.get? u = some k := by
  unfold dropGuard at h
  split at h
  · exact h
  · exact guards_of_disarm h

theorem dropGuard_gets (f : FetchState) (t : Nat) : (f.dropGuard t).gets = f.gets := by
  unfold dropGuard
  split
  · rfl
  · exact closeSlot_gets _ _ _ _

end Frame

end FetchState

end BlobCache

import BlobCache.Conc.Program
import BlobCache.Ucx.Endpoints
import BlobCache.Ucx.Slab
import BlobCache.Ucx.Wire

/-!
The tasks of the UCX runtime thread over its shared state: the fetches and health
checks of the client, the responses of the server, address updates, and the tick that
reaps broken endpoints. They run on one thread and are never cancelled. What a task
does between two awaits is one operation; the error callback of an endpoint can come
at any point, so it is a job of its own.

The transfers themselves, like the answer of `ucp_ep_create`, are the environment's.
Tags, metrics and the two ways to close an endpoint are left out, and so is shutdown.
-/

namespace BlobCache.Ucx

open Conc

def maxResponseBytes : Nat := 64 * 1024 * 1024

def decodeResponse (data : Bytes) (expectedLen : UInt32) : Fetched :=
  let total := data.length
  if total < 8 then .error (.peer s!"short UCX response: {total} bytes")
  else
    let status := ofLeBytes (slice data 0 4)
    let payloadLen := ofLeBytes (slice data 4 8)
    let payload := data.drop 8
    let body := payload.length
    if payloadLen ≠ body then
      .error (.peer s!"UCX response length mismatch: header {payloadLen} body {body}")
    else if status = 0 then
      if payloadLen = 0 ∨ maxResponseBytes < payloadLen then
        .error (.peer s!"bad resp len {payloadLen}")
      else if expectedLen.toNat < payloadLen then
        .error (.peer
          s!"response larger than requested: got {payloadLen}, expected {expectedLen}")
      else .ok payload
    else if status = 1 then .error (.notFound "peer miss")
    else if status = 2 then .error (.peer "ucx peer returned error")
    else .error (.peer s!"ucx peer status {status}")

def shouldMarkEndpointBroken (result : Fetched) : Bool :=
  match result with
  | .ok _ => false
  | .error (.notFound _) => false
  | .error _ => true

/-! ## The shared state -/

/-- History. For each task the endpoint it has checked out, with the peer and the
address that it asked for; the endpoints that it has to close; what it has of the slab,
and the slice that it receives into, as an index and a length. Over all tasks, the
endpoints taken out of `peer_eps` and those passed to `close_removed_endpoint`. -/
structure Ledger where
  outstanding : FinMap Nat (String × Nat × Bytes)
  hands : FinMap Nat (List Nat)
  holds : FinMap Nat Hold
  posted : FinMap Nat (Nat × Nat)
  removed : List Nat
  closed : List Nat

namespace Ledger

def empty : Ledger := ⟨∅, ∅, ∅, ∅, [], []⟩

/-- Task `t` has taken endpoints out of `peer_eps` and is to close them. -/
def handOut (l : Ledger) (t : Nat) (eps : List Nat) : Ledger :=
  { l with hands := l.hands.insert t eps, removed := eps ++ l.removed }

/-- Endpoints were taken out of `peer_eps`, and nobody is to close them. -/
def letGo (l : Ledger) (eps : List Nat) : Ledger := { l with removed := eps ++ l.removed }

def hand (l : Ledger) (t : Nat) : List Nat := (l.hands.get? t).getD []

def close (l : Ledger) (t ep : Nat) : Ledger :=
  { l with hands := l.hands.insert t ((l.hand t).erase ep), closed := ep :: l.closed }

end Ledger

structure State where
  rt : RuntimeState
  slab : RecvSlab
  ledger : Ledger

/-- What the environment decides in one operation: the answer of `ucp_ep_create`, of a
send, and of a send and the receive that goes with it. -/
structure Choice where
  create : Except BcError Unit
  sent : Except BcError Unit
  reply : Except BcError Bytes

/-- `enter` is the block at the start of the client's and the server's functions, which
updates the address of the peer and checks its endpoint out under one borrow. -/
inductive Op where
  | addrOf (peerId : String)
  | enter (peerId : String) (peerAddrBlob : Bytes)
  | update (peerId : String) (peerAddrBlob : Bytes)
  | markBroken (peerId : String)
  | release (checkedOut : CheckedOutEndpoint)
  | takeBroken
  | close (ep : Nat)
  | errorCb (ep : Nat)
  | tagSend (ep : Nat) (response : Bytes)
  | acquire
  | popFree
  | postRecv (idx len : Nat)
  | exchange (ep : Nat) (req : Bytes)
  | pushFree (idx : Nat)
  | releasePermit
  deriving DecidableEq

def Op.Resp : Op → Type
  | .addrOf _ => Option Bytes
  | .enter _ _ => Option Nat × Except BcError CheckedOutEndpoint
  | .update _ _ => Option Nat
  | .release _ => Option Nat
  | .takeBroken => List Nat
  | .tagSend _ _ => Except BcError Unit
  | .popFree => Option Nat
  | .exchange _ _ => Except BcError Bytes
  | .markBroken _ | .close _ | .errorCb _ | .acquire | .postRecv _ _ | .pushFree _
  | .releasePermit => Unit

inductive Job where
  | clientFetch (peerId : String) (peerAddrBlob : Bytes) (key : ChunkKey) (length : UInt32)
      (waitMs : UInt32) (requestId : String)
  | clientHealth (peerId : String) (peerAddrBlob : Bytes)
  | serverSendResponse (peerId : String) (response : Bytes)
  | updatePeer (peerId : String) (peerAddrBlob : Bytes)
  | reapBrokenEps
  | endpointErrorCb (ep : Nat)
  deriving DecidableEq

inductive Val where
  | fetched (r : Fetched)
  | done (r : Except BcError Unit)
  deriving DecidableEq

def effect : Effect := ⟨Op, Op.Resp, Job, Val⟩

instance : DecidableEq effect.Job := inferInstanceAs (DecidableEq Job)

abbrev RtM := Program effect

/-- The update and the checkout under one borrow. -/
def State.enter (s : State) (t : Nat) (peerId : String) (peerAddrBlob : Bytes) (c : Choice) :
    (Option Nat × Except BcError CheckedOutEndpoint) × State :=
  let (removed, rt) := s.rt.updatePeerAddrBlob peerId peerAddrBlob
  match rt.checkoutEndpoint peerId peerAddrBlob c.create with
  | (.error e, rt') =>
      -- the caller returns here, and `removed_before` with it
      ((removed, .error e), { s with rt := rt', ledger := s.ledger.letGo removed.toList })
  | (.ok checkedOut, rt') =>
      ((removed, .ok checkedOut),
        { s with
          rt := rt'
          ledger :=
            { s.ledger.handOut t removed.toList with
              outstanding :=
                s.ledger.outstanding.insert t (peerId, checkedOut.ep, peerAddrBlob) } })

/-- One operation of task `t`; `none` when it has to wait. -/
def exec (t : Nat) (o : Op) (c : Choice) (s : State) : Option (o.Resp × State) :=
  match o with
  | .addrOf peerId => some (s.rt.peerAddrBlobs.get? peerId, s)
  | .enter peerId peerAddrBlob => some (s.enter t peerId peerAddrBlob c)
  | .update peerId peerAddrBlob =>
      let (removed, rt) := s.rt.updatePeerAddrBlob peerId peerAddrBlob
      some (removed, { s with rt := rt, ledger := s.ledger.handOut t removed.toList })
  | .markBroken peerId => some ((), { s with rt := s.rt.markPeerEpBroken peerId })
  | .release checkedOut =>
      let (removed, rt) := s.rt.releaseEndpoint checkedOut
      some (removed,
        { s with
          rt := rt
          ledger :=
            { s.ledger.handOut t removed.toList with
              outstanding := s.ledger.outstanding.erase t } })
  | .takeBroken =>
      let (removed, rt) := s.rt.takeBrokenPeerEps
      some (removed, { s with rt := rt, ledger := s.ledger.handOut t removed })
  | .close ep => some ((), { s with ledger := s.ledger.close t ep })
  | .errorCb ep => some ((), { s with rt := s.rt.endpointErrorCb ep })
  | .tagSend _ _ => some (c.sent, s)
  | .acquire =>
      match s.slab.acquire with
      | none => none
      | some slab =>
          some ((), { s with
            slab := slab
            ledger := { s.ledger with holds := s.ledger.holds.insert t .permit } })
  | .popFree =>
      match s.slab.pop with
      | (none, slab) => some (none, { s with slab := slab })
      | (some idx, slab) =>
          some (some idx, { s with
            slab := slab
            ledger := { s.ledger with holds := s.ledger.holds.insert t (.slot idx) } })
  | .postRecv idx len =>
      some ((), { s with
        ledger := { s.ledger with posted := s.ledger.posted.insert t (idx, len) } })
  | .exchange _ _ => some (c.reply, s)
  | .pushFree idx =>
      some ((), { s with
        slab := s.slab.push idx
        ledger := { s.ledger with
          holds := s.ledger.holds.insert t .returned, posted := s.ledger.posted.erase t } })
  | .releasePermit =>
      some ((), { s with
        slab := s.slab.releasePermit
        ledger := { s.ledger with holds := s.ledger.holds.erase t } })

/-! ## The tasks -/

def perform (o : Op) : RtM o.Resp := Program.perform (E := effect) o

/-- `close_removed_endpoint` for each of them in turn. -/
def closeRemovedEndpoints : List Nat → RtM Unit
  | [] => return ()
  | ep :: eps => do
      perform (.close ep)
      closeRemovedEndpoints eps

/-- The drop of a `SlabSlot`. -/
def dropSlot (idx : Nat) : RtM Unit := do
  perform (.pushFree idx)
  perform .releasePermit

/-- `client_fetch_inner` once it has a slot. -/
def receiveInto (localPeerId : String) (ep : Nat) (key : ChunkKey) (length waitMs : UInt32)
    (requestId : String) (idx : Nat) : RtM Fetched := do
  match encodeRequest key length localPeerId waitMs requestId with
  | .error e => return .error e
  | .ok req =>
      perform (.postRecv idx (8 + length.toNat))
      match ← perform (.exchange ep req) with
      | .error e => return .error e
      | .ok data => return decodeResponse data length

def clientFetchInner (localPeerId : String) (ep : Nat) (key : ChunkKey) (length waitMs : UInt32)
    (requestId : String) : RtM Fetched := do
  perform .acquire
  match ← perform .popFree with
  | none =>
      perform .releasePermit
      return .error RecvSlab.desync
  | some idx =>
      let result ← receiveInto localPeerId ep key length waitMs requestId idx
      dropSlot idx
      return result

def clientFetch (localPeerId : String) (peerId : String) (peerAddrBlob : Bytes) (key : ChunkKey)
    (length waitMs : UInt32) (requestId : String) : RtM Fetched := do
  if length.toNat = 0 ∨ maxResponseBytes < length.toNat then
    return .error (.peer s!"bad chunk length {length}")
  else
    match ← perform (.enter peerId peerAddrBlob) with
    | (_, .error e) => return .error e
    | (removedBefore, .ok checkedOut) =>
        closeRemovedEndpoints removedBefore.toList
        let result ← clientFetchInner localPeerId checkedOut.ep key length waitMs requestId
        if shouldMarkEndpointBroken result then perform (.markBroken peerId)
        let removedAfter : Option Nat ← perform (.release checkedOut)
        closeRemovedEndpoints removedAfter.toList
        return result

def clientHealth (peerId : String) (peerAddrBlob : Bytes) : RtM (Except BcError Unit) := do
  match ← perform (.enter peerId peerAddrBlob) with
  | (_, .error e) => return .error e
  | (removedBefore, .ok checkedOut) =>
      closeRemovedEndpoints removedBefore.toList
      let removedAfter : Option Nat ← perform (.release checkedOut)
      closeRemovedEndpoints removedAfter.toList
      return .ok ()

def serverSendResponse (peerId : String) (response : Bytes) : RtM (Except BcError Unit) := do
  match ← perform (.addrOf peerId) with
  | none => return .ok ()
  | some peerAddrBlob =>
      match ← perform (.enter peerId peerAddrBlob) with
      | (_, .error e) => return .error e
      | (removedBefore, .ok checkedOut) =>
          closeRemovedEndpoints removedBefore.toList
          let result : Except BcError Unit ← perform (.tagSend checkedOut.ep response)
          if !result.isOk then perform (.markBroken peerId)
          let removedAfter : Option Nat ← perform (.release checkedOut)
          closeRemovedEndpoints removedAfter.toList
          return result

def updatePeer (peerId : String) (peerAddrBlob : Bytes) : RtM (Except BcError Unit) := do
  let removed : Option Nat ← perform (.update peerId peerAddrBlob)
  closeRemovedEndpoints removed.toList
  return .ok ()

def reapBrokenEps : RtM (Except BcError Unit) := do
  let stale : List Nat ← perform .takeBroken
  closeRemovedEndpoints stale
  return .ok ()

def body (localPeerId : String) : Job → RtM Val
  | .clientFetch peerId peerAddrBlob key length waitMs requestId => do
      return .fetched
        (← clientFetch localPeerId peerId peerAddrBlob key length waitMs requestId)
  | .clientHealth peerId peerAddrBlob => do return .done (← clientHealth peerId peerAddrBlob)
  | .serverSendResponse peerId response => do
      return .done (← serverSendResponse peerId response)
  | .updatePeer peerId peerAddrBlob => do return .done (← updatePeer peerId peerAddrBlob)
  | .reapBrokenEps => do return .done (← reapBrokenEps)
  | .endpointErrorCb ep => do
      perform (.errorCb ep)
      return .done (.ok ())

/-- The runtime thread. Its tasks are spawned and not cancelled. -/
def machine (localPeerId : String) : Machine effect where
  State := State
  Choice := Choice
  exec := exec
  body := body localPeerId
  external _ := true
  cancellable _ _ := false
  onCancel _ s := s

/-- The state in which the runtime starts, for the sizes that `main` passes on. -/
def State.new (localPeerId : String) (chunkConcurrency chunkSize : Nat) : State :=
  ⟨.new localPeerId, .fresh chunkConcurrency (8 + chunkSize), .empty⟩

end BlobCache.Ucx

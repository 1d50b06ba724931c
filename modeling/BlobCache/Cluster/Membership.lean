import BlobCache.Data.Table
import BlobCache.PeerIndex

/-!
The membership table of one node. Each lock section of the source is one
function here and takes the second at which it read the clock. Walking the hash
map, a record is met in the order of the table; nothing below depends on it.
-/

namespace BlobCache.Cluster

def heartbeatTimeoutSecs : Nat := 30

inductive NodeState where
  | alive
  | suspect
  | dead
  deriving DecidableEq, Repr

def NodeState.rank : NodeState → Nat
  | .alive => 0
  | .suspect => 1
  | .dead => 2

/-- A member's record: what the peer index and the fetcher read of it, and what
gossip keeps about it. -/
structure NodeInfo extends BlobCache.NodeInfo where
  gossipUrl : String
  clusterHash : String
  lastSeenUnix : Nat
  state : NodeState
  incarnation : Nat
  bloomVersion : Nat
  deriving DecidableEq, Repr

/-- What a record says of its node for ever: its id, its addresses and its
cluster. -/
def NodeInfo.identity (n : NodeInfo) : BlobCache.NodeInfo × String × String :=
  (n.toNodeInfo, n.gossipUrl, n.clusterHash)

structure ClusterStats where
  joins : Nat
  failures : Nat
  configMismatches : Nat
  gossipRounds : Nat
  deriving DecidableEq, Repr

/-- Records are stored under their id. -/
abbrev Members := Table (fun n : NodeInfo => n.id)

theorem id_of_get? {t : Members} {id : String} {n : NodeInfo} (h : t.get? id = some n) :
    n.id = id := t.keyed id n h

structure Membership where
  meTemplate : NodeInfo
  meIncarnation : Nat
  meBloomVersion : Nat
  members : Members
  stats : ClusterStats

namespace Membership

/-- `me_id` is the id of the template, and both are set once. -/
def meId (m : Membership) : String := m.meTemplate.id

def new (me : NodeInfo) (stats : ClusterStats) : Membership where
  meTemplate := me
  meIncarnation := max me.incarnation 1
  meBloomVersion := me.bloomVersion
  members := Table.empty.insert me
  stats := stats

def meSnapshot (m : Membership) (now : Nat) : NodeInfo :=
  { m.meTemplate with
    incarnation := m.meIncarnation
    bloomVersion := m.meBloomVersion
    lastSeenUnix := now
    state := .alive }

def setBloomVersion (m : Membership) (v : Nat) : Membership := { m with meBloomVersion := v }

def membersAlive (m : Membership) : List NodeInfo :=
  m.members.values.filter fun n =>
    n.state = .alive ∧ n.id ≠ m.meId ∧ n.clusterHash = m.meTemplate.clusterHash

def membersAll (m : Membership) : List NodeInfo := m.members.values

/-- The precedence between two records of one id. -/
def shouldUpdate (existing n : NodeInfo) : Bool :=
  n.incarnation > existing.incarnation ||
    (n.incarnation = existing.incarnation && n.lastSeenUnix > existing.lastSeenUnix) ||
    (n.incarnation = existing.incarnation && n.lastSeenUnix = existing.lastSeenUnix &&
      n.state.rank > existing.state.rank)

/-- The incarnation after a record about this node: a record that outbids it, or
that takes it for down at the same incarnation, is outbid in turn. The sum wraps
as in a release build. -/
def refutedIncarnation (ourInc : Nat) (n : NodeInfo) : Nat :=
  if n.incarnation > ourInc ∨ (n.incarnation = ourInc ∧ n.state ≠ .alive) then
    (max n.incarnation ourInc + 1) % 2 ^ 64
  else ourInc

/-- The branch of `merge` for a record about this node. The own entry is written
again from the template, with the template's Bloom version. -/
def refute (m : Membership) (now : Nat) (n : NodeInfo) : Membership :=
  let inc := refutedIncarnation m.meIncarnation n
  { m with
    meIncarnation := inc
    members := m.members.insert
      { m.meTemplate with incarnation := inc, lastSeenUnix := now, state := .alive } }

/-- One pass of the loop of `merge`, with the peers whose endpoint is to be
brought up to date. -/
def mergeOne (now : Nat) : Membership × List NodeInfo → NodeInfo → Membership × List NodeInfo
  | (m, updatePeers), n =>
      if n.id = m.meId then (m.refute now n, updatePeers)
      else if n.clusterHash ≠ m.meTemplate.clusterHash then
        ({ m with stats.configMismatches := m.stats.configMismatches + 1 }, updatePeers)
      else
        match m.members.get? n.id with
        | some existing =>
            if shouldUpdate existing n then
              ({ m with members := m.members.insert n },
                if existing.ucxWorkerAddrB64 ≠ n.ucxWorkerAddrB64 then updatePeers ++ [n]
                else updatePeers)
            else (m, updatePeers)
        | none =>
            ({ m with
                members := m.members.insert n
                stats.joins := m.stats.joins + 1 }, updatePeers ++ [n])

/-- `merge`, with the peers that `rdma_peer_update_hook` is called for. -/
def mergeUpdates (m : Membership) (now : Nat) (incoming : List NodeInfo) :
    Membership × List NodeInfo :=
  incoming.foldl (mergeOne now) (m, [])

def merge (m : Membership) (now : Nat) (incoming : List NodeInfo) : Membership :=
  (m.mergeUpdates now incoming).1

def touched (id : String) (now : Nat) (n : NodeInfo) : NodeInfo :=
  if n.id = id then { n with lastSeenUnix := now, state := .alive } else n

theorem touched_id (id : String) (now : Nat) (n : NodeInfo) : (touched id now n).id = n.id := by
  unfold touched
  split <;> rfl

def touchPeer (m : Membership) (now : Nat) (id : String) : Membership :=
  { m with members := m.members.modify (touched id now) (touched_id id now) }

/-- The state that a record's age calls for. -/
def agedState (now : Nat) (n : NodeInfo) : NodeState :=
  let age := now - n.lastSeenUnix
  if age > heartbeatTimeoutSecs * 2 then .dead
  else if age > heartbeatTimeoutSecs then .suspect
  else .alive

def aged (meId : String) (now : Nat) (n : NodeInfo) : NodeInfo :=
  if n.id = meId then n else { n with state := agedState now n }

theorem aged_id (meId : String) (now : Nat) (n : NodeInfo) : (aged meId now n).id = n.id := by
  unfold aged
  split <;> rfl

/-- The peers a sweep takes for dead that were not dead before: those that
`on_peer_dead` is called for. -/
def newlyDead (m : Membership) (now : Nat) : List String :=
  (m.members.values.filter fun n =>
    n.id ≠ m.meId ∧ agedState now n ≠ n.state ∧ agedState now n = .dead).map (·.id)

def sweep (m : Membership) (now : Nat) : Membership :=
  { m with
    members := m.members.modify (aged m.meId now) (aged_id m.meId now)
    stats.failures := m.stats.failures + (m.newlyDead now).length }

theorem touchPeer_get? (m : Membership) (now : Nat) (peer id : String) :
    (m.touchPeer now peer).members.get? id = (m.members.get? id).map (touched peer now) :=
  Table.get?_modify _ _ (touched_id peer now) id

theorem sweep_get? (m : Membership) (now : Nat) (id : String) :
    (m.sweep now).members.get? id = (m.members.get? id).map (aged m.meId now) :=
  Table.get?_modify _ _ (aged_id m.meId now) id

/-- A sweep that runs late enough finds the record dead. -/
theorem sweep_dead {m : Membership} {id : String} {stop now : Nat}
    (hid : id ≠ m.meId) (hseen : ∀ r, m.members.get? id = some r → r.lastSeenUnix ≤ stop)
    (hnow : stop + 2 * heartbeatTimeoutSecs < now) {r : NodeInfo}
    (hr : (m.sweep now).members.get? id = some r) : r.state = .dead := by
  rw [sweep_get?] at hr
  obtain ⟨r0, h0, rfl⟩ := Option.map_eq_some_iff.mp hr
  have hne : r0.id ≠ m.meId := by
    rw [id_of_get? h0]
    exact hid
  have hage : now - r0.lastSeenUnix > heartbeatTimeoutSecs * 2 := by
    have := hseen r0 h0
    unfold heartbeatTimeoutSecs at hnow ⊢
    omega
  simp [aged, hne, agedState, hage]

end Membership

end BlobCache.Cluster

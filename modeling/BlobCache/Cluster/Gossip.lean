import BlobCache.Conc.Run
import BlobCache.Cluster.Precedence

/-!
Nodes that gossip. Every lock section of the gossip loop and of the sync
endpoint is a step of its own, and any node may take the next one. A payload
that was sent stays in flight: it may arrive late, more than once or never.
Time is one clock in seconds; a section may run later than it read the clock.
-/

namespace BlobCache.Cluster

open Conc

/-- A sync request or reply. The source calls the first field `from`. -/
structure GossipPayload where
  sender : NodeInfo
  members : List NodeInfo
  deriving DecidableEq, Repr

/-- A payload with the node that built it; `reply` says which endpoint
handles it. -/
structure Message (ι : Type) where
  source : ι
  reply : Bool
  payload : GossipPayload

def Message.records {ι : Type} (msg : Message ι) : List NodeInfo :=
  msg.payload.members ++ [msg.payload.sender]

/-- The nodes, the snapshots whose payload is not complete yet, the payloads
sent, and the payloads merged whose sender is not touched yet. -/
structure Gossip (ι : Type) where
  clock : Nat
  nodes : ι → Membership
  drafts : List (ι × NodeInfo)
  sent : List (Message ι)
  merged : List (ι × Message ι)

/-- The sections of the gossip code. `draft`, `message` and `entry` are positions
in the lists of the state. -/
inductive Section (ι : Type) where
  | tick
  | setBloomVersion (node : ι) (version : Nat)
  | sweep (node : ι) (now : Nat)
  | snapshot (node : ι)
  | send (node : ι) (draft : Nat) (reply : Bool) (members : List NodeInfo)
  | forward (node : ι) (draft : Nat) (reply : Bool) (members : List NodeInfo)
  | deliver (node : ι) (message : Nat) (now : Nat)
  | touch (node : ι) (entry : Nat) (now : Nat)

namespace Gossip

variable {ι : Type} [DecidableEq ι]

def init (template : ι → NodeInfo) (clock : Nat) : Gossip ι :=
  ⟨clock, fun i => .new (template i) ⟨0, 0, 0, 0⟩, [], [], []⟩

def setNode (s : Gossip ι) (i : ι) (m : Membership) : Gossip ι :=
  { s with nodes := Function.update s.nodes i m }

/-- The records that a node can get hold of. -/
def seenBy (s : Gossip ι) (i : ι) : List NodeInfo :=
  (s.nodes i).membersAll ++ s.sent.flatMap Message.records

/-- The payload of a snapshot and a list of members is sent. -/
def post (s : Gossip ι) (i : ι) (draft : Nat) (reply : Bool) (members : List NodeInfo) :
    Option (Gossip ι) :=
  match s.drafts[draft]? with
  | none => none
  | some (j, snapshot) =>
      if j = i then
        some { s with
          drafts := s.drafts.eraseIdx draft
          sent := s.sent ++ [⟨i, reply, ⟨snapshot, members⟩⟩] }
      else none

/-- The sync handler and the reply branch of `gossip_with` up to the merge: a
sender of another cluster is refused. -/
def receive (m : Membership) (now : Nat) (p : GossipPayload) : Membership × Bool :=
  if p.sender.clusterHash ≠ m.meTemplate.clusterHash then
    ({ m with stats.configMismatches := m.stats.configMismatches + 1 }, false)
  else (m.merge now (p.members ++ [p.sender]), true)

/-- What both do after the merge; only `gossip_with` counts a round. -/
def acknowledge (m : Membership) (now : Nat) (reply : Bool) (p : GossipPayload) : Membership :=
  let m := m.touchPeer now p.sender.id
  if reply then { m with stats.gossipRounds := m.stats.gossipRounds + 1 } else m

def step (s : Gossip ι) : Section ι → Option (Gossip ι)
  | .tick => some { s with clock := s.clock + 1 }
  | .setBloomVersion i v => some (s.setNode i ((s.nodes i).setBloomVersion v))
  | .sweep i now => if now ≤ s.clock then some (s.setNode i ((s.nodes i).sweep now)) else none
  | .snapshot i =>
      some { s with drafts := s.drafts ++ [(i, (s.nodes i).meSnapshot s.clock)] }
  | .send i draft reply members =>
      if members.Perm (s.nodes i).membersAll then s.post i draft reply members else none
  -- A peer that puts other records it has seen into its payload.
  | .forward i draft reply members =>
      if ∀ n ∈ members, n ∈ s.seenBy i then s.post i draft reply members else none
  | .deliver i message now =>
      match s.sent[message]? with
      | none => none
      | some msg =>
          if now ≤ s.clock then
            match receive (s.nodes i) now msg.payload with
            | (m, true) => some { s.setNode i m with merged := s.merged ++ [(i, msg)] }
            | (m, false) => some (s.setNode i m)
          else none
  | .touch i entry now =>
      match s.merged[entry]? with
      | none => none
      | some (j, msg) =>
          if j = i ∧ now ≤ s.clock then
            some { s.setNode i (acknowledge (s.nodes i) now msg.reply msg.payload) with
              merged := s.merged.eraseIdx entry }
          else none

/-- What a step can be. -/
inductive Stepped (s : Gossip ι) : Section ι → Gossip ι → Prop where
  | tick : Stepped s .tick { s with clock := s.clock + 1 }
  | setBloomVersion (i : ι) (v : Nat) :
      Stepped s (.setBloomVersion i v) (s.setNode i ((s.nodes i).setBloomVersion v))
  | sweep (i : ι) {now : Nat} (hnow : now ≤ s.clock) :
      Stepped s (.sweep i now) (s.setNode i ((s.nodes i).sweep now))
  | snapshot (i : ι) :
      Stepped s (.snapshot i)
        { s with drafts := s.drafts ++ [(i, (s.nodes i).meSnapshot s.clock)] }
  | post {l : Section ι} (i : ι) {draft : Nat} (reply : Bool) {snapshot : NodeInfo}
      {members : List NodeInfo}
      (hl : l = .send i draft reply members ∨ l = .forward i draft reply members)
      (hdraft : (i, snapshot) ∈ s.drafts) (hmembers : ∀ n ∈ members, n ∈ s.seenBy i) :
      Stepped s l { s with
        drafts := s.drafts.eraseIdx draft
        sent := s.sent ++ [⟨i, reply, ⟨snapshot, members⟩⟩] }
  | refuse (i : ι) {message now : Nat} {msg : Message ι} (hmsg : s.sent[message]? = some msg)
      (hhash : msg.payload.sender.clusterHash ≠ (s.nodes i).meTemplate.clusterHash) :
      Stepped s (.deliver i message now) (s.setNode i { s.nodes i with
        stats.configMismatches := (s.nodes i).stats.configMismatches + 1 })
  | deliver (i : ι) {message now : Nat} {msg : Message ι} (hmsg : s.sent[message]? = some msg)
      (hnow : now ≤ s.clock)
      (hhash : msg.payload.sender.clusterHash = (s.nodes i).meTemplate.clusterHash) :
      Stepped s (.deliver i message now)
        { s.setNode i ((s.nodes i).merge now msg.records) with
          merged := s.merged ++ [(i, msg)] }
  | touch (i : ι) {entry now : Nat} {msg : Message ι} (hmsg : s.merged[entry]? = some (i, msg))
      (hnow : now ≤ s.clock) :
      Stepped s (.touch i entry now)
        { s.setNode i (acknowledge (s.nodes i) now msg.reply msg.payload) with
          merged := s.merged.eraseIdx entry }

theorem post_eq {s s' : Gossip ι} {i : ι} {draft : Nat} {reply : Bool} {members : List NodeInfo}
    (h : s.post i draft reply members = some s') :
    ∃ snapshot, (i, snapshot) ∈ s.drafts ∧ s' = { s with
      drafts := s.drafts.eraseIdx draft
      sent := s.sent ++ [⟨i, reply, ⟨snapshot, members⟩⟩] } := by
  unfold post at h
  split at h
  · cases h
  · rename_i j snapshot hget
    split at h
    · rename_i hj
      subst hj
      exact ⟨snapshot, List.mem_of_getElem? hget, (Option.some.inj h).symm⟩
    · cases h

theorem stepped {s s' : Gossip ι} {l : Section ι} (h : s.step l = some s') : s.Stepped l s' := by
  cases l with
  | tick =>
      cases h
      exact .tick
  | setBloomVersion i v =>
      cases h
      exact .setBloomVersion i v
  | sweep i now =>
      simp only [step] at h
      split at h
      · rename_i hnow
        cases h
        exact .sweep i hnow
      · cases h
  | snapshot i =>
      cases h
      exact .snapshot i
  | send i draft reply members =>
      simp only [step] at h
      split at h
      · rename_i hperm
        obtain ⟨snapshot, hdraft, rfl⟩ := post_eq h
        exact .post i reply (.inl rfl) hdraft fun n hn =>
          List.mem_append_left _ (hperm.mem_iff.mp hn)
      · cases h
  | forward i draft reply members =>
      simp only [step] at h
      split at h
      · rename_i hseen
        obtain ⟨snapshot, hdraft, rfl⟩ := post_eq h
        exact .post i reply (.inr rfl) hdraft hseen
      · cases h
  | deliver i message now =>
      simp only [step] at h
      split at h
      · cases h
      · rename_i msg hmsg
        split at h
        · rename_i hnow
          by_cases hhash : msg.payload.sender.clusterHash = (s.nodes i).meTemplate.clusterHash
          · simp only [receive, hhash, ne_eq, not_true_eq_false, if_false] at h
            cases h
            exact .deliver i hmsg hnow hhash
          · simp only [receive, hhash, ne_eq, not_false_eq_true, if_true] at h
            cases h
            exact .refuse i hmsg hhash
        · cases h
  | touch i entry now =>
      simp only [step] at h
      split at h
      · cases h
      · rename_i j msg hmsg
        split at h
        · rename_i hguard
          obtain ⟨rfl, hnow⟩ := hguard
          cases h
          exact .touch j hmsg hnow
        · cases h

/-! ### Where a record comes from -/

/-- The ways a record can be in a node's table after a step. -/
inductive RecordOf (s : Gossip ι) (l : Section ι) (i : ι) (id : String) (r : NodeInfo) : Prop where
  | kept {r0 : NodeInfo} (hbefore : (s.nodes i).members.get? id = some r0)
      (hident : r.identity = r0.identity) (hseen : r.lastSeenUnix = r0.lastSeenUnix)
  | touched {r0 : NodeInfo} {entry now : Nat} {msg : Message ι} (hl : l = .touch i entry now)
      (hmsg : s.merged[entry]? = some (i, msg)) (hid : msg.payload.sender.id = id)
      (hbefore : (s.nodes i).members.get? id = some r0)
      (hident : r.identity = r0.identity) (hseen : r.lastSeenUnix ≤ s.clock)
  | arrived {message now : Nat} {msg : Message ι} (hl : l = .deliver i message now)
      (hmsg : s.sent[message]? = some msg) (hmem : r ∈ msg.records)
      (hid : id ≠ (s.nodes i).meId)
      (hhash : r.clusterHash = (s.nodes i).meTemplate.clusterHash)
  | own {message now : Nat} (hl : l = .deliver i message now) (hid : id = (s.nodes i).meId)
      (hident : r.identity = (s.nodes i).meTemplate.identity) (hseen : r.lastSeenUnix ≤ s.clock)

omit [DecidableEq ι] in
theorem RecordOf.of_same {s : Gossip ι} {l : Section ι} {i : ι} {id : String} {r : NodeInfo}
    (h : (s.nodes i).members.get? id = some r) : s.RecordOf l i id r :=
  .kept h rfl rfl

theorem setNode_nodes (s : Gossip ι) (i j : ι) (m : Membership) :
    (s.setNode i m).nodes j = if j = i then m else s.nodes j := by
  by_cases h : j = i
  · subst h
    simp [setNode]
  · simp [setNode, h]

theorem setNode_forall {P : ι → Membership → Prop} {s : Gossip ι} {j : ι} {m : Membership}
    (hself : P j m) (hothers : ∀ i, P i (s.nodes i)) (i : ι) : P i ((s.setNode j m).nodes i) := by
  rw [setNode_nodes]
  split
  · rename_i hij
    subst hij
    exact hself
  · exact hothers i

theorem acknowledge_members (m : Membership) (now : Nat) (reply : Bool) (p : GossipPayload) :
    (acknowledge m now reply p).members = (m.touchPeer now p.sender.id).members := by
  cases reply <;> rfl

/-- A section of node `j` only has to account for the table of `j`. -/
theorem RecordOf.of_setNode {s : Gossip ι} {l : Section ι} {i j : ι} {m : Membership}
    {id : String} {r : NodeInfo} (hr : ((s.setNode j m).nodes i).members.get? id = some r)
    (hself : m.members.get? id = some r → s.RecordOf l j id r) : s.RecordOf l i id r :=
  setNode_forall (P := fun i m => m.members.get? id = some r → s.RecordOf l i id r) hself
    (fun _ => .of_same) i hr

/-- Every record in a table after a step is accounted for. -/
theorem Stepped.record {s s' : Gossip ι} {l : Section ι} (h : s.Stepped l s') {i : ι}
    {id : String} {r : NodeInfo} (hr : (s'.nodes i).members.get? id = some r) :
    s.RecordOf l i id r := by
  cases h with
  | tick | snapshot j | post j reply hl hdraft hmembers => exact .of_same hr
  | setBloomVersion j v => exact .of_setNode hr .of_same
  | refuse j hmsg hhash => exact .of_setNode hr .of_same
  | sweep j hnow =>
      apply RecordOf.of_setNode hr
      intro hr
      rw [Membership.sweep_get?] at hr
      obtain ⟨r0, h0, rfl⟩ := Option.map_eq_some_iff.mp hr
      refine .kept h0 ?_ ?_ <;> (unfold Membership.aged; split <;> rfl)
  | @deliver j message now msg hmsg hnow hhash =>
      apply RecordOf.of_setNode hr
      intro hr
      rcases Membership.merge_record hr with hkept | ⟨hid, hmem, hsame⟩ | ⟨hid, inc, rfl⟩
      · exact .of_same hkept
      · exact .arrived rfl hmsg hmem hid hsame
      · exact .own rfl hid rfl hnow
  | @touch j entry now msg hmsg hnow =>
      apply RecordOf.of_setNode hr
      intro hr
      rw [acknowledge_members, Membership.touchPeer_get?] at hr
      obtain ⟨r0, h0, rfl⟩ := Option.map_eq_some_iff.mp hr
      unfold Membership.touched
      split
      · rename_i hid
        exact .touched rfl hmsg (hid.symm.trans (id_of_get? h0)) h0 rfl hnow
      · exact .of_same h0

end Gossip

end BlobCache.Cluster
